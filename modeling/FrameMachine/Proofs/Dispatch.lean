import FrameMachine.Proofs.Operands
import FrameMachine.Proofs.Step

/-!
# From effects back to instructions

An operation that is read from an instruction has the instruction's opcode (`opcode_of_operation`), and
its label is the instruction's label argument (`label_argument`). `Operation.Yields` lists, with all that
was found on the way, the ways in which an operation can decide on an effect, so that an effect tells
which operation had it (`yields_of_effect`).
-/

namespace FrameMachine

/-! ## Opcodes of operations -/

def Operation.opcode : Operation → Opcode
  | .move _ _ => .move
  | .typeOf _ _ => .type
  | .createFrame => .createframe
  | .pushFrame => .pushframe
  | .popFrame => .popframe
  | .declare _ => .defvar
  | .call _ => .call
  | .return => .return
  | .label _ => .label
  | .jump _ => .jump
  | .jumpIf wanted _ _ _ => if wanted then .jumpifeq else .jumpifneq
  | .exit _ => .exit
  | .push _ => .pushs
  | .pop _ => .pops
  | .compute op _ _ => op
  | .setChar _ _ _ => .setchar
  | .read _ _ => .read
  | .write _ => .write
  | .debugWrite _ => .dprint
  | .break => .break

theorem opcode_of_ofOperands {op : Opcode} {os : List Operand} {r : Operation}
    (hfits : OperandsFit os op.shapes) (h : Operation.ofOperands? op os = some r) : r.opcode = op := by
  cases op with
  | createframe | pushframe | popframe | «return» | «break» =>
    obtain rfl := Option.some.inj ((nullary_of_fits hfits).symm.trans h)
    rfl
  | defvar | pops =>
    obtain ⟨x, hx⟩ := onVariable_of_fits hfits
    obtain rfl := Option.some.inj (hx.symm.trans h)
    rfl
  | call | label | jump =>
    obtain ⟨name, hname⟩ := onLabel_of_fits hfits
    obtain rfl := Option.some.inj (hname.symm.trans h)
    rfl
  | pushs | write | exit | dprint =>
    obtain ⟨a, ha⟩ := onSymbol_of_fits hfits
    obtain rfl := Option.some.inj (ha.symm.trans h)
    rfl
  | move | not | int2char | strlen | type =>
    obtain ⟨x, a, ha⟩ := onVariableSymbol_of_fits hfits
    obtain rfl := Option.some.inj (ha.symm.trans h)
    rfl
  | read =>
    obtain ⟨x, t, ht, -⟩ := onVariableType_of_fits hfits
    obtain rfl := Option.some.inj (ht.symm.trans h)
    rfl
  | add | sub | mul | idiv | lt | gt | eq | and | or | stri2int | concat | getchar | setchar =>
    obtain ⟨x, a, b, hab⟩ := onVariableSymbols_of_fits hfits
    obtain rfl := Option.some.inj (hab.symm.trans h)
    rfl
  | jumpifeq | jumpifneq =>
    obtain ⟨name, a, b, hab⟩ := onLabelSymbols_of_fits hfits
    obtain rfl := Option.some.inj (hab.symm.trans h)
    rfl

theorem ofOperands_of_operation {i : Instruction} {op : Operation} (h : i.operation = .ok op) :
    ∃ os, OperandsFit os i.opcode.shapes ∧ List.Forall₂ (fun a o => a.operand = .ok o) i.arguments os ∧
      Operation.ofOperands? i.opcode os = some op := by
  have hreads := reads_operation i
  rw [h] at hreads
  cases hreads with
  | @operation os _ hshapes hos hsome =>
    exact ⟨os, readOperands_fits (checkShapes_ok_iff.mp hshapes) hos, readOperands_forall hos, hsome⟩

theorem opcode_of_operation {i : Instruction} {op : Operation} (h : i.operation = .ok op) :
    op.opcode = i.opcode := by
  obtain ⟨os, hfits, -, hsome⟩ := ofOperands_of_operation h
  exact opcode_of_ofOperands hfits hsome

/-! ## Label arguments -/

def Operation.label? : Operation → Option String
  | .call name => some name
  | .label name => some name
  | .jump name => some name
  | .jumpIf _ name _ _ => some name
  | _ => none

theorem onLabel_eq_some {f : String → Operation} {os : List Operand} {r : Operation}
    (h : Operation.onLabel f os = some r) : ∃ name, os = [.label name] ∧ r = f name := by
  unfold Operation.onLabel at h
  split at h
  · exact ⟨_, rfl, (Option.some.inj h).symm⟩
  · cases h

theorem onLabelSymbols_eq_some {f : String → Symbol → Symbol → Operation} {os : List Operand} {r : Operation}
    (h : Operation.onLabelSymbols f os = some r) :
    ∃ name rest a b, os = .label name :: rest ∧ r = f name a b := by
  unfold Operation.onLabelSymbols at h
  split at h
  · simp only [bind, Option.bind_eq_some_iff] at h
    obtain ⟨a, -, b, -, h⟩ := h
    exact ⟨_, _, a, b, rfl, (Option.some.inj h).symm⟩
  · cases h

theorem label_operand {os : List Operand} {op : Operation} {name : String}
    (h : Operation.ofOperands? op.opcode os = some op) (hname : op.label? = some name) :
    ∃ rest, os = .label name :: rest := by
  cases op with
  | call n | label n | jump n =>
    obtain rfl := Option.some.inj hname
    obtain ⟨n', rfl, hn⟩ := onLabel_eq_some h
    cases hn
    exact ⟨[], rfl⟩
  | jumpIf wanted n a b =>
    obtain rfl := Option.some.inj hname
    cases wanted with
    | true =>
      obtain ⟨n', rest, a', b', rfl, hn⟩ := onLabelSymbols_eq_some h
      cases hn
      exact ⟨rest, rfl⟩
    | false =>
      obtain ⟨n', rest, a', b', rfl, hn⟩ := onLabelSymbols_eq_some h
      cases hn
      exact ⟨rest, rfl⟩
  | _ => cases hname

theorem label_argument {i : Instruction} {op : Operation} (h : i.operation = .ok op) {name : String}
    (hname : op.label? = some name) : ∃ a rest, i.arguments = a :: rest ∧ a.kind = .label ∧ a.text = name := by
  obtain ⟨os, -, hall, hsome⟩ := ofOperands_of_operation h
  rw [← opcode_of_operation h] at hsome
  obtain ⟨rest, rfl⟩ := label_operand hsome hname
  obtain ⟨a, as, ha, -, has⟩ := List.forall₂_cons_right_iff.mp hall
  have hreads := reads_operand a
  rw [ha] at hreads
  cases hreads with
  | label hkind => exact ⟨a, as, has, hkind, rfl⟩

/-! ## Operations of opcodes -/

section
variable {i : Instruction} {op : Operation} (h : i.operation = .ok op)
include h

theorem nullary_of_operation {r : Operation} (hshapes : i.opcode.shapes = [])
    (hr : Operation.ofOperands? i.opcode [] = some r) : op = r := by
  obtain ⟨os, hfits, -, hsome⟩ := ofOperands_of_operation h
  rw [hshapes] at hfits
  cases hfits
  exact Option.some.inj (hsome.symm.trans hr)

theorem call_of_operation (hop : i.opcode = .call) : ∃ name, op = .call name := by
  obtain ⟨os, -, -, hsome⟩ := ofOperands_of_operation h
  rw [hop] at hsome
  obtain ⟨name, -, rfl⟩ := onLabel_eq_some hsome
  exact ⟨name, rfl⟩

theorem label_of_operation (hop : i.opcode = .label) : ∃ name, op = .label name := by
  obtain ⟨os, -, -, hsome⟩ := ofOperands_of_operation h
  rw [hop] at hsome
  obtain ⟨name, -, rfl⟩ := onLabel_eq_some hsome
  exact ⟨name, rfl⟩

theorem jump_of_operation (hop : i.opcode = .jump) : ∃ name, op = .jump name := by
  obtain ⟨os, -, -, hsome⟩ := ofOperands_of_operation h
  rw [hop] at hsome
  obtain ⟨name, -, rfl⟩ := onLabel_eq_some hsome
  exact ⟨name, rfl⟩

theorem jumpIf_of_operation (hop : i.opcode = .jumpifeq ∨ i.opcode = .jumpifneq) :
    ∃ wanted name a b, op = .jumpIf wanted name a b := by
  obtain ⟨os, -, -, hsome⟩ := ofOperands_of_operation h
  rcases hop with hop | hop
  · rw [hop] at hsome
    obtain ⟨name, -, a, b, -, rfl⟩ := onLabelSymbols_eq_some hsome
    exact ⟨true, name, a, b, rfl⟩
  · rw [hop] at hsome
    obtain ⟨name, -, a, b, -, rfl⟩ := onLabelSymbols_eq_some hsome
    exact ⟨false, name, a, b, rfl⟩

theorem push_of_operation (hop : i.opcode = .pushs) : ∃ a, op = .push a := by
  obtain ⟨os, hfits, -, hsome⟩ := ofOperands_of_operation h
  rw [hop] at hsome hfits
  obtain ⟨a, ha⟩ := onSymbol_of_fits hfits
  exact ⟨a, Option.some.inj (hsome.symm.trans ha)⟩

theorem read_of_operation (hop : i.opcode = .read) : ∃ x t, op = .read x t := by
  obtain ⟨os, hfits, -, hsome⟩ := ofOperands_of_operation h
  rw [hop] at hsome hfits
  obtain ⟨x, t, ht, -⟩ := onVariableType_of_fits hfits
  exact ⟨x, t, Option.some.inj (hsome.symm.trans ht)⟩

theorem return_of_operation (hop : i.opcode = .return) : op = .return :=
  nullary_of_operation h (by rw [hop]; rfl) (by rw [hop]; rfl)

theorem pop_of_operation (hop : i.opcode = .pops) : ∃ x, op = .pop x := by
  obtain ⟨os, hfits, -, hsome⟩ := ofOperands_of_operation h
  rw [hop] at hsome hfits
  obtain ⟨x, hx⟩ := onVariable_of_fits hfits
  exact ⟨x, Option.some.inj (hsome.symm.trans hx)⟩

theorem break_of_operation (hop : i.opcode = .break) : op = .break :=
  nullary_of_operation h (by rw [hop]; rfl) (by rw [hop]; rfl)

theorem pushFrame_of_operation (hop : i.opcode = .pushframe) : op = .pushFrame :=
  nullary_of_operation h (by rw [hop]; rfl) (by rw [hop]; rfl)

end

/-! ## Successful operations -/

/-- The ways in which an operation can decide on an effect. -/
inductive Operation.Yields (p : Program) (i : Instruction) (m : Machine) : Operation → Effect → Prop
  | move {x : Variable} {a : Symbol} {w : Option Value} {v : Value} {s : Frames} :
      m.frames.lookup x = .ok w → a.value m.frames = .ok v → m.frames.assign x v = .ok s →
      Yields p i m (.move x a) (.frames s)
  | typeOf {x : Variable} {a : Symbol} {w v : Option Value} {s : Frames} :
      m.frames.lookup x = .ok w → a.value? m.frames = .ok v → m.frames.assign x (typeName v) = .ok s →
      Yields p i m (.typeOf x a) (.frames s)
  | createFrame : Yields p i m .createFrame (.frames m.frames.create)
  | pushFrame {s : Frames} : m.frames.push = .ok s → Yields p i m .pushFrame (.frames s)
  | popFrame {s : Frames} : m.frames.pop = .ok s → Yields p i m .popFrame (.frames s)
  | declare {x : Variable} {s : Frames} : m.frames.declare x = .ok s → Yields p i m (.declare x) (.frames s)
  | call {name : String} {index : Nat} : m.labels.target name = .ok index →
      Yields p i m (.call name) (.call index)
  | return {index : Nat} {rest : List Nat} : m.calls = index :: rest →
      Yields p i m .return (.return index rest)
  | label {name : String} : Yields p i m (.label name) .none
  | jump {name : String} {index : Nat} : m.labels.target name = .ok index →
      Yields p i m (.jump name) (.jump index)
  | taken {wanted : Bool} {name : String} {a b : Symbol} {index : Nat} {v w : Value} :
      m.labels.target name = .ok index → a.value m.frames = .ok v → b.value m.frames = .ok w →
      testEqual i.opcode v w = .ok wanted → Yields p i m (.jumpIf wanted name a b) (.jump index)
  | untaken {wanted : Bool} {name : String} {a b : Symbol} {index : Nat} {v w : Value} :
      m.labels.target name = .ok index → a.value m.frames = .ok v → b.value m.frames = .ok w →
      testEqual i.opcode v w = .ok (!wanted) → Yields p i m (.jumpIf wanted name a b) .none
  | exit {a : Symbol} {v : Value} {status : Fin 10} : a.value m.frames = .ok v →
      exitStatus v = .ok status → Yields p i m (.exit a) (.exit status)
  | push {a : Symbol} {v : Value} : a.value m.frames = .ok v → Yields p i m (.push a) (.push v)
  | pop {x : Variable} {w : Option Value} {v : Value} {rest : List Value} {s : Frames} :
      m.frames.lookup x = .ok w → m.values = v :: rest → m.frames.assign x v = .ok s →
      Yields p i m (.pop x) (.pop rest s)
  | compute {op : Opcode} {x : Variable} {as : List Symbol} {w : Option Value} {vs : List Value} {v : Value}
      {s : Frames} : m.frames.lookup x = .ok w → Symbol.values m.frames as = .ok vs →
      evaluate op vs = .ok v → m.frames.assign x v = .ok s → Yields p i m (.compute op x as) (.frames s)
  | setChar {x : Variable} {a b : Symbol} {vs : List Value} {v : Value} {s : Frames} :
      Symbol.values m.frames [.var x, a, b] = .ok vs → evaluate .setchar vs = .ok v →
      m.frames.assign x v = .ok s → Yields p i m (.setChar x a b) (.frames s)
  | read {x : Variable} {t : DataType} {w : Option Value} {s : Frames} : m.frames.lookup x = .ok w →
      m.frames.assign x ((m.input.read t).1.getD .nil) = .ok s →
      Yields p i m (.read x t) (.read (m.input.read t).2 s)
  | write {a : Symbol} {v : Value} : a.value m.frames = .ok v →
      Yields p i m (.write a) (.write ⟨.out, v.render⟩)
  | debugWrite {a : Symbol} {v : Value} : a.value m.frames = .ok v →
      Yields p i m (.debugWrite a) (.write ⟨.err, v.render⟩)
  | break : Yields p i m .break (.write ⟨.err, m.report p i.order⟩)

theorem ok_of_bind {α β : Type} {x : Except Fault α} {f : α → Except Fault β} {b : β}
    (h : (x >>= f) = .ok b) : ∃ a, x = .ok a ∧ f a = .ok b := by
  cases x with
  | error e => cases h
  | ok a => exact ⟨a, rfl, h⟩

theorem ok_of_map {α β : Type} {x : Except Fault α} {f : α → β} {b : β} (h : x.map f = .ok b) :
    ∃ a, x = .ok a ∧ f a = b := by
  cases x with
  | error e => cases h
  | ok a => exact ⟨a, rfl, Except.ok.inj h⟩

theorem yields_of_effect {p : Program} {i : Instruction} {m : Machine} {op : Operation} {e : Effect}
    (h : op.effect p i m = .ok e) : op.Yields p i m e := by
  cases op with
  | move x a =>
    obtain ⟨w, hw, h⟩ := ok_of_bind h
    obtain ⟨v, hv, h⟩ := ok_of_bind h
    obtain ⟨s, hs, ⟨⟩⟩ := ok_of_bind h
    exact .move hw hv hs
  | typeOf x a =>
    obtain ⟨w, hw, h⟩ := ok_of_bind h
    obtain ⟨v, hv, h⟩ := ok_of_bind h
    obtain ⟨s, hs, ⟨⟩⟩ := ok_of_bind h
    exact .typeOf hw hv hs
  | createFrame =>
    cases h
    exact .createFrame
  | pushFrame =>
    obtain ⟨s, hs, ⟨⟩⟩ := ok_of_bind h
    exact .pushFrame hs
  | popFrame =>
    obtain ⟨s, hs, ⟨⟩⟩ := ok_of_bind h
    exact .popFrame hs
  | declare x =>
    obtain ⟨s, hs, ⟨⟩⟩ := ok_of_bind h
    exact .declare hs
  | call name =>
    obtain ⟨index, hindex, ⟨⟩⟩ := ok_of_bind h
    exact .call hindex
  | «return» =>
    simp only [Operation.effect] at h
    split at h
    · cases h
    · rename_i index rest hcalls
      cases h
      exact .return hcalls
  | label name =>
    cases h
    exact .label
  | jump name =>
    obtain ⟨index, hindex, ⟨⟩⟩ := ok_of_bind h
    exact .jump hindex
  | jumpIf wanted name a b =>
    obtain ⟨index, hindex, h⟩ := ok_of_bind h
    obtain ⟨v, hv, h⟩ := ok_of_bind h
    obtain ⟨w, hw, h⟩ := ok_of_bind h
    obtain ⟨equal, hequal, h⟩ := ok_of_bind h
    by_cases heq : equal = wanted
    · subst heq
      simp only [ite_true] at h
      cases h
      exact .taken hindex hv hw hequal
    · simp only [heq, ite_false] at h
      cases h
      have hnot : equal = !wanted := by cases equal <;> cases wanted <;> simp_all
      exact .untaken hindex hv hw (hnot ▸ hequal)
  | exit a =>
    obtain ⟨v, hv, h⟩ := ok_of_bind h
    obtain ⟨status, hstatus, ⟨⟩⟩ := ok_of_bind h
    exact .exit hv hstatus
  | push a =>
    obtain ⟨v, hv, ⟨⟩⟩ := ok_of_bind h
    exact .push hv
  | pop x =>
    obtain ⟨w, hw, h⟩ := ok_of_bind h
    split at h
    · cases h
    · rename_i v rest hvalues
      obtain ⟨s, hs, ⟨⟩⟩ := ok_of_bind h
      exact .pop hw hvalues hs
  | compute op x as =>
    obtain ⟨w, hw, h⟩ := ok_of_bind h
    obtain ⟨vs, hvs, h⟩ := ok_of_bind h
    obtain ⟨v, hv, h⟩ := ok_of_bind h
    obtain ⟨s, hs, ⟨⟩⟩ := ok_of_bind h
    exact .compute hw hvs hv hs
  | setChar x a b =>
    obtain ⟨vs, hvs, h⟩ := ok_of_bind h
    obtain ⟨v, hv, h⟩ := ok_of_bind h
    obtain ⟨s, hs, ⟨⟩⟩ := ok_of_bind h
    exact .setChar hvs hv hs
  | read x t =>
    obtain ⟨w, hw, h⟩ := ok_of_bind h
    obtain ⟨s, hs, ⟨⟩⟩ := ok_of_bind h
    exact .read hw hs
  | write a =>
    obtain ⟨v, hv, ⟨⟩⟩ := ok_of_bind h
    exact .write hv
  | debugWrite a =>
    obtain ⟨v, hv, ⟨⟩⟩ := ok_of_bind h
    exact .debugWrite hv
  | «break» =>
    cases h
    exact .break

theorem yields_of_instruction {p : Program} {i : Instruction} {m : Machine} {e : Effect}
    (h : i.effect p m = .ok e) :
    i.opcode = .label ∧ e = .none ∨
      ∃ op, i.operation = .ok op ∧ op.opcode = i.opcode ∧ op.Yields p i m e := by
  unfold Instruction.effect at h
  by_cases hlabel : i.opcode = .label
  · rw [if_pos hlabel] at h
    cases h
    exact Or.inl ⟨hlabel, rfl⟩
  · rw [if_neg hlabel] at h
    obtain ⟨op, hop, h⟩ := ok_of_bind h
    exact Or.inr ⟨op, hop, opcode_of_operation hop, yields_of_effect h⟩

namespace Machine

/-- The machines have the same frames and the same two stacks. -/
structure Undisturbed (m next : Machine) : Prop where
  frames : next.frames = m.frames
  calls : next.calls = m.calls
  values : next.values = m.values

theorem step_performs (p : Program) (m : Machine) :
    m.Undisturbed (m.step p).1 ∨
      ∃ i op e, p.get? m.pc = some i ∧ i.operation = .ok op ∧ op.opcode = i.opcode ∧
        op.Yields p i (m.advance i) e ∧ m.step p = (e.apply (m.advance i), none) := by
  have hstep := step_cases p m
  generalize hresult : m.step p = result at hstep
  obtain ⟨next, o⟩ := result
  cases hstep with
  | complete => exact Or.inl ⟨rfl, rfl, rfl⟩
  | fault => exact Or.inl ⟨rfl, rfl, rfl⟩
  | refused => exact Or.inl ⟨rfl, rfl, rfl⟩
  | exit => exact Or.inl ⟨rfl, rfl, rfl⟩
  | @next i e hi he =>
    rcases yields_of_instruction he with ⟨-, rfl⟩ | ⟨op, hoperation, hop, hyields⟩
    · exact Or.inl ⟨rfl, rfl, rfl⟩
    · exact Or.inr ⟨i, op, e, hi, hoperation, hop, hyields, rfl⟩

theorem step_yields {p : Program} {m : Machine} {i : Instruction} (hi : p.get? m.pc = some i)
    (hlabel : i.opcode ≠ .label) (h : (m.step p).2 = none) :
    ∃ op e, i.operation = .ok op ∧ op.Yields p i (m.advance i) e ∧
      (m.step p).1 = e.apply (m.advance i) := by
  have hstep := step_cases p m
  rw [h] at hstep
  generalize (m.step p).1 = next at hstep
  cases hstep with
  | @next j e hj he _ _ =>
    obtain rfl := Option.some.inj (hi.symm.trans hj)
    rcases yields_of_instruction he with ⟨hlabel', -⟩ | ⟨op, hoperation, -, hyields⟩
    · exact absurd hlabel' hlabel
    · exact ⟨op, e, hoperation, hyields, rfl⟩

end Machine

end FrameMachine
