import FrameMachine.Proofs.Branches

/-!
# Moving a value through the value stack

`MOVE` needs a target that can be assigned and a source that has a value. `PUSHS` needs the one and `POPS` the
other, and pushing changes no frame, so that the two together succeed in the same states and leave the same machine
(`move_through_stack`), though they look at the source before the target.
-/

namespace FrameMachine

/-! ## Instructions and their arguments -/

theorem operation_of_operands {i : Instruction} {os : List Operand} {op : Operation}
    (hfits : List.Forall₂ (fun a shape => a.kind.fits shape = true) i.arguments i.opcode.shapes)
    (hos : Instruction.readOperands i.arguments = .ok os) (hop : Operation.ofOperands? i.opcode os = some op)
    (hread : ∀ x t, op ≠ .read x t) : i.operation = .ok op := by
  unfold Instruction.operation
  rw [checkShapes_ok_iff.mpr hfits, hos]
  simp only [bind, Except.bind, hop]
  rfl

section
variable {order : Int} {d a : Argument} {op : Operation}

theorem symbol_eq_ok_iff {s : Symbol} : a.symbol = .ok s ↔ ∃ o, a.operand = .ok o ∧ o.symbol? = some s := by
  unfold Argument.symbol
  cases a.operand with
  | error e => simp
  | ok o => cases h : o.symbol? <;> simp [h]

theorem fits_of_symbol {s : Symbol} (h : a.symbol = .ok s) : a.kind.fits .symb = true := by
  obtain ⟨o, ho, hs⟩ := symbol_eq_ok_iff.mp h
  have hreads := reads_operand a
  rw [ho] at hreads
  cases hreads with
  | var hkind | literal hkind => rw [hkind]; rfl
  | label | type => cases hs

theorem operation_move_iff :
    (Instruction.mk order .move [d, a]).operation = .ok op ↔
      ∃ x s, d.operand = .ok (.var x) ∧ a.symbol = .ok s ∧ op = .move x s := by
  constructor
  · intro h
    obtain ⟨os, hfits, hall, hsome⟩ := ofOperands_of_operation h
    rcases hall with _ | ⟨hd, _ | ⟨ha, ⟨⟩⟩⟩
    rcases hfits with _ | ⟨hvar, _ | ⟨hsymb, ⟨⟩⟩⟩
    obtain ⟨x, rfl⟩ := var_of_fits hvar
    obtain ⟨s, hs⟩ := symbol_of_fits hsymb
    refine ⟨x, s, hd, symbol_eq_ok_iff.mpr ⟨_, ha, hs⟩, ?_⟩
    simpa [Operation.ofOperands?, Operation.onVariableSymbol, hs, eq_comm] using hsome
  · rintro ⟨x, s, hd, ha, rfl⟩
    obtain ⟨o, ho, hs⟩ := symbol_eq_ok_iff.mp ha
    have hos : Instruction.readOperands [d, a] = .ok [.var x, o] := by
      simp [Instruction.readOperands, hd, ho, Except.map]
    refine operation_of_operands (.cons (fits_of_variable hd) (.cons (fits_of_symbol ha) .nil)) hos ?_ (by simp)
    simp [Operation.ofOperands?, Operation.onVariableSymbol, hs]

theorem operation_push_iff :
    (Instruction.mk order .pushs [a]).operation = .ok op ↔ ∃ s, a.symbol = .ok s ∧ op = .push s := by
  constructor
  · intro h
    obtain ⟨os, hfits, hall, hsome⟩ := ofOperands_of_operation h
    rcases hall with _ | ⟨ha, ⟨⟩⟩
    rcases hfits with _ | ⟨hsymb, ⟨⟩⟩
    obtain ⟨s, hs⟩ := symbol_of_fits hsymb
    refine ⟨s, symbol_eq_ok_iff.mpr ⟨_, ha, hs⟩, ?_⟩
    simpa [Operation.ofOperands?, Operation.onSymbol, hs, eq_comm] using hsome
  · rintro ⟨s, ha, rfl⟩
    obtain ⟨o, ho, hs⟩ := symbol_eq_ok_iff.mp ha
    have hos : Instruction.readOperands [a] = .ok [o] := by
      simp [Instruction.readOperands, ho, Except.map]
    refine operation_of_operands (.cons (fits_of_symbol ha) .nil) hos ?_ (by simp)
    simp [Operation.ofOperands?, Operation.onSymbol, hs]

theorem operation_pop_iff :
    (Instruction.mk order .pops [d]).operation = .ok op ↔ ∃ x, d.operand = .ok (.var x) ∧ op = .pop x := by
  constructor
  · intro h
    obtain ⟨os, hfits, hall, hsome⟩ := ofOperands_of_operation h
    rcases hall with _ | ⟨hd, ⟨⟩⟩
    rcases hfits with _ | ⟨hvar, ⟨⟩⟩
    obtain ⟨x, rfl⟩ := var_of_fits hvar
    exact ⟨x, hd, (Option.some.inj hsome).symm⟩
  · rintro ⟨x, hd, rfl⟩
    have hos : Instruction.readOperands [d] = .ok [.var x] := by
      simp [Instruction.readOperands, hd, Except.map]
    exact operation_of_operands (.cons (fits_of_variable hd) .nil) hos rfl (by simp)

end

/-! ## When the three succeed -/

/-- The argument names a variable that can be assigned. -/
def Argument.Assignable (s : Frames) (d : Argument) (x : Variable) : Prop :=
  d.operand = .ok (.var x) ∧ ∃ w, s.lookup x = .ok w

/-- The argument is a symbol with this value. -/
def Argument.HasValue (s : Frames) (a : Argument) (v : Value) : Prop :=
  ∃ y, a.symbol = .ok y ∧ y.value s = .ok v

namespace Machine

section
variable {p : Program} {m : Machine} {order : Int} {d a : Argument} {x : Variable} {v : Value}

theorem step_of_operation {i : Instruction} {op : Operation} (hi : p.get? m.pc = some i)
    (hlabel : i.opcode ≠ .label) (hop : i.operation = .ok op) :
    m.step p = m.settle i (op.effect p i (m.advance i)) := by
  rw [step_of_get hi, Instruction.effect, if_neg hlabel, hop]
  rfl

theorem step_move (hi : p.get? m.pc = some ⟨order, .move, [d, a]⟩) (hd : d.Assignable m.frames x)
    (ha : a.HasValue m.frames v) :
    ∃ s, m.frames.assign x v = .ok s ∧ m.step p = ({ m.passed with frames := s }, none) := by
  obtain ⟨hx, w, hw⟩ := hd
  obtain ⟨y, hy, hv⟩ := ha
  obtain ⟨s, hs⟩ := Frames.assign_of_lookup hw v
  refine ⟨s, hs, ?_⟩
  rw [step_of_operation hi (by simp) (operation_move_iff.mpr ⟨x, y, hx, hy, rfl⟩)]
  simp only [Operation.effect, advance, hw, hv, hs, bind, Except.bind]
  rfl

theorem step_push (hi : p.get? m.pc = some ⟨order, .pushs, [a]⟩) (ha : a.HasValue m.frames v) :
    m.step p = ({ m.passed with values := v :: m.values }, none) := by
  obtain ⟨y, hy, hv⟩ := ha
  rw [step_of_operation hi (by simp) (operation_push_iff.mpr ⟨y, hy, rfl⟩)]
  simp only [Operation.effect, advance, hv, bind, Except.bind]
  rfl

theorem step_pop (hi : p.get? m.pc = some ⟨order, .pops, [d]⟩) (hd : d.Assignable m.frames x)
    {rest : List Value} (hvalues : m.values = v :: rest) {s : Frames} (hs : m.frames.assign x v = .ok s) :
    m.step p = ({ m.passed with values := rest, frames := s }, none) := by
  obtain ⟨hx, w, hw⟩ := hd
  rw [step_of_operation hi (by simp) (operation_pop_iff.mpr ⟨x, hx, rfl⟩)]
  simp only [Operation.effect, advance, hw, hvalues, hs, bind, Except.bind]
  rfl

theorem of_step_move (hi : p.get? m.pc = some ⟨order, .move, [d, a]⟩) (h : (m.step p).2 = none) :
    (∃ x, d.Assignable m.frames x) ∧ ∃ v, a.HasValue m.frames v := by
  obtain ⟨op, e, hop, hyields, -⟩ := step_yields hi (by simp) h
  obtain ⟨x, y, hx, hy, rfl⟩ := operation_move_iff.mp hop
  cases hyields with
  | move hw hv => exact ⟨⟨x, hx, _, hw⟩, _, y, hy, hv⟩

theorem of_step_push (hi : p.get? m.pc = some ⟨order, .pushs, [a]⟩) (h : (m.step p).2 = none) :
    ∃ v, a.HasValue m.frames v := by
  obtain ⟨op, e, hop, hyields, -⟩ := step_yields hi (by simp) h
  obtain ⟨y, hy, rfl⟩ := operation_push_iff.mp hop
  cases hyields with
  | push hv => exact ⟨_, y, hy, hv⟩

theorem of_step_pop (hi : p.get? m.pc = some ⟨order, .pops, [d]⟩) (h : (m.step p).2 = none) :
    ∃ x, d.Assignable m.frames x := by
  obtain ⟨op, e, hop, hyields, -⟩ := step_yields hi (by simp) h
  obtain ⟨x, hx, rfl⟩ := operation_pop_iff.mp hop
  cases hyields with
  | pop hw => exact ⟨x, hx, _, hw⟩

theorem failsWith_of_step {i : Instruction} (hi : p.get? m.pc = some i) (hexit : i.opcode ≠ .exit)
    (h : (m.step p).2 ≠ none) : (∃ f, m.FailsWith p f) ∧ m.Undisturbed (m.step p).1 := by
  have hstep := step_cases p m
  unfold FailsWith
  generalize (m.step p).1 = next, (m.step p).2 = o at hstep h ⊢
  cases hstep with
  | complete hnone => cases hi.symm.trans hnone
  | fault => exact ⟨⟨_, rfl⟩, rfl, rfl, rfl⟩
  | refused => exact ⟨⟨_, rfl⟩, rfl, rfl, rfl⟩
  | exit hj he =>
    obtain rfl := Option.some.inj (hi.symm.trans hj)
    rcases yields_of_instruction he with ⟨-, hnone⟩ | ⟨op, -, hop, hyields⟩
    · cases hnone
    · cases hyields
      exact absurd hop.symm hexit
  | next => exact absurd rfl h

end

/-- A `PUSHS` and a `POPS` leave what a `MOVE` leaves, but for the count of instructions. If the `MOVE` fails,
one of them fails and no frame changes. -/
theorem move_through_stack (m : Machine) (p q : Program) (d a : Argument) (o₁ o₂ o₃ : Int)
    (hmove : p.get? m.pc = some ⟨o₁, .move, [d, a]⟩)
    (hpush : q.get? m.pc = some ⟨o₂, .pushs, [{ a with position := 0 }]⟩)
    (hpop : q.get? (m.pc + 1) = some ⟨o₃, .pops, [d]⟩) :
    ((m.step p).2 = none → (m.step q).2 = none ∧ (m.step q).1.step q = ((m.step p).1.passed, none)) ∧
      ((m.step p).2 ≠ none →
        (∃ f, m.FailsWith q f) ∧ (m.step q).1.frames = m.frames ∨
        (m.step q).2 = none ∧ (∃ f, (m.step q).1.FailsWith q f) ∧ ((m.step q).1.step q).1.frames = m.frames) := by
  constructor
  · intro h
    obtain ⟨⟨x, hd⟩, v, ha⟩ := of_step_move hmove h
    obtain ⟨s, hs, hmoved⟩ := step_move hmove hd ha
    have hpushed : m.step q = ({ m.passed with values := v :: m.values }, none) := step_push hpush ha
    have hpopped := step_pop (m := { m.passed with values := v :: m.values }) hpop hd rfl hs
    rw [hpushed, hmoved]
    exact ⟨rfl, hpopped⟩
  · intro h
    by_cases hfirst : (m.step q).2 = none
    · obtain ⟨v, ha⟩ := of_step_push hpush hfirst
      have hpushed : m.step q = ({ m.passed with values := v :: m.values }, none) := step_push hpush ha
      have hframes : (m.step q).1.frames = m.frames := by rw [hpushed]; rfl
      have hnext : q.get? (m.step q).1.pc = some ⟨o₃, .pops, [d]⟩ := by rw [hpushed]; exact hpop
      have hsecond : ((m.step q).1.step q).2 ≠ none := by
        intro hnone
        obtain ⟨x, hd⟩ := of_step_pop hnext hnone
        rw [hframes] at hd
        obtain ⟨s, -, hmoved⟩ := step_move hmove hd ha
        exact h (by rw [hmoved])
      obtain ⟨hfails, hsame⟩ := failsWith_of_step hnext (by simp) hsecond
      exact Or.inr ⟨hfirst, hfails, hsame.frames.trans hframes⟩
    · obtain ⟨hfails, hsame⟩ := failsWith_of_step hpush (by simp) hfirst
      exact Or.inl ⟨hfails, hsame.frames⟩

/-- Moves a global variable, seen through a local frame, to the target. -/
def movedTo (target : String) : Program where
  instructions := [
    ⟨1, .defvar, [⟨0, .var, "GF@x"⟩]⟩,
    ⟨2, .defvar, [⟨0, .var, "GF@y"⟩]⟩,
    ⟨3, .move, [⟨0, .var, "GF@x"⟩, ⟨1, .literal .int, "7"⟩]⟩,
    ⟨4, .createframe, []⟩,
    ⟨5, .pushframe, []⟩,
    ⟨6, .move, [⟨0, .var, target⟩, ⟨1, .var, "LF@x"⟩]⟩]
  ordered := by simp
  positive := by simp
  placed := by simp [List.range_succ]

def stackedTo (target : String) : Program where
  instructions := (movedTo target).instructions.take 5 ++ [
    ⟨6, .pushs, [⟨0, .var, "LF@x"⟩]⟩,
    ⟨7, .pops, [⟨0, .var, target⟩]⟩]
  ordered := by simp [movedTo]
  positive := by simp [movedTo]
  placed := by simp [movedTo, List.range_succ]

/-- The local frame declares neither name, so both stand for global variables. Without a temporary frame, a
value for it is pushed but not popped. -/
theorem seven_through_stack :
    let m := (start Input.empty Device.reliable).after (movedTo "LF@y") 5
    ((m.step (movedTo "LF@y")).2 = none ∧
        (m.step (stackedTo "LF@y")).1.step (stackedTo "LF@y") = ((m.step (movedTo "LF@y")).1.passed, none)) ∧
      (m.step (movedTo "TF@y")).2 ≠ none ∧ (m.step (stackedTo "TF@y")).2 = none ∧
        (∃ f, (m.step (stackedTo "TF@y")).1.FailsWith (stackedTo "TF@y") f) ∧
        ((m.step (stackedTo "TF@y")).1.step (stackedTo "TF@y")).1.frames = m.frames := by
  intro m
  have hlocal := move_through_stack m (movedTo "LF@y") (stackedTo "LF@y") ⟨0, .var, "LF@y"⟩ ⟨1, .var, "LF@x"⟩ 6 6 7
    (by rfl) (by rfl) (by rfl)
  have htemporary := move_through_stack m (movedTo "TF@y") (stackedTo "TF@y") ⟨0, .var, "TF@y"⟩
    ⟨1, .var, "LF@x"⟩ 6 6 7 (by rfl) (by rfl) (by rfl)
  have hmoves : (m.step (movedTo "LF@y")).2 = none := by decide +kernel
  have hfails : (m.step (movedTo "TF@y")).2 ≠ none := by decide +kernel
  have hpushes : (m.step (stackedTo "TF@y")).2 = none := by decide +kernel
  refine ⟨⟨hmoves, (hlocal.1 hmoves).2⟩, hfails, ?_⟩
  rcases htemporary.2 hfails with ⟨⟨f, hf⟩, -⟩ | hpops
  · cases hpushes.symm.trans hf
  · exact hpops

end Machine

end FrameMachine
