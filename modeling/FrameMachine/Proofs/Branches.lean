import FrameMachine.Proofs.Comparison
import FrameMachine.Proofs.Precedence

/-!
# Branches on equality

`JUMPIFEQ` and `JUMPIFNEQ` read their two symbols as `EQ` does and compare them with the same test. All three are
described by one function of the frames and the two arguments, `compared`, which depends on the opcode only in the
faults that name it (`compared_naming`). So the two branches fail exactly when `EQ` fails, and otherwise its result
decides which of them jumps.
-/

namespace FrameMachine

/-- The fault with another opcode in the place of the one that it names. -/
def Fault.naming (op : Opcode) : Fault → Fault
  | wrongArity _ found => .wrongArity op found
  | wrongOperand _ position expected found => .wrongOperand op position expected found
  | typeMismatch _ found => .typeMismatch op found
  | f => f

theorem Fault.naming_of_access {f : Fault} (h : f.stage = .access) (op : Opcode) : f.naming op = f := by
  cases f with
  | wrongArity | wrongOperand | typeMismatch => cases h
  | _ => rfl

/-! ## The two symbols -/

def Argument.symbol (a : Argument) : Except Fault Symbol :=
  match a.operand with
  | .error d => .error (Instruction.faultOfDefect d)
  | .ok o => match o.symbol? with
    | some s => .ok s
    | none => .error (.internal "operand is not a symbol")

def symbolPair (op : Opcode) (a b : Argument) : Except Fault (Symbol × Symbol) :=
  match Instruction.misfit? op 1 [a, b] [.symb, .symb] with
  | some f => .error f
  | none => do
    let s ← a.symbol
    let t ← b.symbol
    return (s, t)

/-- Whether the values of two arguments are equal, as an opcode tests it. -/
def compared (op : Opcode) (s : Frames) (a b : Argument) : Except Fault Bool := do
  let (x, y) ← symbolPair op a b
  let v ← x.value s
  let w ← y.value s
  testEqual op v w

/-- What `EQ` gives for two arguments. -/
def equality (s : Frames) (a b : Argument) : Except Fault Value := do
  let (x, y) ← symbolPair .eq a b
  let v ← x.value s
  let w ← y.value s
  evaluate .eq [v, w]

section
variable {a b : Argument}

theorem symbol_naming {f : Fault} (h : a.symbol = .error f) (op : Opcode) : f.naming op = f := by
  unfold Argument.symbol at h
  split at h
  · rename_i d _
    obtain rfl := Except.error.inj h
    cases d <;> rfl
  · split at h
    · cases h
    · obtain rfl := Except.error.inj h
      rfl

theorem misfit_naming (op op' : Opcode) (p : Nat) (as : List Argument) (shapes : List Shape) :
    Instruction.misfit? op p as shapes = (Instruction.misfit? op' p as shapes).map (Fault.naming op) := by
  induction as generalizing p shapes with
  | nil => rfl
  | cons a as ih =>
    cases shapes with
    | nil => rfl
    | cons shape shapes =>
      simp only [Instruction.misfit?]
      split
      · exact ih (p + 1) shapes
      · rfl

theorem symbolPair_naming (op op' : Opcode) (a b : Argument) :
    symbolPair op a b = (symbolPair op' a b).mapError (Fault.naming op) := by
  unfold symbolPair
  rw [misfit_naming op op']
  cases Instruction.misfit? op' 1 [a, b] [.symb, .symb] with
  | some f => rfl
  | none =>
    cases ha : a.symbol with
    | error f => exact congrArg Except.error (symbol_naming ha op).symm
    | ok s =>
      cases hb : b.symbol with
      | error f => exact congrArg Except.error (symbol_naming hb op).symm
      | ok t => rfl

theorem testEqual_naming (op op' : Opcode) (v w : Value) :
    testEqual op v w = (testEqual op' v w).mapError (Fault.naming op) := by
  unfold testEqual
  cases v.equal? w <;> rfl

theorem value_naming {s : Frames} {x : Symbol} {f : Fault} (h : x.value s = .error f) (op : Opcode) :
    f.naming op = f :=
  Fault.naming_of_access (Symbol.denies_of_value h).stage op

theorem compared_naming (op op' : Opcode) (s : Frames) (a b : Argument) :
    compared op s a b = (compared op' s a b).mapError (Fault.naming op) := by
  unfold compared
  rw [symbolPair_naming op op']
  cases symbolPair op' a b with
  | error f => rfl
  | ok pair =>
    obtain ⟨x, y⟩ := pair
    simp only [Except.mapError, bind, Except.bind]
    cases hv : x.value s with
    | error f => exact congrArg Except.error (value_naming hv op).symm
    | ok v =>
      cases hw : y.value s with
      | error f => exact congrArg Except.error (value_naming hw op).symm
      | ok w => exact testEqual_naming op op' v w

/-! ## Instructions with two symbols -/

theorem symbol_of_operand {o : Operand} (hfits : a.kind.fits .symb = true) (h : a.operand = .ok o) :
    ∃ s, o.symbol? = some s ∧ a.symbol = .ok s := by
  obtain ⟨s, hs⟩ := symbol_of_fits (operand_fits hfits h)
  exact ⟨s, hs, by simp only [Argument.symbol, h, hs]⟩

variable {op : Opcode} {d : Argument} {shape : Shape} {first : Operand} {g : Symbol → Symbol → Operation}

theorem operation_of_pair (order : Int) (hshapes : op.shapes = [shape, .symb, .symb])
    (hfits : d.kind.fits shape = true) (hd : d.operand = .ok first)
    (hg : ∀ {o o' : Operand} {s t : Symbol}, o.symbol? = some s → o'.symbol? = some t →
      Operation.ofOperands? op [first, o, o'] = some (g s t))
    (hread : ∀ s t x y, g s t ≠ .read x y) :
    (Instruction.mk order op [d, a, b]).operation = (symbolPair op a b).map fun pair => g pair.1 pair.2 := by
  have harity : op.arity = 3 := by simp [Opcode.arity, hshapes]
  have hmisfit : Instruction.misfit? op 0 [d, a, b] [shape, .symb, .symb] =
      Instruction.misfit? op 1 [a, b] [.symb, .symb] := if_pos hfits
  unfold Instruction.operation symbolPair
  -- The first argument is good, so what can go wrong is what `symbolPair` checks, and in the same order.
  cases hnone : Instruction.misfit? op 1 [a, b] [.symb, .symb] with
  | some f =>
    have hcheck : (Instruction.mk order op [d, a, b]).checkShapes = .error f := by
      simp [Instruction.checkShapes, harity, hshapes, hmisfit, hnone]
    rw [hcheck]
    rfl
  | none =>
    have hcheck : (Instruction.mk order op [d, a, b]).checkShapes = .ok () := by
      simp [Instruction.checkShapes, harity, hshapes, hmisfit, hnone]
    rw [hcheck]
    obtain ⟨hfa, hfb, -⟩ := (by simpa using (misfit_eq_none_iff rfl).mp hnone :
      a.kind.fits .symb = true ∧ b.kind.fits .symb = true ∧ True)
    cases ha : a.operand with
    | error e => simp [Instruction.readOperands, Argument.symbol, hd, ha, bind, Except.bind, Except.map]
    | ok o =>
      obtain ⟨s, hs, hsa⟩ := symbol_of_operand hfa ha
      cases hb : b.operand with
      | error e => simp [Instruction.readOperands, Argument.symbol, hd, ha, hb, hs, bind, Except.bind, Except.map]
      | ok o' =>
        obtain ⟨t, ht, htb⟩ := symbol_of_operand hfb hb
        simp only [Instruction.readOperands, hd, ha, hb, hsa, htb, bind, Except.bind, Except.map, hg hs ht, pure,
          Except.pure]
        split
        · rename_i x y hx
          exact absurd (Option.some.inj hx) (hread s t x y)
        · rename_i r _ hr
          obtain rfl := Option.some.inj hr
          rfl
        · rename_i hx
          cases hx

end

/-! ## The three instructions -/

section
variable {p : Program} {m : Machine} {l d a b : Argument} {name : String} {index : Nat} {x : Variable}

theorem fits_of_label (h : l.operand = .ok (.label name)) : l.kind.fits .label = true := by
  have hreads := reads_operand l
  rw [h] at hreads
  cases hreads with
  | label hkind => rw [hkind]; rfl

theorem fits_of_variable (h : d.operand = .ok (.var x)) : d.kind.fits .var = true := by
  have hreads := reads_operand d
  rw [h] at hreads
  cases hreads with
  | var hkind => rw [hkind]; rfl

theorem onLabelSymbols_of_symbols {f : String → Symbol → Symbol → Operation} {o o' : Operand} {s t : Symbol}
    (hs : o.symbol? = some s) (ht : o'.symbol? = some t) :
    Operation.onLabelSymbols f [.label name, o, o'] = some (f name s t) := by
  simp [Operation.onLabelSymbols, hs, ht]

theorem onVariableSymbols_of_symbols {f : Variable → Symbol → Symbol → Operation} {o o' : Operand} {s t : Symbol}
    (hs : o.symbol? = some s) (ht : o'.symbol? = some t) :
    Operation.onVariableSymbols f [.var x, o, o'] = some (f x s t) := by
  simp [Operation.onVariableSymbols, hs, ht]

def branchOpcode (wanted : Bool) : Opcode := if wanted then .jumpifeq else .jumpifneq

theorem effect_branch (wanted : Bool) (order : Int) (hl : l.operand = .ok (.label name))
    (hindex : m.labels.find? name = some index) :
    (Instruction.mk order (branchOpcode wanted) [l, a, b]).effect p m =
      (compared (branchOpcode wanted) m.frames a b).map fun e => if e = wanted then .jump index else .none := by
  have hoperation : (Instruction.mk order (branchOpcode wanted) [l, a, b]).operation =
      (symbolPair (branchOpcode wanted) a b).map fun pair => .jumpIf wanted name pair.1 pair.2 := by
    cases wanted <;>
      exact operation_of_pair order rfl (fits_of_label hl) hl onLabelSymbols_of_symbols (by simp)
  have htarget : m.labels.target name = .ok index := by rw [Labels.target, hindex]
  have hlabel : branchOpcode wanted ≠ .label := by cases wanted <;> decide
  unfold Instruction.effect compared
  rw [if_neg hlabel, hoperation]
  cases symbolPair (branchOpcode wanted) a b with
  | error f => rfl
  | ok pair =>
    simp only [Except.map, bind, Except.bind, Operation.effect, htarget]
    cases pair.1.value m.frames with
    | error f => rfl
    | ok v =>
      cases pair.2.value m.frames with
      | error f => rfl
      | ok w => cases testEqual (branchOpcode wanted) v w <;> rfl

theorem effect_equality (order : Int) (hd : d.operand = .ok (.var x)) {old : Option Value}
    (hx : m.frames.lookup x = .ok old) :
    (Instruction.mk order .eq [d, a, b]).effect p m =
      equality m.frames a b >>= fun v => (m.frames.assign x v).map .frames := by
  have hoperation : (Instruction.mk order .eq [d, a, b]).operation =
      (symbolPair .eq a b).map fun pair => .compute .eq x [pair.1, pair.2] :=
    operation_of_pair (g := fun s t => .compute .eq x [s, t]) order rfl (fits_of_variable hd) hd
      (onVariableSymbols_of_symbols (f := fun x s t => .compute .eq x [s, t])) (by simp)
  unfold Instruction.effect equality
  rw [if_neg nofun, hoperation]
  cases symbolPair .eq a b with
  | error f => rfl
  | ok pair =>
    simp only [Except.map, bind, Except.bind, Operation.effect, hx, Symbol.values]
    cases pair.1.value m.frames with
    | error f => rfl
    | ok v =>
      cases pair.2.value m.frames with
      | error f => rfl
      | ok w => rfl

end

theorem evaluate_eq_testEqual (v w : Value) : evaluate .eq [v, w] = (testEqual .eq v w).map .bool := by
  simp only [evaluate, result?, comparison?, testEqual]
  cases v.equal? w <;> rfl

theorem equality_eq_compared (s : Frames) (a b : Argument) : equality s a b = (compared .eq s a b).map .bool := by
  unfold equality compared
  cases symbolPair .eq a b with
  | error f => rfl
  | ok pair =>
    simp only [bind, Except.bind, evaluate_eq_testEqual]
    cases pair.1.value s with
    | error f => rfl
    | ok v => cases pair.2.value s <;> rfl

namespace Machine

/-- The machine after an instruction that changes nothing but the counters. -/
def passed (m : Machine) : Machine :=
  { m with pc := m.pc + 1, current := some m.pc, last := m.current, executed := m.executed + 1 }

/-- The instruction stores a result in the variable, or fails with the fault that there is instead. -/
def Stores (m : Machine) (p : Program) (x : Variable) : Except Fault Value → Prop
  | .error f => m.FailsWith p f
  | .ok v => ∃ s, m.frames.assign x v = .ok s ∧ m.step p = ({ m.passed with frames := s }, none)

/-- The truth value decides which of two programs jumps to the index; both fail with a fault that there is
instead. -/
def BranchesOn (m : Machine) (p q : Program) (index : Nat) : Except Fault Value → Prop
  | .error f => m.FailsWith p (f.naming .jumpifeq) ∧ m.FailsWith q (f.naming .jumpifneq)
  | .ok v => ∃ equal, v = .bool equal ∧
      m.step p = ({ m.passed with pc := if equal then index else m.pc + 1 }, none) ∧
      m.step q = ({ m.passed with pc := if equal then m.pc + 1 else index }, none)

section
variable {p q : Program} {m : Machine} {l d a b : Argument} {name : String} {index : Nat} {x : Variable}

theorem stores_equality {order : Int} (hp : p.get? m.pc = some ⟨order, .eq, [d, a, b]⟩)
    (hd : d.operand = .ok (.var x)) {old : Option Value} (hx : m.frames.lookup x = .ok old) :
    m.Stores p x (equality m.frames a b) := by
  have hadvance : (m.advance ⟨order, .eq, [d, a, b]⟩).frames.lookup x = .ok old := hx
  have hstep : m.step p = m.settle ⟨order, .eq, [d, a, b]⟩
      (equality m.frames a b >>= fun v => (m.frames.assign x v).map .frames) := by
    rw [step_of_get hp, effect_equality order hd hadvance]
    rfl
  cases hv : equality m.frames a b with
  | error f =>
    rw [hv] at hstep
    exact congrArg Prod.snd hstep
  | ok v =>
    obtain ⟨s, hs⟩ := Frames.assign_of_lookup hx v
    simp only [hv, bind, Except.bind, hs] at hstep
    exact ⟨s, hs, hstep⟩

theorem step_branch (wanted : Bool) {order : Int}
    (hp : p.get? m.pc = some ⟨order, branchOpcode wanted, [l, a, b]⟩) (hl : l.operand = .ok (.label name))
    (hindex : m.labels.find? name = some index) :
    m.step p = m.settle ⟨order, branchOpcode wanted, [l, a, b]⟩
      ((compared (branchOpcode wanted) m.frames a b).map fun e => if e = wanted then .jump index else .none) := by
  have hadvance : (m.advance ⟨order, branchOpcode wanted, [l, a, b]⟩).labels.find? name = some index := hindex
  rw [step_of_get hp, effect_branch wanted order hl hadvance]
  rfl

theorem branchesOn_equality {o o' : Int} (hp : p.get? m.pc = some ⟨o, .jumpifeq, [l, a, b]⟩)
    (hq : q.get? m.pc = some ⟨o', .jumpifneq, [l, a, b]⟩) (hl : l.operand = .ok (.label name))
    (hindex : m.labels.find? name = some index) : m.BranchesOn p q index (equality m.frames a b) := by
  have hp := step_branch true hp hl hindex
  have hq := step_branch false hq hl hindex
  rw [compared_naming _ .eq] at hp hq
  rw [equality_eq_compared]
  cases hc : compared .eq m.frames a b with
  | error f =>
    rw [hc] at hp hq
    exact ⟨congrArg Prod.snd hp, congrArg Prod.snd hq⟩
  | ok equal =>
    rw [hc] at hp hq
    refine ⟨equal, rfl, ?_, ?_⟩
    · rw [hp]
      cases equal <;> rfl
    · rw [hq]
      cases equal <;> rfl

end

end Machine

/-! ## Coherence -/

/-- The comparisons are coherent with each other, and the two branches with `EQ`. -/
structure Coherent : Prop where
  comparable : ∀ a b : Value, (∃ v, evaluate .lt [a, b] = .ok v) ↔ a.type = b.type ∧ a.type ≠ .nil
  mirrored : ∀ a b v : Value, evaluate .gt [b, a] = .ok v ↔ evaluate .lt [a, b] = .ok v
  irreflexive : ∀ a, ¬ Holds .lt a a
  transitive : ∀ a b c, Holds .lt a b → Holds .lt b c → Holds .lt a c
  equatable : ∀ a b : Value, (∃ v, evaluate .eq [a, b] = .ok v) ↔ a.type = b.type ∨ a.type = .nil ∨ b.type = .nil
  symmetric : ∀ a b v : Value, evaluate .eq [a, b] = .ok v ↔ evaluate .eq [b, a] = .ok v
  equalTransitive : ∀ a b c, Holds .eq a b → Holds .eq b c → Holds .eq a c
  reflexive : ∀ a, Holds .eq a a ↔ a.isNaN = false
  trichotomous : ∀ a b : Value, a.type = b.type → a.type ≠ .nil → a.isNaN = false → b.isNaN = false →
    (Holds .lt a b ∧ ¬ Holds .eq a b ∧ ¬ Holds .gt a b) ∨ (¬ Holds .lt a b ∧ Holds .eq a b ∧ ¬ Holds .gt a b) ∨
      (¬ Holds .lt a b ∧ ¬ Holds .eq a b ∧ Holds .gt a b)
  lexicographic : ∀ s t : String, Holds .lt (.string s) (.string t) ↔ Text.Precedes s.toList t.toList
  stores : ∀ (m : Machine) (p : Program) (order : Int) (d a b : Argument) (x : Variable) (old : Option Value),
    p.get? m.pc = some ⟨order, .eq, [d, a, b]⟩ → d.operand = .ok (.var x) → m.frames.lookup x = .ok old →
    m.Stores p x (equality m.frames a b)
  branches : ∀ (m : Machine) (p q : Program) (o o' : Int) (l a b : Argument) (name : String) (index : Nat),
    p.get? m.pc = some ⟨o, .jumpifeq, [l, a, b]⟩ → q.get? m.pc = some ⟨o', .jumpifneq, [l, a, b]⟩ →
    l.operand = .ok (.label name) → m.labels.find? name = some index →
    m.BranchesOn p q index (equality m.frames a b)

theorem comparisons_coherent : Coherent where
  comparable := by
    intro a b
    rw [evaluate_truth_ok rfl, Value.isSome_ordered]
  mirrored := fun a b v => evaluate_gt_iff
  irreflexive := by
    intro a
    rw [holds_lt_iff]
    exact Value.not_below_self a
  transitive := by
    intro a b c
    rw [holds_lt_iff, holds_lt_iff, holds_lt_iff]
    exact Value.Below.trans
  equatable := by
    intro a b
    rw [evaluate_truth_ok rfl, Value.isSome_equal]
  symmetric := by
    intro a b v
    rw [evaluate_truth rfl, evaluate_truth rfl, Value.equal_comm]
  equalTransitive := by
    intro a b c
    rw [holds_eq_iff, holds_eq_iff, holds_eq_iff]
    exact Value.Alike.trans
  reflexive := by
    intro a
    rw [holds_eq_iff, Value.alike_self_iff]
  trichotomous := fun a b => exactly_one_holds
  lexicographic := fun s t => holds_lt_string_iff
  stores := by
    intro m p _ d a b x old hp hd hx
    exact Machine.stores_equality hp hd hx
  branches := by
    intro m p q _ _ l a b name index hp hq hl hindex
    exact Machine.branchesOn_equality hp hq hl hindex

/-- A label, the declaration of a variable, and an instruction on the two zeros. -/
def zerosCompared (op : Opcode) (kind : Kind) (first : String) : Program where
  instructions := [
    ⟨1, .label, [⟨0, .label, "again"⟩]⟩,
    ⟨2, .defvar, [⟨0, .var, "GF@x"⟩]⟩,
    ⟨3, op, [⟨0, kind, first⟩, ⟨1, .literal .float, "0x0p+0"⟩, ⟨2, .literal .float, "-0x0p+0"⟩]⟩]
  ordered := by simp
  positive := by simp
  placed := by simp [List.range_succ]

/-- The zeros are equal though their words differ, so that `JUMPIFEQ` jumps and `JUMPIFNEQ` does not. -/
theorem zeros_branch :
    let p := zerosCompared .jumpifeq .label "again"
    let m := (Machine.start Input.empty Device.reliable).after p 2
    (m.step p).1.pc = 0 ∧ (m.step (zerosCompared .jumpifneq .label "again")).1.pc = 3 ∧
      m.Stores (zerosCompared .eq .var "GF@x") ⟨.gf, "x"⟩ (.ok (.bool true)) ∧
      Holds .lt (.string "z") (.string "\u00e9x") ∧ ¬ Holds .lt (.string "\u00e9") (.string "\u00e9") := by
  intro p m
  have hcoherent := comparisons_coherent
  have hequality : equality m.frames ⟨1, .literal .float, "0x0p+0"⟩ ⟨2, .literal .float, "-0x0p+0"⟩ =
      .ok (.bool true) := by
    decide +kernel
  have hstore := hcoherent.stores m (zerosCompared .eq .var "GF@x") 3 ⟨0, .var, "GF@x"⟩ _ _ ⟨.gf, "x"⟩ none (by rfl)
    (by decide +kernel) (by decide +kernel)
  have hbranch := hcoherent.branches m p (zerosCompared .jumpifneq .label "again") 3 3 ⟨0, .label, "again"⟩ _ _
    "again" 0 (by rfl) (by rfl) (by decide +kernel) (by decide +kernel)
  rw [hequality] at hstore hbranch
  obtain ⟨equal, hequal, hjumps, hpasses⟩ := hbranch
  obtain rfl := Value.bool.inj hequal
  refine ⟨by rw [hjumps]; rfl, by rw [hpasses]; rfl, hstore, ?_, hcoherent.irreflexive _⟩
  exact hcoherent.transitive _ (.string "\u00e9") _ (by unfold Holds; decide +kernel)
    (by unfold Holds; decide +kernel)

end FrameMachine
