import FrameMachine.Proofs.Dispatch
import FrameMachine.Proofs.Visibility

/-!
# Stages of an operation

An instruction can be wrong in several ways at once. It is checked in stages: its arguments, its label, the
variables and frames that it needs, the stacks and the types of its operands, and the values of these.
`Operation.Fails` says for each stage what has been found in order before, and `fails_of_effect` that every
fault of an operation belongs to a stage.
-/

namespace FrameMachine

/-! ## Stages -/

inductive Stage where
  | arguments
  | label
  | access
  | operands
  | values
  /-- No check of an instruction: the tables of labels, the output and the machine itself. -/
  | outside
deriving DecidableEq

def Fault.stage : Fault → Stage
  | malformed _ | wrongArity .. | wrongOperand .. | unreadableType _ | invalidEscape _ => .arguments
  | undefinedLabel _ => .label
  | undeclaredVariable _ | uninitializedVariable _ | frameNotAvailable _ | variableRedeclared _ => .access
  | emptyCallStack | emptyValueStack | typeMismatch .. => .operands
  | divisionByZero | exitCodeOutOfRange _ | indexOutOfRange .. | invalidCodePoint _ | emptyReplacement => .values
  | labelRedefined .. | output _ | internal _ => .outside

theorem Fault.stage_eq_arguments_iff (f : Fault) :
    f.stage = .arguments ↔ f.category = .structural ∨ ∃ text, f = .invalidEscape text := by
  cases f <;> simp [stage, category]

/-- The types of operands that an opcode takes. -/
def Opcode.accepts (op : Opcode) (types : List DataType) : Bool :=
  match op with
  | .add | .sub | .mul | .idiv => types = [.int, .int]
  | .lt | .gt =>
    match types with
    | [s, t] => s = t && s ≠ .nil
    | _ => false
  | .eq | .jumpifeq | .jumpifneq =>
    match types with
    | [s, t] => s = t || s = .nil || t = .nil
    | _ => false
  | .and | .or => types = [.bool, .bool]
  | .not => types = [.bool]
  | .concat => types = [.string, .string]
  | .strlen => types = [.string]
  | .getchar | .stri2int => types = [.string, .int]
  | .int2char | .exit => types = [.int]
  | .setchar => types = [.string, .int, .string]
  | _ => false

/-- The frames are the reason of a fault: a frame or a variable is missing, a variable has no value, or it is
there already. -/
inductive Frames.Denies (s : Frames) : Fault → Prop
  | missing {scope : Scope} : s.visible scope = .error (.frameNotAvailable scope) →
      Denies s (.frameNotAvailable scope)
  | undeclared {x : Variable} : s.lookup x = .error (.undeclaredVariable x) → Denies s (.undeclaredVariable x)
  | uninitialized {x : Variable} : s.lookup x = .ok none → Denies s (.uninitializedVariable x)
  | redeclared {x : Variable} : s.declare x = .error (.variableRedeclared x) → Denies s (.variableRedeclared x)

namespace Operation

/-- The variable that receives the result. -/
def destination? : Operation → Option Variable
  | .move x _ | .typeOf x _ | .pop x | .compute _ x _ | .setChar x _ _ | .read x _ => some x
  | _ => none

/-- The symbols whose values are read, in order. -/
def sources : Operation → List Symbol
  | .move _ a | .typeOf _ a | .exit a | .push a | .write a | .debugWrite a => [a]
  | .jumpIf _ _ a b => [a, b]
  | .compute _ _ as => as
  | .setChar x a b => [.var x, a, b]
  | _ => []

def LabelKnown (labels : Labels) (op : Operation) : Prop :=
  ∀ name, op.label? = some name → ∃ index, labels.find? name = some index

/-- The destination is declared, and so is every source, which has a value unless it is that of `TYPE`. -/
structure Resolved (s : Frames) (op : Operation) : Prop where
  destination : ∀ x, op.destination? = some x → ∃ w, s.lookup x = .ok w
  declared : ∀ x, .var x ∈ op.sources → ∃ w, s.lookup x = .ok w
  defined : op.opcode ≠ .type → ∀ x, .var x ∈ op.sources → ∃ v, s.lookup x = .ok (some v)

inductive Fails (labels : Labels) (s : Frames) (op : Operation) : Fault → Prop
  | label {name : String} : op.label? = some name → labels.find? name = none →
      Fails labels s op (.undefinedLabel name)
  | access {f : Fault} : f.stage = .access → op.LabelKnown labels → s.Denies f → Fails labels s op f
  | shortage {f : Fault} : f.category = .missingValue → op.LabelKnown labels → op.Resolved s →
      Fails labels s op f
  | mismatch {vs : List Value} : op.LabelKnown labels → op.Resolved s → Symbol.values s op.sources = .ok vs →
      op.opcode.accepts (vs.map Value.type) = false →
      Fails labels s op (.typeMismatch op.opcode (vs.map Value.type))
  | value {f : Fault} {vs : List Value} : f.stage = .values → op.LabelKnown labels → op.Resolved s →
      Symbol.values s op.sources = .ok vs → op.opcode.accepts (vs.map Value.type) = true → Fails labels s op f

end Operation

/-! ## Variables and frames -/

theorem error_of_bind {α β : Type} {x : Except Fault α} {f : α → Except Fault β} {e : Fault}
    (h : (x >>= f) = .error e) : x = .error e ∨ ∃ a, x = .ok a ∧ f a = .error e := by
  cases x with
  | error g => exact Or.inl (congrArg _ (Except.error.inj h))
  | ok a => exact Or.inr ⟨a, rfl, h⟩

section
variable {s : Frames} {x : Variable} {f : Fault}

theorem Frames.Denies.stage (h : s.Denies f) : f.stage = .access := by
  cases h <;> rfl

theorem Frames.denies_of_visible {scope : Scope} (h : s.visible scope = .error f) : s.Denies f := by
  have hmissing : f = .frameNotAvailable scope := by
    cases scope with
    | gf => cases h
    | lf | tf =>
      simp only [visible] at h
      split at h
      · exact (Except.error.inj h).symm
      · cases h
  subst hmissing
  exact .missing h

theorem Frames.denies_of_lookup (h : s.lookup x = .error f) : s.Denies f := by
  rcases error_of_bind h with hvisible | ⟨fs, -, hfind⟩
  · exact denies_of_visible hvisible
  · split at hfind
    · cases hfind
    · cases hfind
      exact .undeclared h

theorem Frames.denies_of_push (h : s.push = .error f) : s.Denies f := by
  unfold push at h
  split at h
  · rename_i htemporary
    cases h
    exact .missing (by simp [visible, htemporary])
  · cases h

theorem Frames.denies_of_pop (h : s.pop = .error f) : s.Denies f := by
  unfold pop at h
  split at h
  · rename_i hlocals
    cases h
    exact .missing (by simp [visible, hlocals])
  · cases h

theorem Frames.denies_of_declare (h : s.declare x = .error f) : s.Denies f := by
  have hin : ∀ {g : Frame → Frames} {frame : Frame}, (declareIn x frame).map g = .error f → s.Denies f := by
    intro g frame hframe
    unfold declareIn at hframe
    split at hframe
    · cases hframe
      exact .redeclared h
    · cases hframe
  have hdeclare := h
  unfold declare at hdeclare
  split at hdeclare
  · exact hin hdeclare
  · split at hdeclare
    · rename_i hlocals
      cases hdeclare
      exact .missing (by simp [visible, hlocals])
    · exact hin hdeclare
  · split at hdeclare
    · rename_i htemporary
      cases hdeclare
      exact .missing (by simp [visible, htemporary])
    · exact hin hdeclare

theorem Frames.assign_ne_error {w : Option Value} (h : s.lookup x = .ok w) (v : Value) (g : Frames → Effect) :
    (s.assign x v >>= fun s' => pure (g s')) ≠ .error f := by
  obtain ⟨s', hs'⟩ := assign_of_lookup h v
  rw [hs']
  nofun

theorem Symbol.denies_of_value {a : Symbol} (h : a.value s = .error f) : s.Denies f := by
  cases a with
  | literal v => cases h
  | var x =>
    simp only [value] at h
    split at h
    · cases h
    · rename_i hnone
      cases h
      exact .uninitialized hnone
    · rename_i g hg
      cases h
      exact Frames.denies_of_lookup hg

theorem Symbol.denies_of_values {as : List Symbol} (h : values s as = .error f) : s.Denies f := by
  induction as with
  | nil => cases h
  | cons a as ih =>
    rcases error_of_bind h with h | ⟨v, -, h⟩
    · exact denies_of_value h
    · rcases error_of_bind h with h | ⟨vs, -, h⟩
      · exact ih h
      · cases h

theorem Symbol.lookup_of_value {v : Value} (h : (Symbol.var x).value s = .ok v) : s.lookup x = .ok (some v) := by
  simp only [value] at h
  split at h
  · rename_i w hw
    cases h
    exact hw
  · cases h
  · cases h

theorem Symbol.lookup_of_values {as : List Symbol} {vs : List Value} (h : values s as = .ok vs) :
    ∀ x, .var x ∈ as → ∃ v, s.lookup x = .ok (some v) := by
  induction as generalizing vs with
  | nil => nofun
  | cons a as ih =>
    obtain ⟨v, hv, h⟩ := ok_of_bind h
    obtain ⟨ws, hws, -⟩ := ok_of_bind h
    intro x hx
    rcases List.mem_cons.mp hx with rfl | hx
    · exact ⟨v, lookup_of_value hv⟩
    · exact ih hws x hx

end

/-! ## Types of operands -/

section
variable (vs : List Value)

theorem isSome_integers (f : Int64 → Int64 → Except Fault Value) :
    (integers? f vs).isSome = decide (vs.map Value.type = [.int, .int]) := by
  rcases vs with _ | ⟨v, _ | ⟨w, _ | ⟨u, us⟩⟩⟩
  · rfl
  · simp [integers?]
  · cases v <;> cases w <;> simp [integers?, Value.type]
  · simp [integers?]

theorem isSome_truths (f : Bool → Bool → Bool) :
    (truths? f vs).isSome = decide (vs.map Value.type = [.bool, .bool]) := by
  rcases vs with _ | ⟨v, _ | ⟨w, _ | ⟨u, us⟩⟩⟩
  · rfl
  · simp [truths?]
  · cases v <;> cases w <;> simp [truths?, Value.type]
  · simp [truths?]

theorem isSome_character (f : Char → Value) :
    (character? f vs).isSome = decide (vs.map Value.type = [.string, .int]) := by
  rcases vs with _ | ⟨v, _ | ⟨w, _ | ⟨u, us⟩⟩⟩
  · rfl
  · simp [character?]
  · cases v <;> cases w <;> simp [character?, Value.type]
  · simp [character?]

end

/-- The opcodes whose operands are compared with their row outside of `result?`. -/
def Opcode.isBranch (op : Opcode) : Bool := op = .exit || op = .jumpifeq || op = .jumpifneq

theorem isSome_result {op : Opcode} (hop : op.isBranch = false) (vs : List Value) :
    (result? op vs).isSome = op.accepts (vs.map Value.type) := by
  cases op with
  | add | sub | mul | idiv => exact isSome_integers vs _
  | and | or => exact isSome_truths vs _
  | getchar | stri2int => exact isSome_character vs _
  | lt | gt | eq =>
    rcases vs with _ | ⟨v, _ | ⟨w, _ | ⟨u, us⟩⟩⟩
    · rfl
    · rfl
    · cases v <;> cases w <;> rfl
    · rfl
  | not | strlen | int2char =>
    rcases vs with _ | ⟨v, _ | ⟨w, us⟩⟩
    · rfl
    · cases v <;> simp [result?, Opcode.accepts, Value.type]
    · simp [result?, Opcode.accepts]
  | concat =>
    rcases vs with _ | ⟨v, _ | ⟨w, _ | ⟨u, us⟩⟩⟩
    · rfl
    · simp [result?, Opcode.accepts]
    · cases v <;> cases w <;> simp [result?, Opcode.accepts, Value.type]
    · simp [result?, Opcode.accepts]
  | setchar =>
    rcases vs with _ | ⟨v, _ | ⟨w, _ | ⟨u, _ | ⟨z, us⟩⟩⟩⟩
    · rfl
    · simp [result?, Opcode.accepts]
    · simp [result?, Opcode.accepts]
    · cases v <;> cases w <;> cases u <;> simp [result?, Opcode.accepts, Value.type]
    · simp [result?, Opcode.accepts]
  | exit | jumpifeq | jumpifneq => cases hop
  | _ => rfl

/-! ## Values of operands -/

theorem charIndex_lt {cs : List Char} {i : Int64} {k : Nat} (h : charIndex cs i = .ok k) :
    k < cs.length := by
  unfold charIndex at h
  split at h
  · obtain rfl := Except.ok.inj h
    omega
  · cases h

theorem stage_of_charIndex {cs : List Char} {i : Int64} {f : Fault} (h : charIndex cs i = .error f) :
    f.stage = .values := by
  unfold charIndex at h
  split at h
  · cases h
  · cases h
    rfl

theorem stage_of_charAt {s : String} {i : Int64} {f : Fault} (h : charAt s i = .error f) :
    f.stage = .values := by
  rcases error_of_bind h with h | ⟨k, hk, h⟩
  · exact stage_of_charIndex h
  · rw [List.getElem?_eq_getElem (charIndex_lt hk)] at h
    cases h

theorem stage_of_replaceChar {s source : String} {i : Int64} {f : Fault}
    (h : replaceChar s i source = .error f) : f.stage = .values := by
  unfold replaceChar at h
  split at h
  · cases h
    rfl
  · rcases error_of_bind h with h | ⟨k, -, h⟩
    · exact stage_of_charIndex h
    · cases h

theorem stage_of_charOfCode {n : Int64} {f : Fault} (h : charOfCode n = .error f) :
    f.stage = .values := by
  unfold charOfCode at h
  split at h
  · cases h
  · cases h
    rfl

theorem error_of_map {α β : Type} {x : Except Fault α} {g : α → β} {f : Fault} (h : x.map g = .error f) :
    x = .error f := by
  cases x with
  | error e => exact congrArg _ (Except.error.inj h)
  | ok a => cases h

theorem stage_of_result {op : Opcode} {vs : List Value} {f : Fault} (h : result? op vs = some (.error f)) :
    f.stage = .values := by
  cases op with
  | add | sub | mul =>
    simp only [result?, integers?] at h
    split at h <;> cases h
  | idiv =>
    simp only [result?, integers?] at h
    split at h
    · obtain h := Option.some.inj h
      split at h
      · cases h
        rfl
      · cases h
    · cases h
  | lt | gt | eq =>
    simp only [result?, comparison?] at h
    split at h
    · obtain ⟨_, _, ⟨⟩⟩ := Option.map_eq_some_iff.mp h
    · cases h
  | and | or =>
    simp only [result?, truths?] at h
    split at h <;> cases h
  | not | concat | strlen =>
    simp only [result?] at h
    split at h <;> cases h
  | getchar | stri2int =>
    simp only [result?, character?] at h
    split at h
    · exact stage_of_charAt (error_of_map (Option.some.inj h))
    · cases h
  | int2char =>
    simp only [result?] at h
    split at h
    · exact stage_of_charOfCode (error_of_map (Option.some.inj h))
    · cases h
  | setchar =>
    simp only [result?] at h
    split at h
    · exact stage_of_replaceChar (error_of_map (Option.some.inj h))
    · cases h
  | _ => cases h

theorem evaluate_fault {op : Opcode} (hop : op.isBranch = false) {vs : List Value} {f : Fault}
    (h : evaluate op vs = .error f) :
    f.stage = .values ∧ op.accepts (vs.map Value.type) = true ∨
      f = .typeMismatch op (vs.map Value.type) ∧ op.accepts (vs.map Value.type) = false := by
  have hrow := isSome_result hop vs
  unfold evaluate at h
  split at h
  · rename_i r hr
    rw [hr] at hrow
    subst h
    exact Or.inl ⟨stage_of_result hr, hrow.symm⟩
  · rename_i hr
    rw [hr] at hrow
    exact Or.inr ⟨(Except.error.inj h).symm, hrow.symm⟩

theorem testEqual_fault {op : Opcode} (hop : op = .jumpifeq ∨ op = .jumpifneq) {v w : Value} {f : Fault}
    (h : testEqual op v w = .error f) :
    f = .typeMismatch op [v.type, w.type] ∧ op.accepts [v.type, w.type] = false := by
  unfold testEqual at h
  split at h
  · cases h
  · rename_i hnone
    refine ⟨(Except.error.inj h).symm, ?_⟩
    have hrow : (v.equal? w).isSome = op.accepts [v.type, w.type] := by
      rcases hop with rfl | rfl <;> cases v <;> cases w <;> rfl
    rw [← hrow, hnone]
    rfl

theorem exitStatus_fault {v : Value} {f : Fault} (h : exitStatus v = .error f) :
    f.stage = .values ∧ Opcode.exit.accepts [v.type] = true ∨
      f = .typeMismatch .exit [v.type] ∧ Opcode.exit.accepts [v.type] = false := by
  unfold exitStatus at h
  split at h
  · split at h
    · cases h
    · cases h
      exact Or.inl ⟨rfl, rfl⟩
  · rename_i hint
    cases h
    refine Or.inr ⟨rfl, ?_⟩
    cases v with
    | int n => exact absurd rfl (hint n)
    | _ => rfl

/-! ## Operations -/

theorem isBranch_of_compute {i : Instruction} {op : Opcode} {x : Variable} {as : List Symbol}
    (h : i.operation = .ok (.compute op x as)) : op.isBranch = false := by
  have hop : op = i.opcode := opcode_of_operation h
  cases op with
  | exit =>
    obtain ⟨os, hfits, -, hsome⟩ := ofOperands_of_operation h
    rw [← hop] at hfits hsome
    obtain ⟨a, ha⟩ := @onSymbol_of_fits os Operation.exit hfits
    cases hsome.symm.trans ha
  | jumpifeq =>
    obtain ⟨wanted, name, a, b, ⟨⟩⟩ := jumpIf_of_operation h (Or.inl hop.symm)
  | jumpifneq =>
    obtain ⟨wanted, name, a, b, ⟨⟩⟩ := jumpIf_of_operation h (Or.inr hop.symm)
  | _ => rfl

theorem Labels.find_of_target_error {t : Labels} {name : String} {f : Fault} (h : t.target name = .error f) :
    f = .undefinedLabel name ∧ t.find? name = none := by
  unfold target at h
  split at h
  · cases h
  · rename_i hnone
    exact ⟨(Except.error.inj h).symm, hnone⟩

namespace Operation

section
variable {labels : Labels} {s : Frames} {op : Operation} {f : Fault}

theorem LabelKnown.of_none (hop : op.label? = none) : op.LabelKnown labels := by
  intro name hname
  rw [hop] at hname
  cases hname

theorem LabelKnown.of_target {name : String} {index : Nat} (hop : op.label? = some name)
    (h : labels.target name = .ok index) : op.LabelKnown labels := by
  intro n hn
  obtain rfl := Option.some.inj (hop.symm.trans hn)
  cases hfind : labels.find? name with
  | some k => exact ⟨k, rfl⟩
  | none =>
    rw [Labels.target, hfind] at h
    cases h

theorem Fails.of_target {name : String} (hop : op.label? = some name) (h : labels.target name = .error f) :
    op.Fails labels s f := by
  obtain ⟨rfl, hnone⟩ := Labels.find_of_target_error h
  exact .label hop hnone

theorem Fails.of_denied (h : s.Denies f) (hlabel : op.LabelKnown labels) : op.Fails labels s f :=
  .access h.stage hlabel h

theorem destination_of_none (hop : op.destination? = none) :
    ∀ x, op.destination? = some x → ∃ w, s.lookup x = .ok w := by
  intro x hx
  rw [hop] at hx
  cases hx

theorem destination_of_lookup {x : Variable} {w : Option Value} (hop : op.destination? = some x)
    (h : s.lookup x = .ok w) : ∀ y, op.destination? = some y → ∃ w, s.lookup y = .ok w := by
  intro y hy
  obtain rfl := Option.some.inj (hop.symm.trans hy)
  exact ⟨w, h⟩

theorem Resolved.of_nil (hop : op.sources = [])
    (hdestination : ∀ x, op.destination? = some x → ∃ w, s.lookup x = .ok w) : op.Resolved s := by
  refine ⟨hdestination, ?_, ?_⟩
  · simp [hop]
  · simp [hop]

theorem Fails.of_values {vs : List Value} (hlabel : op.LabelKnown labels)
    (hdestination : ∀ x, op.destination? = some x → ∃ w, s.lookup x = .ok w)
    (h : Symbol.values s op.sources = .ok vs)
    (hf : f.stage = .values ∧ op.opcode.accepts (vs.map Value.type) = true ∨
      f = .typeMismatch op.opcode (vs.map Value.type) ∧ op.opcode.accepts (vs.map Value.type) = false) :
    op.Fails labels s f := by
  have hdefined := Symbol.lookup_of_values h
  have hresolved : op.Resolved s := by
    refine ⟨hdestination, ?_, fun _ => hdefined⟩
    intro x hx
    obtain ⟨v, hv⟩ := hdefined x hx
    exact ⟨some v, hv⟩
  rcases hf with ⟨hf, haccepts⟩ | ⟨rfl, haccepts⟩
  · exact .value hf hlabel hresolved h haccepts
  · exact .mismatch hlabel hresolved h haccepts

end

theorem fails_of_effect {p : Program} {i : Instruction} {m : Machine} {op : Operation} {f : Fault}
    (hop : i.operation = .ok op) (h : op.effect p i m = .error f) : op.Fails m.labels m.frames f := by
  have hopcode := opcode_of_operation hop
  cases op with
  | move x a =>
    rcases error_of_bind h with h | ⟨w, hw, h⟩
    · exact .of_denied (Frames.denies_of_lookup h) (.of_none rfl)
    · rcases error_of_bind h with h | ⟨v, -, h⟩
      · exact .of_denied (Symbol.denies_of_value h) (.of_none rfl)
      · exact absurd h (Frames.assign_ne_error hw v .frames)
  | typeOf x a =>
    rcases error_of_bind h with h | ⟨w, hw, h⟩
    · exact .of_denied (Frames.denies_of_lookup h) (.of_none rfl)
    · rcases error_of_bind h with h | ⟨v, -, h⟩
      · cases a with
        | literal v => cases h
        | var y => exact .of_denied (Frames.denies_of_lookup h) (.of_none rfl)
      · exact absurd h (Frames.assign_ne_error hw (typeName v) .frames)
  | pushFrame =>
    rcases error_of_bind h with h | ⟨s, -, ⟨⟩⟩
    exact .of_denied (Frames.denies_of_push h) (.of_none rfl)
  | popFrame =>
    rcases error_of_bind h with h | ⟨s, -, ⟨⟩⟩
    exact .of_denied (Frames.denies_of_pop h) (.of_none rfl)
  | declare x =>
    rcases error_of_bind h with h | ⟨s, -, ⟨⟩⟩
    exact .of_denied (Frames.denies_of_declare h) (.of_none rfl)
  | call name | jump name =>
    rcases error_of_bind h with h | ⟨index, -, ⟨⟩⟩
    exact .of_target rfl h
  | «return» =>
    simp only [effect] at h
    split at h
    · cases h
      exact .shortage rfl (.of_none rfl) (.of_nil rfl (destination_of_none rfl))
    · cases h
  | jumpIf wanted name a b =>
    rcases error_of_bind h with h | ⟨index, hindex, h⟩
    · exact .of_target rfl h
    · have hlabel : (jumpIf wanted name a b).LabelKnown m.labels := .of_target rfl hindex
      rcases error_of_bind h with h | ⟨v, hv, h⟩
      · exact .of_denied (Symbol.denies_of_value h) hlabel
      · rcases error_of_bind h with h | ⟨w, hw, h⟩
        · exact .of_denied (Symbol.denies_of_value h) hlabel
        · rcases error_of_bind h with h | ⟨equal, -, ⟨⟩⟩
          have hvalues : Symbol.values m.frames [a, b] = .ok [v, w] := by
            simp [Symbol.values, hv, hw, bind, Except.bind, pure, Except.pure]
          have hbranch : (jumpIf wanted name a b).opcode = .jumpifeq ∨
              (jumpIf wanted name a b).opcode = .jumpifneq := by
            cases wanted
            · exact Or.inr rfl
            · exact Or.inl rfl
          rw [← hopcode] at h
          exact .of_values hlabel (destination_of_none rfl) hvalues (Or.inr (testEqual_fault hbranch h))
  | exit a =>
    rcases error_of_bind h with h | ⟨v, hv, h⟩
    · exact .of_denied (Symbol.denies_of_value h) (.of_none rfl)
    · rcases error_of_bind h with h | ⟨status, -, ⟨⟩⟩
      have hvalues : Symbol.values m.frames [a] = .ok [v] := by
        simp [Symbol.values, hv, bind, Except.bind, pure, Except.pure]
      exact .of_values (.of_none rfl) (destination_of_none rfl) hvalues (exitStatus_fault h)
  | push a | write a | debugWrite a =>
    rcases error_of_bind h with h | ⟨v, -, ⟨⟩⟩
    exact .of_denied (Symbol.denies_of_value h) (.of_none rfl)
  | pop x =>
    rcases error_of_bind h with h | ⟨w, hw, h⟩
    · exact .of_denied (Frames.denies_of_lookup h) (.of_none rfl)
    · split at h
      · cases h
        exact .shortage rfl (.of_none rfl) (.of_nil rfl (destination_of_lookup rfl hw))
      · exact absurd h (Frames.assign_ne_error hw _ _)
  | compute op x as =>
    rcases error_of_bind h with h | ⟨w, hw, h⟩
    · exact .of_denied (Frames.denies_of_lookup h) (.of_none rfl)
    · rcases error_of_bind h with h | ⟨vs, hvs, h⟩
      · exact .of_denied (Symbol.denies_of_values h) (.of_none rfl)
      · rcases error_of_bind h with h | ⟨v, -, h⟩
        · have hfault := evaluate_fault (isBranch_of_compute hop) h
          exact .of_values (.of_none rfl) (destination_of_lookup rfl hw) hvs hfault
        · exact absurd h (Frames.assign_ne_error hw v .frames)
  | setChar x a b =>
    rcases error_of_bind h with h | ⟨vs, hvs, h⟩
    · exact .of_denied (Symbol.denies_of_values h) (.of_none rfl)
    · -- The variable is the first of the sources, so it has been looked up.
      obtain ⟨w, hw⟩ := Symbol.lookup_of_values hvs x (by simp)
      rcases error_of_bind h with h | ⟨v, -, h⟩
      · exact .of_values (.of_none rfl) (destination_of_lookup rfl hw) hvs (evaluate_fault rfl h)
      · exact absurd h (Frames.assign_ne_error hw v .frames)
  | read x t =>
    rcases error_of_bind h with h | ⟨w, hw, h⟩
    · exact .of_denied (Frames.denies_of_lookup h) (.of_none rfl)
    · exact absurd h (Frames.assign_ne_error hw _ _)
  | createFrame | label | «break» => cases h

end Operation

theorem Fault.stage_of_missingValue {f : Fault} (h : f.category = .missingValue) : f.stage = .operands := by
  cases f with
  | emptyCallStack | emptyValueStack => rfl
  | _ => cases h

theorem Operation.Fails.stage_ne {labels : Labels} {s : Frames} {op : Operation} {f : Fault}
    (h : op.Fails labels s f) : f.stage ≠ .arguments ∧ f.stage ≠ .outside := by
  cases h with
  | label | mismatch => simp [Fault.stage]
  | access hf | value hf => simp [hf]
  | shortage hf => simp [Fault.stage_of_missingValue hf]

end FrameMachine
