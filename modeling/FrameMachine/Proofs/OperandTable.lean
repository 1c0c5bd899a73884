import FrameMachine.Proofs.CharacterArrays
import FrameMachine.Proofs.Comparison

/-!
# The table of operand types

An opcode that computes a value takes operands of certain types only. A row gives these types and the type of the
result; `ValueFault` lists the faults that values of the right types can still cause, each with its condition. Types
that are no row are a mismatch, and a row gives a value of its type or one of its own faults
(`operand_table_exact`).
-/

namespace FrameMachine

namespace Opcode

/-- The type of the values that an opcode computes. -/
def resultType? : Opcode → Option DataType
  | add | sub | mul | idiv | strlen | stri2int => some .int
  | lt | gt | eq | and | or | not => some .bool
  | concat | getchar | int2char | setchar => some .string
  | _ => none

/-- A row of the table: an opcode, the types of its operands, the type of its result. -/
structure Row (op : Opcode) (types : List DataType) (t : DataType) : Prop where
  operands : op.accepts types = true
  result : op.resultType? = some t

/-- The faults of operands whose types are a row. -/
inductive ValueFault : Opcode → List Value → Fault → Prop
  | division (n : Int64) : ValueFault .idiv [.int n, .int 0] .divisionByZero
  | getchar {s : String} {i : Int64} : ¬ HasIndex s i →
      ValueFault .getchar [.string s, .int i] (.indexOutOfRange i s.length)
  | stri2int {s : String} {i : Int64} : ¬ HasIndex s i →
      ValueFault .stri2int [.string s, .int i] (.indexOutOfRange i s.length)
  | int2char {n : Int64} : ¬ IsScalar n → ValueFault .int2char [.int n] (.invalidCodePoint n)
  | emptySource (s : String) (i : Int64) : ValueFault .setchar [.string s, .int i, .string ""] .emptyReplacement
  | setchar {s u : String} {i : Int64} : u ≠ "" → ¬ HasIndex s i →
      ValueFault .setchar [.string s, .int i, .string u] (.indexOutOfRange i s.length)

end Opcode

/-! ## Types and values -/

section
variable {v : Value}

theorem Value.eq_int_of_type (h : v.type = .int) : ∃ n, v = .int n := by
  cases v with
  | int n => exact ⟨n, rfl⟩
  | _ => cases h

theorem Value.eq_string_of_type (h : v.type = .string) : ∃ s, v = .string s := by
  cases v with
  | string s => exact ⟨s, rfl⟩
  | _ => cases h

theorem Value.eq_bool_of_type (h : v.type = .bool) : ∃ b, v = .bool b := by
  cases v with
  | bool b => exact ⟨b, rfl⟩
  | _ => cases h

variable {vs : List Value} {s t u : DataType}

theorem of_types_one (h : vs.map Value.type = [s]) : ∃ v, vs = [v] ∧ v.type = s := by
  obtain ⟨v, rest, rfl, hv, hrest⟩ := List.map_eq_cons_iff.mp h
  obtain rfl := List.map_eq_nil_iff.mp hrest
  exact ⟨v, rfl, hv⟩

theorem of_types_two (h : vs.map Value.type = [s, t]) : ∃ v w, vs = [v, w] ∧ v.type = s ∧ w.type = t := by
  obtain ⟨v, rest, rfl, hv, hrest⟩ := List.map_eq_cons_iff.mp h
  obtain ⟨w, rfl, hw⟩ := of_types_one hrest
  exact ⟨v, w, rfl, hv, hw⟩

theorem of_types_three (h : vs.map Value.type = [s, t, u]) :
    ∃ v w z, vs = [v, w, z] ∧ v.type = s ∧ w.type = t ∧ z.type = u := by
  obtain ⟨v, rest, rfl, hv, hrest⟩ := List.map_eq_cons_iff.mp h
  obtain ⟨w, z, rfl, hw, hz⟩ := of_types_two hrest
  exact ⟨v, w, z, rfl, hv, hw, hz⟩

theorem of_types_ints (h : vs.map Value.type = [.int, .int]) : ∃ a b, vs = [.int a, .int b] := by
  obtain ⟨v, w, rfl, hv, hw⟩ := of_types_two h
  obtain ⟨a, rfl⟩ := Value.eq_int_of_type hv
  obtain ⟨b, rfl⟩ := Value.eq_int_of_type hw
  exact ⟨a, b, rfl⟩

theorem of_types_bools (h : vs.map Value.type = [.bool, .bool]) : ∃ a b, vs = [.bool a, .bool b] := by
  obtain ⟨v, w, rfl, hv, hw⟩ := of_types_two h
  obtain ⟨a, rfl⟩ := Value.eq_bool_of_type hv
  obtain ⟨b, rfl⟩ := Value.eq_bool_of_type hw
  exact ⟨a, b, rfl⟩

theorem of_types_indexed (h : vs.map Value.type = [.string, .int]) : ∃ s i, vs = [.string s, .int i] := by
  obtain ⟨v, w, rfl, hv, hw⟩ := of_types_two h
  obtain ⟨s, rfl⟩ := Value.eq_string_of_type hv
  obtain ⟨i, rfl⟩ := Value.eq_int_of_type hw
  exact ⟨s, i, rfl⟩

end

/-! ## Results of a row -/

theorem evaluate_of_valueFault {op : Opcode} {vs : List Value} {f : Fault} (h : op.ValueFault vs f) :
    evaluate op vs = .error f := by
  cases h with
  | division => rfl
  | getchar hindex =>
    rw [evaluate_getchar, at_of_not hindex]
    rfl
  | stri2int hindex =>
    rw [evaluate_stri2int, at_of_not hindex]
    rfl
  | int2char hscalar =>
    rw [evaluate_int2char, charOfCode_eq, if_neg hscalar]
    rfl
  | emptySource => rfl
  | setchar hu hindex =>
    obtain ⟨c, hc⟩ := exists_first hu
    rw [evaluate_setchar _ _ hc, if_neg hindex]

/-- There is a value of the type, or one of the faults of the operands. -/
def Settles (op : Opcode) (vs : List Value) (t : DataType) : Prop :=
  (∃ v, evaluate op vs = .ok v ∧ v.type = t) ∨ ∃ f, op.ValueFault vs f

theorem settles_truth {op : Opcode} {vs : List Value} {x : Option Bool}
    (h : result? op vs = x.map fun r => .ok (.bool r)) (hx : x.isSome = true) : Settles op vs .bool := by
  obtain ⟨r, hr⟩ := Option.isSome_iff_exists.mp hx
  exact Or.inl ⟨.bool r, (evaluate_truth h).mpr ⟨r, hr, rfl⟩, rfl⟩

theorem of_accepts_ordered {op : Opcode} (hop : op = .lt ∨ op = .gt) {types : List DataType}
    (h : op.accepts types = true) : ∃ t, types = [t, t] ∧ t ≠ .nil := by
  have hlt : Opcode.lt.accepts types = true := by rcases hop with rfl | rfl <;> exact h
  simp only [Opcode.accepts] at hlt
  split at hlt
  · rename_i s t
    simp only [Bool.and_eq_true, decide_eq_true_eq] at hlt
    obtain ⟨rfl, hnil⟩ := hlt
    exact ⟨s, rfl, hnil⟩
  · cases hlt

theorem of_accepts_eq {types : List DataType} (h : Opcode.eq.accepts types = true) :
    ∃ s t, types = [s, t] ∧ (s = t ∨ s = .nil ∨ t = .nil) := by
  simp only [Opcode.accepts] at h
  split at h
  · rename_i s t
    simp only [Bool.or_eq_true, decide_eq_true_eq, or_assoc] at h
    exact ⟨s, t, rfl, h⟩
  · cases h

theorem settles_ordered {op : Opcode} (hop : op = .lt ∨ op = .gt) {vs : List Value}
    (h : op.accepts (vs.map Value.type) = true) : Settles op vs .bool := by
  obtain ⟨t, htypes, hnil⟩ := of_accepts_ordered hop h
  obtain ⟨v, w, rfl, hv, hw⟩ := of_types_two htypes
  rcases hop with rfl | rfl <;> exact settles_truth rfl (Value.isSome_ordered.mpr ⟨hv.trans hw.symm, hv ▸ hnil⟩)

theorem settles_of_row {op : Opcode} {vs : List Value} {t : DataType} (h : op.Row (vs.map Value.type) t) :
    Settles op vs t := by
  obtain ⟨haccepts, hresult⟩ := h
  cases op <;> cases hresult
  case add | sub | mul =>
    obtain ⟨a, b, rfl⟩ := of_types_ints (of_decide_eq_true haccepts)
    exact Or.inl ⟨.int _, rfl, rfl⟩
  case idiv =>
    obtain ⟨a, b, rfl⟩ := of_types_ints (of_decide_eq_true haccepts)
    by_cases hb : b = 0
    · subst hb
      exact Or.inr ⟨_, .division a⟩
    · exact Or.inl ⟨.int (a / b), if_neg hb, rfl⟩
  case lt => exact settles_ordered (Or.inl rfl) haccepts
  case gt => exact settles_ordered (Or.inr rfl) haccepts
  case eq =>
    obtain ⟨_, _, htypes, hrow⟩ := of_accepts_eq haccepts
    obtain ⟨v, w, rfl, rfl, rfl⟩ := of_types_two htypes
    exact settles_truth rfl (Value.isSome_equal.mpr hrow)
  case and | or =>
    obtain ⟨a, b, rfl⟩ := of_types_bools (of_decide_eq_true haccepts)
    exact Or.inl ⟨.bool _, rfl, rfl⟩
  case not =>
    obtain ⟨v, rfl, hv⟩ := of_types_one (of_decide_eq_true haccepts)
    obtain ⟨a, rfl⟩ := Value.eq_bool_of_type hv
    exact Or.inl ⟨.bool !a, rfl, rfl⟩
  case concat =>
    obtain ⟨v, w, rfl, hv, hw⟩ := of_types_two (of_decide_eq_true haccepts)
    obtain ⟨s, rfl⟩ := Value.eq_string_of_type hv
    obtain ⟨t, rfl⟩ := Value.eq_string_of_type hw
    exact Or.inl ⟨.string (s ++ t), rfl, rfl⟩
  case strlen =>
    obtain ⟨v, rfl, hv⟩ := of_types_one (of_decide_eq_true haccepts)
    obtain ⟨s, rfl⟩ := Value.eq_string_of_type hv
    exact Or.inl ⟨_, evaluate_strlen s, rfl⟩
  case getchar =>
    obtain ⟨s, i, rfl⟩ := of_types_indexed (of_decide_eq_true haccepts)
    by_cases hindex : HasIndex s i
    · obtain ⟨c, hc⟩ := hindex.exists_at
      exact Or.inl ⟨_, by rw [evaluate_getchar, hc]; rfl, rfl⟩
    · exact Or.inr ⟨_, .getchar hindex⟩
  case stri2int =>
    obtain ⟨s, i, rfl⟩ := of_types_indexed (of_decide_eq_true haccepts)
    by_cases hindex : HasIndex s i
    · obtain ⟨c, hc⟩ := hindex.exists_at
      exact Or.inl ⟨_, by rw [evaluate_stri2int, hc]; rfl, rfl⟩
    · exact Or.inr ⟨_, .stri2int hindex⟩
  case int2char =>
    obtain ⟨v, rfl, hv⟩ := of_types_one (of_decide_eq_true haccepts)
    obtain ⟨n, rfl⟩ := Value.eq_int_of_type hv
    by_cases hscalar : IsScalar n
    · exact Or.inl ⟨_, by rw [evaluate_int2char, charOfCode_eq, if_pos hscalar]; rfl, rfl⟩
    · exact Or.inr ⟨_, .int2char hscalar⟩
  case setchar =>
    obtain ⟨v, w, z, rfl, hv, hw, hz⟩ := of_types_three (of_decide_eq_true haccepts)
    obtain ⟨s, rfl⟩ := Value.eq_string_of_type hv
    obtain ⟨i, rfl⟩ := Value.eq_int_of_type hw
    obtain ⟨u, rfl⟩ := Value.eq_string_of_type hz
    by_cases hu : u = ""
    · subst hu
      exact Or.inr ⟨_, .emptySource s i⟩
    · obtain ⟨c, hc⟩ := exists_first hu
      by_cases hindex : HasIndex s i
      · exact Or.inl ⟨_, by rw [evaluate_setchar s i hc, if_pos hindex], rfl⟩
      · exact Or.inr ⟨_, .setchar hu hindex⟩

/-! ## Types that are no row -/

theorem exists_row_of_accepts {op : Opcode} (hop : op.isBranch = false) {types : List DataType}
    (h : op.accepts types = true) : ∃ t, op.Row types t := by
  cases op with
  | exit | jumpifeq | jumpifneq => cases hop
  | add | sub | mul | idiv | lt | gt | eq | and | or | not | concat | strlen | getchar | stri2int | int2char
  | setchar => exact ⟨_, h, rfl⟩
  | _ => cases h

theorem evaluate_of_no_row {op : Opcode} {vs : List Value} (h : ¬ ∃ t, op.Row (vs.map Value.type) t) :
    evaluate op vs = .error (.typeMismatch op (vs.map Value.type)) := by
  have hnone : result? op vs = none := by
    by_cases hop : op.isBranch = true
    · cases op with
      | exit | jumpifeq | jumpifneq => rfl
      | _ => cases hop
    · have hop : op.isBranch = false := by simpa using hop
      rw [← Option.not_isSome_iff_eq_none, isSome_result hop]
      exact mt (exists_row_of_accepts hop) h
  rw [evaluate, hnone]

/-! ## Exactness -/

section
variable {op : Opcode} {vs : List Value} {f : Fault} {types : List DataType} {t : DataType}

theorem Opcode.ValueFault.exists_row (h : op.ValueFault vs f) : ∃ t, op.Row (vs.map Value.type) t := by
  cases h <;> exact ⟨_, rfl, rfl⟩

theorem Opcode.ValueFault.ne_mismatch (h : op.ValueFault vs f) (op' : Opcode) : f ≠ .typeMismatch op' types := by
  cases h <;> nofun

theorem fault_cases (h : evaluate op vs = .error f) :
    f = .typeMismatch op (vs.map Value.type) ∧ (¬ ∃ t, op.Row (vs.map Value.type) t) ∨ op.ValueFault vs f := by
  by_cases hrow : ∃ t, op.Row (vs.map Value.type) t
  · obtain ⟨t, ht⟩ := hrow
    rcases settles_of_row ht with ⟨v, hv, -⟩ | ⟨g, hg⟩
    · rw [hv] at h
      cases h
    · rw [evaluate_of_valueFault hg] at h
      cases h
      exact Or.inr hg
  · rw [evaluate_of_no_row hrow] at h
    cases h
    exact Or.inl ⟨rfl, hrow⟩

theorem mismatch_iff {op' : Opcode} : evaluate op vs = .error (.typeMismatch op' types) ↔
    op' = op ∧ types = vs.map Value.type ∧ ¬ ∃ t, op.Row (vs.map Value.type) t := by
  constructor
  · intro h
    rcases fault_cases h with ⟨hf, hrow⟩ | hfault
    · obtain ⟨rfl, rfl⟩ := Fault.typeMismatch.inj hf
      exact ⟨rfl, rfl, hrow⟩
    · exact absurd rfl (hfault.ne_mismatch op')
  · rintro ⟨rfl, rfl, hrow⟩
    exact evaluate_of_no_row hrow

theorem Opcode.Row.nil_not_mem (h : op.Row types t) (hop : op ≠ .eq) : DataType.nil ∉ types := by
  obtain ⟨haccepts, hresult⟩ := h
  cases op with
  | lt =>
    obtain ⟨t, rfl, hnil⟩ := of_accepts_ordered (Or.inl rfl) haccepts
    simpa using hnil.symm
  | gt =>
    obtain ⟨t, rfl, hnil⟩ := of_accepts_ordered (Or.inr rfl) haccepts
    simpa using hnil.symm
  | eq => exact absurd rfl hop
  | add | sub | mul | idiv | and | or | not | concat | strlen | getchar | stri2int | int2char | setchar =>
    rw [of_decide_eq_true haccepts]
    decide
  | _ => cases hresult

end

/-- Types that are no row are refused, with the opcode and the types named; a row gives a value of its type or
one of its own faults. -/
theorem operand_table_exact (op : Opcode) (vs : List Value) :
    (evaluate op vs = .error (.typeMismatch op (vs.map Value.type)) ↔ ¬ ∃ t, op.Row (vs.map Value.type) t) ∧
      (∀ op' types, evaluate op vs = .error (.typeMismatch op' types) → op' = op ∧ types = vs.map Value.type) ∧
      (∀ t, op.Row (vs.map Value.type) t →
        (∃ v, evaluate op vs = .ok v ∧ v.type = t) ∨ ∃ f, op.ValueFault vs f ∧ evaluate op vs = .error f) ∧
      (∀ f, op.ValueFault vs f → evaluate op vs = .error f ∧ ∃ t, op.Row (vs.map Value.type) t) ∧
      (op = .idiv → (evaluate op vs = .error .divisionByZero ↔ ∃ n, vs = [.int n, .int 0])) ∧
      (op ≠ .eq → .nil ∈ vs → evaluate op vs = .error (.typeMismatch op (vs.map Value.type))) := by
  refine ⟨?_, fun op' types h => ?_, fun t ht => ?_, fun f hf => ?_, ?_, fun hop hnil => ?_⟩
  · simp [mismatch_iff]
  · obtain ⟨rfl, rfl, -⟩ := mismatch_iff.mp h
    exact ⟨rfl, rfl⟩
  · rcases settles_of_row ht with hvalue | ⟨f, hf⟩
    · exact Or.inl hvalue
    · exact Or.inr ⟨f, hf, evaluate_of_valueFault hf⟩
  · exact ⟨evaluate_of_valueFault hf, hf.exists_row⟩
  · rintro rfl
    constructor
    · intro h
      rcases fault_cases h with ⟨hf, -⟩ | hfault
      · cases hf
      · cases hfault with
        | division n => exact ⟨n, rfl⟩
    · rintro ⟨n, rfl⟩
      exact evaluate_of_valueFault (.division n)
  · refine evaluate_of_no_row ?_
    rintro ⟨t, ht⟩
    exact ht.nil_not_mem hop (List.mem_map_of_mem hnil)

/-- A division by zero is reported as such only if both operands are integers. -/
theorem idiv_table :
    evaluate .idiv [.nil, .int 0] = .error (.typeMismatch .idiv [.nil, .int]) ∧
      evaluate .idiv [.int 7, .int 0] = .error .divisionByZero ∧
      ∃ v, evaluate .idiv [.int 7, .int (-2)] = .ok v ∧ v.type = .int := by
  obtain ⟨-, -, -, -, -, hnil⟩ := operand_table_exact .idiv [.nil, .int 0]
  obtain ⟨-, -, -, -, hzero, -⟩ := operand_table_exact .idiv [.int 7, .int 0]
  obtain ⟨-, -, hrow, -⟩ := operand_table_exact .idiv [.int 7, .int (-2)]
  refine ⟨hnil nofun (by simp), (hzero rfl).mpr ⟨7, rfl⟩, ?_⟩
  rcases hrow .int ⟨rfl, rfl⟩ with hvalue | ⟨f, hf, -⟩
  · exact hvalue
  · cases hf

end FrameMachine
