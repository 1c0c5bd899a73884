import FrameMachine.Proofs.Stages

/-!
# Comparison of values

`LT` and `GT` compare values of one type that has an order, `EQ` also compares nil with anything. What makes them
true is said by two relations on values, `Below` and `Alike`, with a case for each type; the laws of the opcodes
are those of the two relations. A NaN is in neither relation with any number, and the two zeros are alike.
-/

namespace FrameMachine

/-! ## Numbers and texts -/

section
variable {x y : Binary64}

theorem Binary64.compare_eq_some_iff {o : Ordering} :
    x.compare? y = some o ↔ (x.isNaN = false ∧ y.isNaN = false) ∧ compare x.rank y.rank = o := by
  unfold compare?
  cases hx : x.isNaN <;> cases hy : y.isNaN <;> simp

theorem Binary64.compare_lt_iff :
    x.compare? y = some .lt ↔ (x.isNaN = false ∧ y.isNaN = false) ∧ x.rank < y.rank := by
  rw [compare_eq_some_iff, Int.compare_eq_lt]

theorem Binary64.compare_eq_iff :
    x.compare? y = some .eq ↔ (x.isNaN = false ∧ y.isNaN = false) ∧ x.rank = y.rank := by
  rw [compare_eq_some_iff, Int.compare_eq_eq]

end

theorem Binary64.compare_swap (x y : Binary64) : y.compare? x = (x.compare? y).map Ordering.swap := by
  unfold compare?
  rw [Bool.or_comm]
  split
  · rfl
  · exact congrArg some Std.OrientedCmp.eq_swap

/-- Lexicographic order by code point: the texts have a beginning in common, with which the first one ends or
after which it has the smaller character. -/
inductive Text.Precedes : List Char → List Char → Prop
  | ends (start : List Char) (c : Char) (cs : List Char) : Precedes start (start ++ c :: cs)
  | differs (start : List Char) {c d : Char} (cs ds : List Char) : c.toNat < d.toNat →
      Precedes (start ++ c :: cs) (start ++ d :: ds)

theorem Text.Precedes.cons {cs ds : List Char} (h : Precedes cs ds) (c : Char) : Precedes (c :: cs) (c :: ds) := by
  cases h with
  | ends _ d ds => exact .ends (c :: cs) d ds
  | differs start cs ds hlt => exact .differs (c :: start) cs ds hlt

theorem Text.lt_iff_precedes {cs ds : List Char} : cs < ds ↔ Precedes cs ds := by
  constructor
  · intro h
    induction cs generalizing ds with
    | nil =>
      cases ds with
      | nil => exact absurd h (List.lt_irrefl [])
      | cons d ds => exact .ends [] d ds
    | cons c cs ih =>
      cases ds with
      | nil => exact absurd h (List.not_lt_nil _)
      | cons d ds =>
        rcases List.cons_lt_cons_iff.mp h with hlt | ⟨rfl, hlt⟩
        · exact .differs [] cs ds hlt
        · exact (ih hlt).cons c
  · intro h
    cases h with
    | ends _ c rest =>
      induction cs with
      | nil => exact List.nil_lt_cons c rest
      | cons d start ih => exact List.cons_lt_cons_iff.mpr (Or.inr ⟨rfl, ih⟩)
    | differs start cs ds hlt =>
      induction start with
      | nil => exact List.cons_lt_cons_iff.mpr (Or.inl hlt)
      | cons d start ih => exact List.cons_lt_cons_iff.mpr (Or.inr ⟨rfl, ih⟩)

namespace Value

def isNaN : Value → Bool
  | float x => x.isNaN
  | _ => false

/-! ## The order of values -/

/-- The first value is smaller than the second one, which has the same type. -/
inductive Below : Value → Value → Prop
  | int {a b : Int64} : a < b → Below (int a) (int b)
  | float {x y : Binary64} : x.isNaN = false ∧ y.isNaN = false → x.rank < y.rank → Below (float x) (float y)
  | string {s t : String} : s < t → Below (string s) (string t)
  | bool : Below (bool false) (bool true)

inductive Alike : Value → Value → Prop
  | int (a : Int64) : Alike (int a) (int a)
  | float {x y : Binary64} : x.isNaN = false ∧ y.isNaN = false → x.rank = y.rank → Alike (float x) (float y)
  | string (s : String) : Alike (string s) (string s)
  | bool (a : Bool) : Alike (bool a) (bool a)
  | nil : Alike nil nil

section
variable {a b c : Value}

theorem below_of_compare (h : a.compare? b = some (some .lt)) : a.Below b := by
  unfold compare? at h
  split at h
  · exact .int (compareOfLessAndEq_eq_lt.mp (Option.some.inj (Option.some.inj h)))
  · obtain ⟨hnan, hlt⟩ := Binary64.compare_lt_iff.mp (Option.some.inj h)
    exact .float hnan hlt
  · exact .string (compareOfLessAndEq_eq_lt.mp (Option.some.inj (Option.some.inj h)))
  · rename_i p q
    cases p <;> cases q <;> cases h
    exact .bool
  · cases h

theorem compare_eq_lt_iff : a.compare? b = some (some .lt) ↔ a.Below b := by
  refine ⟨below_of_compare, fun h => ?_⟩
  cases h with
  | int hlt | string hlt => exact congrArg (some ∘ some) (compareOfLessAndEq_eq_lt.mpr hlt)
  | float hnan hlt => exact congrArg some (Binary64.compare_lt_iff.mpr ⟨hnan, hlt⟩)
  | bool => rfl

theorem compare_swap (a b : Value) : b.compare? a = (a.compare? b).map (Option.map Ordering.swap) := by
  cases a with
  | int n =>
    cases b with
    | int k => exact congrArg (some ∘ some) Std.OrientedCmp.eq_swap
    | _ => rfl
  | float x =>
    cases b with
    | float y => exact congrArg some (Binary64.compare_swap x y)
    | _ => rfl
  | string s =>
    cases b with
    | string t => exact congrArg (some ∘ some) Std.OrientedCmp.eq_swap
    | _ => rfl
  | bool p =>
    cases b with
    | bool q => exact congrArg (some ∘ some) Std.OrientedCmp.eq_swap
    | _ => rfl
  | nil => cases b <;> rfl

theorem ordered_eq_true_iff {o : Ordering} : a.ordered? o b = some true ↔ a.compare? b = some (some o) := by
  unfold ordered?
  cases a.compare? b <;> simp

theorem ordered_swap (o : Ordering) (a b : Value) : b.ordered? o.swap a = a.ordered? o b := by
  unfold ordered?
  rw [compare_swap a b]
  rcases a.compare? b with _ | _ | o'
  · rfl
  · rfl
  · cases o <;> cases o' <;> rfl

theorem alike_of_equal (h : a.equal? b = some true) : a.Alike b := by
  unfold equal? at h
  split at h
  · obtain rfl := of_decide_eq_true (Option.some.inj h)
    exact .nil
  · obtain rfl := of_decide_eq_true (Option.some.inj h)
    exact .nil
  · obtain rfl := of_decide_eq_true (Option.some.inj h)
    exact .int _
  · obtain ⟨hnan, heq⟩ := Binary64.compare_eq_iff.mp (of_decide_eq_true (Option.some.inj h))
    exact .float hnan heq
  · obtain rfl := of_decide_eq_true (Option.some.inj h)
    exact .string _
  · obtain rfl := of_decide_eq_true (Option.some.inj h)
    exact .bool _
  · cases h

theorem equal_eq_true_iff : a.equal? b = some true ↔ a.Alike b := by
  refine ⟨alike_of_equal, fun h => ?_⟩
  cases h with
  | float hnan heq => exact congrArg some (decide_eq_true (Binary64.compare_eq_iff.mpr ⟨hnan, heq⟩))
  | int | string | bool => exact congrArg some (decide_eq_true rfl)
  | nil => rfl

theorem isSome_ordered {o : Ordering} : (a.ordered? o b).isSome = true ↔ a.type = b.type ∧ a.type ≠ .nil := by
  cases a <;> cases b <;> simp [ordered?, compare?, type]

theorem isSome_equal : (a.equal? b).isSome = true ↔ a.type = b.type ∨ a.type = .nil ∨ b.type = .nil := by
  cases a <;> cases b <;> simp [equal?, type]

/-! ## Laws of the two relations -/

theorem not_below_self (a : Value) : ¬ a.Below a := by
  rintro (hlt | ⟨-, hlt⟩ | hlt)
  · exact Int64.lt_irrefl hlt
  · exact Int.lt_irrefl _ hlt
  · exact String.lt_irrefl _ hlt

theorem Below.trans (hab : a.Below b) (hbc : b.Below c) : a.Below c := by
  cases hab with
  | int hab =>
    cases hbc with
    | int hbc => exact .int (Int64.lt_trans hab hbc)
  | float hnan hab =>
    cases hbc with
    | float hnan' hbc => exact .float ⟨hnan.1, hnan'.2⟩ (Int.lt_trans hab hbc)
  | string hab =>
    cases hbc with
    | string hbc => exact .string (String.lt_trans hab hbc)
  | bool => cases hbc

theorem Alike.symm (h : a.Alike b) : b.Alike a := by
  cases h with
  | float hnan heq => exact .float hnan.symm heq.symm
  | int | string | bool | nil => constructor

theorem Alike.trans (hab : a.Alike b) (hbc : b.Alike c) : a.Alike c := by
  cases hab with
  | float hnan hab =>
    cases hbc with
    | float hnan' hbc => exact .float ⟨hnan.1, hnan'.2⟩ (hab.trans hbc)
  | int | string | bool | nil => exact hbc

theorem Below.not_alike (h : a.Below b) : ¬ a.Alike b := by
  cases h with
  | int hlt =>
    rintro ⟨⟩
    exact Int64.lt_irrefl hlt
  | float hnan hlt =>
    rintro (- | ⟨-, heq⟩)
    exact absurd heq (Int.ne_of_lt hlt)
  | string hlt =>
    rintro ⟨⟩
    exact String.lt_irrefl _ hlt
  | bool => nofun

theorem Below.asymm (h : a.Below b) : ¬ b.Below a := fun hba => not_below_self a (h.trans hba)

theorem alike_self_iff : a.Alike a ↔ a.isNaN = false := by
  cases a with
  | float x =>
    constructor
    · rintro (- | ⟨hnan, -⟩)
      exact hnan.1
    · exact fun hnan => .float ⟨hnan, hnan⟩ rfl
  | int | string | bool | nil => exact iff_of_true (by constructor) rfl

theorem equal_comm (a b : Value) : a.equal? b = b.equal? a := by
  have hsome : (a.equal? b).isSome = true ↔ (b.equal? a).isSome = true := by
    rw [isSome_equal, isSome_equal, eq_comm, or_comm (a := a.type = .nil)]
  have htrue : a.equal? b = some true ↔ b.equal? a = some true := by
    rw [equal_eq_true_iff, equal_eq_true_iff]
    exact ⟨Alike.symm, Alike.symm⟩
  revert hsome htrue
  rcases a.equal? b with _ | _ | _ <;> rcases b.equal? a with _ | _ | _ <;> simp

theorem below_or_alike (htype : a.type = b.type) (hnil : a.type ≠ .nil) (ha : a.isNaN = false)
    (hb : b.isNaN = false) : a.Below b ∨ a.Alike b ∨ b.Below a := by
  cases a with
  | int n =>
    cases b with
    | int k =>
      rcases Int.lt_trichotomy n.toInt k.toInt with hlt | heq | hlt
      · exact Or.inl (.int (Int64.lt_iff_toInt_lt.mpr hlt))
      · obtain rfl := Int64.toInt_inj.mp heq
        exact Or.inr (Or.inl (.int n))
      · exact Or.inr (Or.inr (.int (Int64.lt_iff_toInt_lt.mpr hlt)))
    | _ => cases htype
  | float x =>
    cases b with
    | float y =>
      rcases Int.lt_trichotomy x.rank y.rank with hlt | heq | hlt
      · exact Or.inl (.float ⟨ha, hb⟩ hlt)
      · exact Or.inr (Or.inl (.float ⟨ha, hb⟩ heq))
      · exact Or.inr (Or.inr (.float ⟨hb, ha⟩ hlt))
    | _ => cases htype
  | string s =>
    cases b with
    | string t =>
      by_cases hlt : s < t
      · exact Or.inl (.string hlt)
      · by_cases heq : s = t
        · obtain rfl := heq
          exact Or.inr (Or.inl (.string s))
        · exact Or.inr (Or.inr (.string (lt_of_not_lt_of_ne hlt heq)))
    | _ => cases htype
  | bool p =>
    cases b with
    | bool q =>
      cases p <;> cases q
      · exact Or.inr (Or.inl (.bool false))
      · exact Or.inl .bool
      · exact Or.inr (Or.inr .bool)
      · exact Or.inr (Or.inl (.bool true))
    | _ => cases htype
  | nil => exact absurd rfl hnil

end

end Value

/-! ## Opcodes that compare -/

/-- The opcode gives true for the two values. -/
def Holds (op : Opcode) (a b : Value) : Prop := evaluate op [a, b] = .ok (.bool true)

theorem evaluate_truth {op : Opcode} {vs : List Value} {x : Option Bool}
    (h : result? op vs = x.map fun r => .ok (.bool r)) {v : Value} :
    evaluate op vs = .ok v ↔ ∃ r, x = some r ∧ .bool r = v := by
  rw [evaluate, h]
  cases x <;> simp

theorem evaluate_truth_ok {op : Opcode} {vs : List Value} {x : Option Bool}
    (h : result? op vs = x.map fun r => .ok (.bool r)) : (∃ v, evaluate op vs = .ok v) ↔ x.isSome = true := by
  constructor
  · rintro ⟨v, hv⟩
    obtain ⟨r, hr, -⟩ := (evaluate_truth h).mp hv
    exact Option.isSome_iff_exists.mpr ⟨r, hr⟩
  · intro hx
    obtain ⟨r, hr⟩ := Option.isSome_iff_exists.mp hx
    exact ⟨.bool r, (evaluate_truth h).mpr ⟨r, hr, rfl⟩⟩

section
variable {a b : Value}

theorem holds_lt_iff : Holds .lt a b ↔ a.Below b := by
  rw [← Value.compare_eq_lt_iff, ← Value.ordered_eq_true_iff, Holds, evaluate_truth rfl]
  simp

theorem evaluate_gt_iff {v : Value} : evaluate .gt [b, a] = .ok v ↔ evaluate .lt [a, b] = .ok v := by
  rw [evaluate_truth rfl, evaluate_truth rfl, ← Value.ordered_swap .lt a b]
  rfl

theorem holds_gt_iff : Holds .gt a b ↔ b.Below a := by
  rw [Holds, evaluate_gt_iff]
  exact holds_lt_iff

theorem holds_eq_iff : Holds .eq a b ↔ a.Alike b := by
  rw [← Value.equal_eq_true_iff, Holds, evaluate_truth rfl]
  simp

theorem exactly_one_holds (htype : a.type = b.type) (hnil : a.type ≠ .nil) (ha : a.isNaN = false)
    (hb : b.isNaN = false) :
    (Holds .lt a b ∧ ¬ Holds .eq a b ∧ ¬ Holds .gt a b) ∨ (¬ Holds .lt a b ∧ Holds .eq a b ∧ ¬ Holds .gt a b) ∨
      (¬ Holds .lt a b ∧ ¬ Holds .eq a b ∧ Holds .gt a b) := by
  rw [holds_lt_iff, holds_eq_iff, holds_gt_iff]
  rcases Value.below_or_alike htype hnil ha hb with h | h | h
  · exact Or.inl ⟨h, h.not_alike, h.asymm⟩
  · exact Or.inr (Or.inl ⟨fun hab => hab.not_alike h, h, fun hba => hba.not_alike h.symm⟩)
  · exact Or.inr (Or.inr ⟨h.asymm, fun hab => h.not_alike hab.symm, h⟩)

theorem holds_lt_string_iff {s t : String} :
    Holds .lt (.string s) (.string t) ↔ Text.Precedes s.toList t.toList := by
  rw [holds_lt_iff, ← Text.lt_iff_precedes, ← String.lt_iff]
  constructor
  · rintro (_ | _ | hlt)
    exact hlt
  · exact .string

end

end FrameMachine
