import FrameMachine.Numeral
import Mathlib.Algebra.Ring.Nat
import Mathlib.Data.List.Forall2
import Mathlib.Data.Nat.Digits.Defs
import Mathlib.Data.Nat.Log
import Mathlib.Tactic.IntervalCases
import Mathlib.Tactic.Ring

/-!
# Numerals that are read back

The digits of a number, written with a fixed width (`digits_padded`) or without leading zeros
(`read_toDigits`), are read as that number. A text is read as a number exactly if it spells that number
(`read_eq_some_iff`).
-/

namespace FrameMachine.Numeral

/-! ## Digits -/

/-- The bases in which numbers can be written. -/
def IsBase (base : Nat) : Prop := 1 < base ∧ base ≤ 16

theorem isBase_eight : IsBase 8 := ⟨by decide, by decide⟩

theorem isBase_ten : IsBase 10 := ⟨by decide, by decide⟩

theorem isBase_sixteen : IsBase 16 := ⟨by decide, by decide⟩

theorem digit_digitChar {base d : Nat} (hbase : IsBase base) (hd : d < base) :
    digit? base d.digitChar = some d := by
  have h16 : d < 16 := Nat.lt_of_lt_of_le hd hbase.2
  interval_cases d <;> simp [digit?, Nat.digitChar, hd]

theorem digits_append {base : Nat} {cs ds : List Char} {xs ys : List Nat} (hcs : digits? base cs = some xs)
    (hds : digits? base ds = some ys) : digits? base (cs ++ ds) = some (xs ++ ys) := by
  unfold digits? at *
  rw [List.mapM_append, hcs, hds]
  rfl

theorem digits_of_append {base : Nat} {cs ds : List Char} {zs : List Nat}
    (h : digits? base (cs ++ ds) = some zs) :
    ∃ xs ys, digits? base cs = some xs ∧ digits? base ds = some ys ∧ zs = xs ++ ys := by
  unfold digits? at *
  rw [List.mapM_append] at h
  cases hcs : cs.mapM (digit? base) with
  | none => rw [hcs] at h; cases h
  | some xs =>
    cases hds : ds.mapM (digit? base) with
    | none => rw [hcs, hds] at h; cases h
    | some ys =>
      rw [hcs, hds] at h
      exact ⟨xs, ys, rfl, rfl, (Option.some.inj h).symm⟩

theorem digits_singleton {base d : Nat} (hbase : IsBase base) (hd : d < base) :
    digits? base [d.digitChar] = some [d] := by
  simp [digits?, digit_digitChar hbase hd]

theorem digits_zeros {base : Nat} (hbase : IsBase base) (k : Nat) :
    digits? base (List.replicate k '0') = some (List.replicate k 0) := by
  have hzero : digit? base '0' = some 0 := digit_digitChar hbase (Nat.zero_lt_of_lt hbase.1)
  induction k with
  | zero => rfl
  | succ k ih =>
    unfold digits? at *
    rw [List.replicate_succ, List.mapM_cons, hzero, ih]
    rfl

theorem digits_length {base : Nat} {cs : List Char} {ds : List Nat} (h : digits? base cs = some ds) :
    ds.length = cs.length := by
  induction cs generalizing ds with
  | nil =>
    obtain rfl := Option.some.inj h
    rfl
  | cons c cs ih =>
    obtain ⟨xs, ys, hx, hy, rfl⟩ := @digits_of_append base [c] cs ds h
    have hone : xs.length = 1 := by
      simp only [digits?, List.mapM_cons, List.mapM_nil] at hx
      cases hc : digit? base c with
      | none => rw [hc] at hx; cases hx
      | some d =>
        rw [hc] at hx
        obtain rfl := Option.some.inj hx
        rfl
    simp [hone, ih hy, Nat.add_comm]

theorem ne_of_digits {base : Nat} {cs : List Char} {ds : List Nat} (h : digits? base cs = some ds)
    {x : Char} (hx : digit? base x = none) : ∀ c ∈ cs, c ≠ x := by
  induction cs generalizing ds with
  | nil => simp
  | cons c cs ih =>
    obtain ⟨xs, ys, hc, hcs, -⟩ := @digits_of_append base [c] cs ds h
    intro d hd
    rcases List.mem_cons.mp hd with rfl | hd
    · rintro rfl
      simp [digits?, hx] at hc
    · exact ih hcs d hd

/-! ## Values -/

theorem foldl_digits (base n : Nat) (ds : List Nat) :
    ds.foldl (fun n d => base * n + d) n = n * base ^ ds.length + value base ds := by
  induction ds generalizing n with
  | nil => simp [value]
  | cons d ds ih =>
    have hzero := ih (base * 0 + d)
    simp only [value, List.foldl_cons, List.length_cons, pow_succ] at *
    rw [ih, hzero]
    ring

theorem value_append (base : Nat) (xs ys : List Nat) :
    value base (xs ++ ys) = value base xs * base ^ ys.length + value base ys := by
  rw [value, List.foldl_append, foldl_digits]
  rfl

theorem value_cons (base d : Nat) (ds : List Nat) :
    value base (d :: ds) = d * base ^ ds.length + value base ds := by
  have h := value_append base [d] ds
  simpa [value] using h

theorem value_zeros (base k : Nat) : value base (List.replicate k 0) = 0 := by
  induction k with
  | zero => rfl
  | succ k ih => simp [List.replicate_succ, value_cons, ih]

theorem value_dropWhile_zero (base : Nat) (ds : List Nat) :
    value base (ds.dropWhile (· == 0)) = value base ds := by
  induction ds with
  | nil => rfl
  | cons d ds ih =>
    by_cases hd : d = 0
    · simp [hd, ih, value_cons]
    · simp [hd]

/-! ## Written numbers -/

theorem digits_padded {base : Nat} (hbase : IsBase base) (width n : Nat) :
    ∃ ds, digits? base (padded base width n) = some ds ∧ value base ds = n % base ^ width := by
  induction width generalizing n with
  | zero => exact ⟨[], rfl, by simp [value, Nat.mod_one]⟩
  | succ width ih =>
    obtain ⟨ds, hds, hvalue⟩ := ih (n / base)
    have hlast := digits_singleton hbase (Nat.mod_lt n (Nat.zero_lt_of_lt hbase.1))
    refine ⟨ds ++ [n % base], digits_append hds hlast, ?_⟩
    rw [value_append, hvalue, List.length_singleton, pow_one, pow_succ, Nat.mul_comm (base ^ width), Nat.mod_mul]
    simp [value]
    ring

theorem digits_toDigits {base : Nat} (hbase : IsBase base) (n : Nat) :
    ∃ ds, digits? base (Nat.toDigits base n) = some ds ∧ value base ds = n := by
  induction n using Nat.base_induction base hbase.1 with
  | single m hm => exact ⟨[m], by rw [Nat.toDigits_of_lt_base hm, digits_singleton hbase hm], by simp [value]⟩
  | digit m k hk hm ih =>
    obtain ⟨ds, hds, hvalue⟩ := ih
    rw [← Nat.toDigits_append_toDigits hbase.1 hm hk, Nat.toDigits_of_lt_base hk]
    refine ⟨ds ++ [k], digits_append hds (digits_singleton hbase hk), ?_⟩
    rw [value_append, hvalue]
    simp [value]
    ring

theorem read_toDigits {base : Nat} (hbase : IsBase base) (n : Nat) :
    read? base (Nat.toDigits base n) = some n := by
  obtain ⟨ds, hds, hvalue⟩ := digits_toDigits hbase n
  simp [read?, hds, hvalue]

/-! ## What numerals denote -/

/-- The character is the digit of the given value; letters count in either case. -/
def IsDigit (base : Nat) (c : Char) (d : Nat) : Prop :=
  d < base ∧ (c = d.digitChar ∨ c = d.digitChar.toUpper)

/-- The text is a non-empty string of digits, and they denote the number. -/
def Spells (base : Nat) (cs : List Char) (n : Nat) : Prop :=
  cs ≠ [] ∧ ∃ ds, List.Forall₂ (IsDigit base) cs ds ∧ Nat.ofDigits base ds.reverse = n

theorem isDigit_of_digit {base : Nat} {c : Char} {d : Nat} (h : digit? base c = some d) : IsDigit base c d := by
  unfold digit? at h
  by_cases hdecimal : '0' ≤ c ∧ c ≤ '9'
  · have hlow : 48 ≤ c.toNat := hdecimal.1
    have hhigh : c.toNat ≤ 57 := hdecimal.2
    simp only [hdecimal, and_self, ite_true, Option.ite_none_right_eq_some, Option.some.injEq] at h
    obtain ⟨hd, rfl⟩ := h
    refine ⟨hd, Or.inl ?_⟩
    rw [← Char.ofNat_toNat c]
    generalize c.toNat = n at hlow hhigh
    interval_cases n <;> rfl
  · by_cases hlower : 'a' ≤ c ∧ c ≤ 'f'
    · have hlow : 97 ≤ c.toNat := hlower.1
      have hhigh : c.toNat ≤ 102 := hlower.2
      simp only [hdecimal, hlower, and_self, ite_true, ite_false, Option.ite_none_right_eq_some,
        Option.some.injEq] at h
      obtain ⟨hd, rfl⟩ := h
      refine ⟨hd, Or.inl ?_⟩
      rw [← Char.ofNat_toNat c]
      generalize c.toNat = n at hlow hhigh
      interval_cases n <;> rfl
    · by_cases hupper : 'A' ≤ c ∧ c ≤ 'F'
      · have hlow : 65 ≤ c.toNat := hupper.1
        have hhigh : c.toNat ≤ 70 := hupper.2
        simp only [hdecimal, hlower, hupper, and_self, ite_true, ite_false, Option.ite_none_right_eq_some,
          Option.some.injEq] at h
        obtain ⟨hd, rfl⟩ := h
        refine ⟨hd, Or.inr ?_⟩
        rw [← Char.ofNat_toNat c]
        generalize c.toNat = n at hlow hhigh
        interval_cases n <;> rfl
      · simp [hdecimal, hlower, hupper] at h

theorem digit_eq_some_iff {base : Nat} (hbase : IsBase base) {c : Char} {d : Nat} :
    digit? base c = some d ↔ IsDigit base c d := by
  refine ⟨isDigit_of_digit, ?_⟩
  rintro ⟨hd, rfl | rfl⟩
  · exact digit_digitChar hbase hd
  · have h16 : d < 16 := Nat.lt_of_lt_of_le hd hbase.2
    have hupper : d.digitChar.toUpper = if d < 10 then d.digitChar else Char.ofNat (d + 55) := by
      interval_cases d <;> rfl
    rw [hupper]
    split
    · exact digit_digitChar hbase hd
    · rename_i hletter
      have hletter' : 10 ≤ d := not_lt.mp hletter
      interval_cases d <;> simp +decide [digit?, hd]

theorem digits_eq_some_iff {base : Nat} (hbase : IsBase base) {cs : List Char} {ds : List Nat} :
    digits? base cs = some ds ↔ List.Forall₂ (IsDigit base) cs ds := by
  unfold digits?
  induction cs generalizing ds with
  | nil => simp [eq_comm]
  | cons c cs ih =>
    rw [List.mapM_cons, List.forall₂_cons_left_iff]
    constructor
    · intro h
      obtain ⟨d, hd, h⟩ := Option.bind_eq_some_iff.mp h
      obtain ⟨xs, hxs, h⟩ := Option.bind_eq_some_iff.mp h
      exact ⟨d, xs, (digit_eq_some_iff hbase).mp hd, ih.mp hxs, (Option.some.inj h).symm⟩
    · rintro ⟨d, xs, hd, hxs, rfl⟩
      rw [(digit_eq_some_iff hbase).mpr hd, ih.mpr hxs]
      rfl

theorem lt_of_digits {base : Nat} (hbase : IsBase base) {cs : List Char} {ds : List Nat}
    (h : digits? base cs = some ds) :
    ∀ d ∈ ds, d < base := by
  induction (digits_eq_some_iff hbase).mp h with
  | nil => simp
  | cons hc hcs ih =>
    intro d hd
    rcases List.mem_cons.mp hd with rfl | hd
    · exact hc.1
    · exact ih ((digits_eq_some_iff hbase).mpr hcs) d hd

theorem value_eq_ofDigits (base : Nat) (ds : List Nat) : value base ds = Nat.ofDigits base ds.reverse := by
  induction ds with
  | nil => rfl
  | cons d ds ih =>
    rw [value_cons, ih, List.reverse_cons, Nat.ofDigits_append, Nat.ofDigits_singleton, List.length_reverse]
    ring

theorem read_eq_some_iff {base : Nat} (hbase : IsBase base) {cs : List Char} {n : Nat} :
    read? base cs = some n ↔ Spells base cs n := by
  unfold read? Spells
  by_cases hcs : cs = []
  · simp [hcs]
  · simp only [List.isEmpty_iff, hcs, ite_false, Option.map_eq_some_iff, digits_eq_some_iff hbase,
      value_eq_ofDigits, ne_eq, not_false_eq_true, true_and]

/-! ## Signs -/

/-- An optional sign, and whether it is a minus. -/
inductive Sign : List Char → Bool → Prop
  | absent : Sign [] false
  | plus : Sign ['+'] false
  | minus : Sign ['-'] true

theorem exists_sign (cs : List Char) :
    ∃ sign negative rest, Sign sign negative ∧ cs = sign ++ rest ∧ splitSign cs = (negative, rest) := by
  unfold splitSign
  split
  · exact ⟨['-'], true, _, .minus, rfl, rfl⟩
  · exact ⟨['+'], false, _, .plus, rfl, rfl⟩
  · exact ⟨[], false, cs, .absent, rfl, rfl⟩

theorem splitSign_append {sign rest : List Char} {negative : Bool} (h : Sign sign negative)
    (hrest : splitSign rest = (false, rest)) : splitSign (sign ++ rest) = (negative, rest) := by
  cases h with
  | absent => exact hrest
  | plus => rfl
  | minus => rfl

theorem fitsWord_iff {n : Int} : fitsWord n = true ↔ -2 ^ 63 ≤ n ∧ n < 2 ^ 63 := by
  simp only [fitsWord, Bool.and_eq_true, decide_eq_true_eq]
  omega

end FrameMachine.Numeral
