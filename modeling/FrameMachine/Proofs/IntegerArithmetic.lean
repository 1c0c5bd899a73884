import FrameMachine.Evaluate
import Mathlib.Algebra.Order.Ring.Int
import Mathlib.Data.Int.ModEq

/-!
# Integer arithmetic at its limits

Words are integers modulo `2 ^ 64`, and the map from integers to words keeps sums, differences and products
(`modEq_iff_eq_ofInt`). A quotient that does not fit therefore does no harm to what is computed from it: the
remainder `a - a / b * b` is the exact one, which always fits (`sub_div_mul`).
-/

namespace FrameMachine

/-! ## Words and integers -/

theorem modEq_iff_eq_ofInt {w : Int64} {n : Int} : w.toInt ≡ n [ZMOD 2 ^ 64] ↔ w = Int64.ofInt n := by
  rw [eq_comm, Int64.ofInt_eq_iff_bmod_eq_toInt, Int.ModEq]
  constructor
  · intro h
    calc n.bmod (2 ^ 64) = (n % 2 ^ 64).bmod (2 ^ 64) := (Int.emod_bmod n _).symm
      _ = (w.toInt % 2 ^ 64).bmod (2 ^ 64) := by rw [h]
      _ = w.toInt.bmod (2 ^ 64) := Int.emod_bmod _ _
      _ = w.toInt := Int64.toInt_bmod w
  · intro h
    rw [← h]
    exact Int.bmod_emod

/-- The word is congruent to the number modulo `2 ^ 64`, and no other word is. -/
def OnlyCongruent (c : Int64) (n : Int) : Prop := ∀ w : Int64, w.toInt ≡ n [ZMOD 2 ^ 64] ↔ w = c

theorem onlyCongruent_of_ofInt {c : Int64} {n : Int} (h : Int64.ofInt n = c) : OnlyCongruent c n := by
  intro w
  rw [modEq_iff_eq_ofInt, h]

/-! ## Quotient and remainder -/

theorem toInt_div_eq (a b : Int64) :
    (a / b).toInt = if a.toInt = -2 ^ 63 ∧ b.toInt = -1 then -2 ^ 63 else a.toInt.tdiv b.toInt := by
  split
  · rename_i h
    have ha : a = Int64.minValue := Int64.toInt_inj.mp h.1
    have hb : b = -1 := Int64.toInt_inj.mp h.2
    rw [ha, hb, Int64.minValue_div_neg_one]
    rfl
  · rename_i h
    by_cases ha : a = Int64.minValue
    · have hb : b ≠ -1 := by
        rintro rfl
        exact h ⟨by rw [ha]; rfl, rfl⟩
      exact Int64.toInt_div_of_ne_right a b hb
    · exact Int64.toInt_div_of_ne_left a b ha

theorem ofInt_tdiv_toInt (a b : Int64) : Int64.ofInt (a.toInt.tdiv b.toInt) = a / b := by
  rw [Int64.ofInt_eq_iff_bmod_eq_toInt, Int64.toInt_div]

theorem sub_div_mul (a b : Int64) : a - a / b * b = a % b := by
  have hexact : a.toInt - a.toInt.tdiv b.toInt * b.toInt = (a % b).toInt := by
    rw [Int64.toInt_mod, Int.tmod_def, Int.mul_comm]
  calc a - a / b * b = Int64.ofInt (a.toInt - a.toInt.tdiv b.toInt * b.toInt) := by
        rw [Int64.ofInt_sub, Int64.ofInt_mul, ofInt_tdiv_toInt, Int64.ofInt_toInt, Int64.ofInt_toInt]
    _ = a % b := by rw [hexact, Int64.ofInt_toInt]

theorem abs_toInt_mod_lt (a : Int64) {b : Int64} (hb : b ≠ 0) : |(a % b).toInt| < |b.toInt| := by
  have hne : b.toInt ≠ 0 := fun h => hb (Int64.toInt_inj.mp h)
  have hlt : a.toInt.natAbs % b.toInt.natAbs < b.toInt.natAbs := Nat.mod_lt _ (Int.natAbs_pos.mpr hne)
  rw [Int64.toInt_mod, Int.abs_eq_natAbs, Int.abs_eq_natAbs, Int.natAbs_tmod]
  exact_mod_cast hlt

theorem sign_toInt_mod (a b : Int64) : a % b = 0 ∨ (a % b).toInt.sign = a.toInt.sign := by
  by_cases hdvd : b.toInt ∣ a.toInt
  · left
    have hzero : (a % b).toInt = 0 := by rw [Int64.toInt_mod, Int.tmod_eq_zero_of_dvd hdvd]
    exact Int64.toInt_inj.mp hzero
  · right
    rw [Int64.toInt_mod, Int.sign_tmod, if_neg hdvd]

/-! ## The opcodes -/

theorem evaluate_idiv (a b : Int64) :
    evaluate .idiv [.int a, .int b] = if b = 0 then .error .divisionByZero else .ok (.int (a / b)) := rfl

theorem evaluate_idiv_eq_error_iff (a b : Int64) (f : Fault) :
    evaluate .idiv [.int a, .int b] = .error f ↔ b = 0 ∧ f = .divisionByZero := by
  rw [evaluate_idiv]
  by_cases hb : b = 0
  · simp [hb, eq_comm]
  · simp [hb]

/-- Sums, differences and products wrap around, division truncates, and the remainder made of the four opcodes
is exact even where the quotient wraps around. -/
theorem integer_arithmetic (a b : Int64) :
    (∃ c, evaluate .add [.int a, .int b] = .ok (.int c) ∧ OnlyCongruent c (a.toInt + b.toInt)) ∧
      (∃ c, evaluate .sub [.int a, .int b] = .ok (.int c) ∧ OnlyCongruent c (a.toInt - b.toInt)) ∧
      (∃ c, evaluate .mul [.int a, .int b] = .ok (.int c) ∧ OnlyCongruent c (a.toInt * b.toInt)) ∧
      (∀ f, evaluate .idiv [.int a, .int b] = .error f ↔ b = 0 ∧ f = .divisionByZero) ∧
      (b ≠ 0 → ∃ q m r,
        evaluate .idiv [.int a, .int b] = .ok (.int q) ∧
        q.toInt = (if a.toInt = -2 ^ 63 ∧ b.toInt = -1 then -2 ^ 63 else a.toInt.tdiv b.toInt) ∧
        evaluate .mul [.int q, .int b] = .ok (.int m) ∧
        evaluate .sub [.int a, .int m] = .ok (.int r) ∧
        |r.toInt| < |b.toInt| ∧ (r = 0 ∨ r.toInt.sign = a.toInt.sign) ∧
        evaluate .add [.int m, .int r] = .ok (.int a)) := by
  have hadd : OnlyCongruent (a + b) (a.toInt + b.toInt) := onlyCongruent_of_ofInt (by simp [Int64.ofInt_add])
  have hsub : OnlyCongruent (a - b) (a.toInt - b.toInt) := onlyCongruent_of_ofInt (by simp [Int64.ofInt_sub])
  have hmul : OnlyCongruent (a * b) (a.toInt * b.toInt) := onlyCongruent_of_ofInt (by simp [Int64.ofInt_mul])
  refine ⟨⟨a + b, rfl, hadd⟩, ⟨a - b, rfl, hsub⟩, ⟨a * b, rfl, hmul⟩, evaluate_idiv_eq_error_iff a b, fun hb => ?_⟩
  refine ⟨a / b, a / b * b, a - a / b * b, ?_, toInt_div_eq a b, rfl, rfl, ?_, ?_, ?_⟩
  · rw [evaluate_idiv, if_neg hb]
  · rw [sub_div_mul]
    exact abs_toInt_mod_lt a hb
  · rw [sub_div_mul]
    exact sign_toInt_mod a b
  · show Except.ok (Value.int (a / b * b + (a - a / b * b))) = _
    rw [Int64.add_comm, Int64.sub_add_cancel]

/-- The quotient of the least word and minus one wraps around and leaves no remainder; between numbers of
different signs the quotient is rounded towards zero. -/
theorem integer_arithmetic_overflow :
    (∃ q m r, evaluate .idiv [.int Int64.minValue, .int (-1)] = .ok (.int q) ∧ q.toInt = -2 ^ 63 ∧
        evaluate .mul [.int q, .int (-1)] = .ok (.int m) ∧
        evaluate .sub [.int Int64.minValue, .int m] = .ok (.int r) ∧
        r.toInt = 0 ∧ evaluate .add [.int m, .int r] = .ok (.int Int64.minValue)) ∧
      ∃ q m r, evaluate .idiv [.int (-7), .int 2] = .ok (.int q) ∧ q.toInt = -3 ∧
        evaluate .mul [.int q, .int 2] = .ok (.int m) ∧ evaluate .sub [.int (-7), .int m] = .ok (.int r) ∧
        |r.toInt| < 2 ∧ evaluate .add [.int m, .int r] = .ok (.int (-7)) := by
  have hleast := (integer_arithmetic Int64.minValue (-1)).2.2.2.2 (by decide)
  have hmixed := (integer_arithmetic (-7) 2).2.2.2.2 (by decide)
  obtain ⟨q, m, r, hq, hquotient, hm, hr, hlt, -, hback⟩ := hleast
  obtain ⟨q', m', r', hq', hquotient', hm', hr', hlt', -, hback'⟩ := hmixed
  refine ⟨⟨q, m, r, hq, hquotient, hm, hr, ?_, hback⟩, q', m', r', hq', hquotient', hm', hr', hlt', hback'⟩
  exact Int.abs_lt_one_iff.mp hlt

end FrameMachine
