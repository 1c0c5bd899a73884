import FrameMachine.Binary64.Nearest
import Mathlib.Algebra.Order.Field.Power
import Mathlib.Data.Int.Log
import Mathlib.Data.Rat.Floor
import Mathlib.Tactic.FieldSimp
import Mathlib.Tactic.Linarith
import Mathlib.Tactic.NormNum
import Mathlib.Tactic.Positivity
import Mathlib.Tactic.Ring

/-!
# Binades, significands and magnitudes

The binade of a quotient is its logarithm (`binade_eq_log`). A positive finite number is a significand times a
power of two, in exactly one way (`Canonical`), and its magnitude is put together from the two
(`canonical_of_finite`, `Canonical.ofMagnitude_parts`).
-/

namespace FrameMachine.Binary64

/-! ## The binade of a quotient -/

theorem zpow_log2_le {n : Nat} (hn : n ≠ 0) : (2 : ℚ) ^ (n.log2 : Int) ≤ n := by
  rw [zpow_natCast]
  exact_mod_cast Nat.log2_self_le hn

theorem lt_zpow_log2 (n : Nat) : (n : ℚ) < 2 ^ ((n.log2 : Int) + 1) := by
  have h := @Nat.lt_log2_self n
  rw [show ((n.log2 : Int) + 1) = ((n.log2 + 1 : Nat) : Int) by push_cast; rfl, zpow_natCast]
  exact_mod_cast h

theorem two_zpow_eq (k : Int) : (2 : ℚ) ^ k = (Nat.pow 2 k.toNat : Nat) / (Nat.pow 2 (-k).toNat : Nat) := by
  rcases Int.le_total 0 k with hk | hk
  · lift k to Nat using hk
    simp
  · obtain ⟨j, rfl⟩ : ∃ j : Nat, k = -j := ⟨(-k).toNat, by omega⟩
    simp

theorem quotient_lt_iff {n d : Nat} (hd : 0 < d) (k : Int) :
    n * Nat.pow 2 (-k).toNat < d * Nat.pow 2 k.toNat ↔ (n / d : ℚ) < 2 ^ k := by
  have hd' : (0 : ℚ) < d := by exact_mod_cast hd
  have hp : (0 : ℚ) < (Nat.pow 2 (-k).toNat : Nat) := by exact_mod_cast Nat.two_pow_pos _
  rw [two_zpow_eq, div_lt_div_iff₀ hd' hp, mul_comm ((Nat.pow 2 k.toNat : Nat) : ℚ)]
  exact_mod_cast Iff.rfl

theorem binade_eq_log {n d : Nat} (hn : 0 < n) (hd : 0 < d) : binade n d = Int.log 2 (n / d : ℚ) := by
  have hn' : (0 : ℚ) < n := by exact_mod_cast hn
  have hd' : (0 : ℚ) < d := by exact_mod_cast hd
  have hq : (0 : ℚ) < n / d := by positivity
  have hnlo := zpow_log2_le hn.ne'
  have hnhi := lt_zpow_log2 n
  have hdlo := zpow_log2_le hd.ne'
  have hdhi := lt_zpow_log2 d
  generalize hk : (n.log2 : Int) - d.log2 = k
  -- The logarithms of the two numbers leave only the binade of `2 ^ k` and the one below it.
  have hlow : (2 : ℚ) ^ (k - 1) ≤ n / d := by
    rw [le_div_iff₀ hd']
    calc (2 : ℚ) ^ (k - 1) * d ≤ 2 ^ (k - 1) * 2 ^ ((d.log2 : Int) + 1) := by gcongr
      _ = 2 ^ (n.log2 : Int) := by rw [← zpow_add₀ two_ne_zero]; congr 1; omega
      _ ≤ n := hnlo
  have hhigh : (n / d : ℚ) < 2 ^ (k + 1) := by
    rw [div_lt_iff₀ hd']
    calc (n : ℚ) < 2 ^ ((n.log2 : Int) + 1) := hnhi
      _ = 2 ^ (k + 1) * 2 ^ (d.log2 : Int) := by rw [← zpow_add₀ two_ne_zero]; congr 1; omega
      _ ≤ 2 ^ (k + 1) * d := by gcongr
  have hlog1 : k - 1 ≤ Int.log 2 (n / d : ℚ) := (Int.zpow_le_iff_le_log one_lt_two hq).mp hlow
  have hlog2 : Int.log 2 (n / d : ℚ) < k + 1 := (Int.lt_zpow_iff_log_lt one_lt_two hq).mp hhigh
  unfold binade
  simp only [hk, quotient_lt_iff hd]
  by_cases hlt : (n / d : ℚ) < 2 ^ k
  · have hlog := (Int.lt_zpow_iff_log_lt one_lt_two hq).mp (by exact_mod_cast hlt)
    rw [if_pos hlt]
    omega
  · have hlog := (Int.zpow_le_iff_le_log one_lt_two hq).mp (by exact_mod_cast not_lt.mp hlt)
    rw [if_neg hlt]
    omega

/-! ## Significands and units -/

/-- The significands and unit exponents of positive finite numbers. -/
inductive Canonical : Nat → Int → Prop
  | normal {s : Nat} {u : Int} : exponentWeight ≤ s → s < 2 * exponentWeight → -1074 ≤ u → u ≤ 971 →
      Canonical s u
  | subnormal {s : Nat} : 0 < s → s < exponentWeight → Canonical s (-1074)

/-- The magnitude of the number with the given significand and unit exponent. -/
def compose (s : Nat) (u : Int) : Nat := (u + 1074).toNat * exponentWeight + s

theorem canonical_of_finite {x : Binary64} (hzero : x.magnitude ≠ 0) (hfinite : x.magnitude < infinite) :
    Canonical x.significand x.unitExponent ∧ compose x.significand x.unitExponent = x.magnitude := by
  have hdiv := Nat.div_add_mod x.magnitude exponentWeight
  have hmod : x.fraction < exponentWeight := Nat.mod_lt _ (by decide)
  have hfield : x.exponentField < 2047 := Nat.div_lt_of_lt_mul (by rw [Nat.mul_comm]; exact hfinite)
  change exponentWeight * x.exponentField + x.fraction = x.magnitude at hdiv
  unfold significand unitExponent compose
  by_cases h : x.exponentField = 0
  · simp only [h, ite_true, Nat.mul_zero, Nat.zero_add] at hdiv ⊢
    refine ⟨.subnormal (by omega) hmod, ?_⟩
    simpa using hdiv
  · simp only [h, ite_false]
    refine ⟨.normal (by omega) (by omega) (by omega) (by omega), ?_⟩
    have hindex : ((x.exponentField : Int) - 1075 + 1074).toNat = x.exponentField - 1 := by omega
    have hsplit : (x.exponentField - 1) * exponentWeight + exponentWeight = exponentWeight * x.exponentField := by
      rw [← Nat.succ_mul, Nat.mul_comm]
      congr 1
      omega
    rw [hindex]
    omega

section
variable {s : Nat} {u : Int} (h : Canonical s u)
include h

theorem Canonical.lt : s < 2 * exponentWeight := by
  cases h with
  | normal _ hs => exact hs
  | subnormal _ hs => omega

theorem Canonical.le_unit : -1074 ≤ u := by
  cases h with
  | normal _ _ hu => exact hu
  | subnormal => exact le_refl _

theorem Canonical.unit_le : u ≤ 971 := by
  cases h with
  | normal _ _ _ hu => exact hu
  | subnormal => decide

theorem Canonical.compose_lt : compose s u < infinite := by
  have hs := h.lt
  have hle : (u + 1074).toNat ≤ 2045 := by
    have := h.unit_le
    omega
  have hmul : (u + 1074).toNat * exponentWeight ≤ 2045 * exponentWeight := Nat.mul_le_mul_right _ hle
  unfold compose infinite
  omega

end

/-! ## Signs and magnitudes -/

theorem toNat_ofMagnitude (negative : Bool) {m : Nat} (hm : m < signWeight) :
    (ofMagnitude negative m).word.toNat = if negative then signWeight + m else m := by
  have hsize : signWeight + m < UInt64.size := by
    unfold signWeight at *
    simp only [UInt64.size]
    omega
  cases negative with
  | true => exact UInt64.toNat_ofNat_of_lt' hsize
  | false => exact UInt64.toNat_ofNat_of_lt' (show m < UInt64.size by omega)

theorem magnitude_ofMagnitude (negative : Bool) {m : Nat} (hm : m < signWeight) :
    (ofMagnitude negative m).magnitude = m := by
  rw [magnitude, toNat_ofMagnitude negative hm]
  cases negative with
  | true => simp [Nat.mod_eq_of_lt hm]
  | false => simp [Nat.mod_eq_of_lt hm]

theorem isNegative_ofMagnitude (negative : Bool) {m : Nat} (hm : m < signWeight) :
    (ofMagnitude negative m).isNegative = negative := by
  rw [isNegative, toNat_ofMagnitude negative hm]
  cases negative with
  | true => simp
  | false => simp [hm]

theorem Canonical.ofMagnitude_parts {s : Nat} {u : Int} (h : Canonical s u) {x : Binary64}
    (hx : x.magnitude = compose s u) : x.significand = s ∧ x.unitExponent = u := by
  unfold significand unitExponent exponentField fraction
  rw [hx]
  unfold compose
  cases h with
  | normal hge hlt hlow _ =>
    obtain ⟨f, rfl⟩ := Nat.exists_eq_add_of_le hge
    have hf : f < exponentWeight := by omega
    have hdiv : ((u + 1074).toNat * exponentWeight + (exponentWeight + f)) / exponentWeight =
        (u + 1074).toNat + 1 := by
      rw [← Nat.add_assoc, ← Nat.succ_mul, Nat.mul_comm, Nat.mul_add_div (by decide),
        Nat.div_eq_of_lt hf]
    have hmod : ((u + 1074).toNat * exponentWeight + (exponentWeight + f)) % exponentWeight = f := by
      rw [← Nat.add_assoc, ← Nat.succ_mul, Nat.mul_comm, Nat.mul_add_mod, Nat.mod_eq_of_lt hf]
    rw [hdiv, hmod]
    simp only [Nat.add_eq_zero_iff, one_ne_zero, and_false, ite_false, true_and]
    omega
  | subnormal hpos hlt =>
    simp [Nat.div_eq_of_lt hlt, Nat.mod_eq_of_lt hlt]

end FrameMachine.Binary64
