import FrameMachine.Proofs.Rounding

/-!
# The number nearest to a rational number

`IsNearest` says which number a rational number is rounded to: the nearest one, of two the one with an even
significand, and an infinity where the finite numbers end. `rounded` is the magnitude that the definitions
of rounding compute, as a function of the quotient alone (`nearest_eq`, `nearestScaled_eq`), and it is the
nearest one (`isNearest_ofRat`).
-/

namespace FrameMachine.Binary64

/-! ## Whole numbers of units -/

/-- The natural number nearest to `t`, the even one of two. -/
structure RoundsTo (t : ℚ) (k : Nat) : Prop where
  near : |t - k| ≤ 1 / 2
  even : |t - k| = 1 / 2 → Even k

theorem roundsTo_below {q : Nat} {f : ℚ} (hpos : 0 ≤ f) (hle : f ≤ 1 / 2) (heven : f = 1 / 2 → Even q) :
    RoundsTo (q + f) q := by
  have hdist : |(q : ℚ) + f - q| = f := by rw [add_sub_cancel_left, abs_of_nonneg hpos]
  exact ⟨by rwa [hdist], by rwa [hdist]⟩

theorem roundsTo_above {q : Nat} {f : ℚ} (hge : 1 / 2 ≤ f) (hone : f < 1) (heven : f = 1 / 2 → Even (q + 1)) :
    RoundsTo (q + f) (q + 1) := by
  have hdist : |(q : ℚ) + f - ((q + 1 : Nat) : ℚ)| = 1 - f := by
    push_cast
    rw [add_sub_add_left_eq_sub, abs_of_neg (by linarith), neg_sub]
  exact ⟨by rw [hdist]; linarith, fun htie => heven (by linarith)⟩

theorem roundsTo_self (k : Nat) : RoundsTo k k := by
  simpa using roundsTo_below (q := k) le_rfl (by norm_num) (by norm_num)

theorem roundsTo_roundDiv (n : Nat) {d : Nat} (hd : 0 < d) : RoundsTo (n / d) (roundDiv n d) := by
  have hd' : (0 : ℚ) < d := by exact_mod_cast hd
  have hsplit : (n : ℚ) / d = (n / d : Nat) + (n % d : Nat) / d := by
    have hn : (n : ℚ) = d * (n / d : Nat) + (n % d : Nat) := by exact_mod_cast (Nat.div_add_mod n d).symm
    rw [hn]
    field_simp
  -- The part above the quotient, compared with one half.
  have hpos : (0 : ℚ) ≤ (n % d : Nat) / d := by positivity
  have hone : ((n % d : Nat) : ℚ) / d < 1 := by
    rw [div_lt_one hd']
    exact_mod_cast Nat.mod_lt n hd
  have hless : ((n % d : Nat) : ℚ) / d < 1 / 2 ↔ 2 * (n % d) < d := by
    rw [div_lt_div_iff₀ hd' two_pos, one_mul, mul_comm]
    exact_mod_cast Iff.rfl
  have hhalf : ((n % d : Nat) : ℚ) / d = 1 / 2 ↔ 2 * (n % d) = d := by
    rw [div_eq_div_iff hd'.ne' two_ne_zero, one_mul, mul_comm]
    exact_mod_cast Iff.rfl
  unfold roundDiv
  dsimp only
  rw [hsplit]
  split
  · rename_i hdown
    refine roundsTo_below hpos ?_ fun htie => Nat.even_iff.mpr ?_
    · rcases hdown with hlt | ⟨heq, -⟩
      · exact (hless.mpr hlt).le
      · exact (hhalf.mpr heq).le
    · rw [hhalf] at htie
      omega
  · rename_i hup
    refine roundsTo_above (not_lt.mp fun hlt => hup (Or.inl (hless.mp hlt))) hone fun htie => Nat.even_iff.mpr ?_
    rw [hhalf] at htie
    omega

section
variable {t : ℚ} {k : Nat} (h : RoundsTo t k)
include h

theorem RoundsTo.nearest (j : Nat) : |t - k| ≤ |t - j| ∧ (|t - k| = |t - j| → j ≠ k → Even k) := by
  have hnear := h.near
  by_cases hjk : j = k
  · simp [hjk]
  · have hone : (1 : ℚ) ≤ |(j : ℚ) - k| := by
      have hint : 1 ≤ |(j : Int) - k| := Int.one_le_abs (by omega)
      exact_mod_cast hint
    have htriangle : |(j : ℚ) - k| ≤ |t - k| + |t - j| := by
      rw [abs_sub_comm t j, add_comm]
      exact abs_sub_le _ _ _
    refine ⟨by linarith, fun htie _ => h.even (by linarith)⟩

theorem RoundsTo.le_of_le {a : Nat} (ha : (a : ℚ) ≤ t) : a ≤ k := by
  have hnear := (abs_le.mp h.near).2
  have hlt : (a : ℚ) < k + 1 := by linarith
  exact Nat.lt_succ_iff.mp (by exact_mod_cast hlt)

theorem RoundsTo.ge_of_ge {b : Nat} (hb : t ≤ b) : k ≤ b := by
  have hnear := (abs_le.mp h.near).1
  have hlt : (k : ℚ) < b + 1 := by linarith
  exact Nat.lt_succ_iff.mp (by exact_mod_cast hlt)

theorem RoundsTo.unique {k' : Nat} (h' : RoundsTo t k') : k = k' := by
  by_contra hne
  obtain ⟨hle, htie⟩ := h.nearest k'
  obtain ⟨hle', htie'⟩ := h'.nearest k
  have heven := htie (le_antisymm hle hle') (Ne.symm hne)
  have heven' := htie' (le_antisymm hle' hle) hne
  -- Two numbers as near as each other are neighbours, and of these only one is even.
  have hone : |(k : ℚ) - k'| ≤ 1 := by
    have htriangle : |(k : ℚ) - k'| ≤ |(k : ℚ) - t| + |t - k'| := abs_sub_le _ _ _
    have hnear := h.near
    have hnear' := h'.near
    rw [abs_sub_comm (k : ℚ) t] at htriangle
    linarith
  have hint : |(k : Int) - k'| ≤ 1 := by exact_mod_cast hone
  rw [abs_le] at hint
  rw [Nat.even_iff] at heven heven'
  omega

end

theorem natAbs_num_div_den {q : ℚ} (hq : 0 ≤ q) : ((q.num.natAbs : Nat) : ℚ) / q.den = q := by
  rw [Nat.cast_natAbs, abs_of_nonneg (Rat.num_nonneg.mpr hq), Rat.num_div_den]

theorem exists_roundsTo {t : ℚ} (ht : 0 ≤ t) : ∃ k, RoundsTo t k := by
  have h := roundsTo_roundDiv t.num.natAbs t.den_pos
  rw [natAbs_num_div_den ht] at h
  exact ⟨_, h⟩

/-! ## Measuring in units -/

/-- A positive number is measured in the unit `2 ^ u`: that of its binade, or the least unit. -/
structure Measures (q : ℚ) (u : Int) : Prop where
  low : -1074 ≤ u
  lt : q < 2 * exponentWeight * 2 ^ u
  ge : u = -1074 ∨ exponentWeight * 2 ^ u ≤ q

/-- A whole number of units, as rounding leaves it: the upper end of the binade is included. -/
structure Units (k : Nat) (u : Int) : Prop where
  low : -1074 ≤ u
  le : k ≤ 2 * exponentWeight
  ge : u = -1074 ∨ exponentWeight ≤ k

theorem exponentWeight_mul_zpow (u : Int) : (exponentWeight * 2 ^ u : ℚ) = 2 ^ (u + 52) := by
  have hweight : (exponentWeight : ℚ) = 2 ^ (52 : Int) := by norm_num [exponentWeight]
  rw [hweight, zpow_add₀ two_ne_zero, mul_comm]

theorem two_exponentWeight_mul_zpow (u : Int) : (2 * exponentWeight * 2 ^ u : ℚ) = 2 ^ (u + 53) := by
  rw [mul_assoc, exponentWeight_mul_zpow, show u + 53 = u + 52 + 1 by ring, zpow_add_one₀ two_ne_zero, mul_comm]

theorem Measures.unit_eq_log {q : ℚ} {u : Int} (h : Measures q u) (hq : 0 < q) :
    max (Int.log 2 q - 52) (-1074) = u := by
  have hlow := h.low
  have hlt := h.lt
  rw [two_exponentWeight_mul_zpow] at hlt
  have hlog := (Int.lt_zpow_iff_log_lt one_lt_two hq).mp (by exact_mod_cast hlt)
  rcases h.ge with rfl | hge
  · omega
  · rw [exponentWeight_mul_zpow] at hge
    have hlog' := (Int.zpow_le_iff_le_log one_lt_two hq).mp (by exact_mod_cast hge)
    omega

theorem exists_measures {q : ℚ} (hq : 0 < q) : ∃ u, Measures q u := by
  have hlt := Int.lt_zpow_succ_log_self one_lt_two q
  have hle := Int.zpow_log_le_self one_lt_two hq
  push_cast at hlt hle
  refine ⟨max (Int.log 2 q - 52) (-1074), le_max_right _ _, ?_, ?_⟩
  · rw [two_exponentWeight_mul_zpow]
    exact lt_of_lt_of_le hlt (zpow_le_zpow_right₀ one_le_two (by omega))
  · rcases le_total (Int.log 2 q - 52) (-1074) with hmax | hmax
    · exact Or.inl (max_eq_right hmax)
    · refine Or.inr ?_
      rw [max_eq_left hmax, exponentWeight_mul_zpow, sub_add_cancel]
      exact hle

theorem Measures.units {q : ℚ} {u : Int} {k : Nat} (h : Measures q u) (hk : RoundsTo (q / 2 ^ u) k) :
    Units k u := by
  have hunit : (0 : ℚ) < 2 ^ u := by positivity
  refine ⟨h.low, hk.ge_of_ge ?_, h.ge.imp_right fun hge => hk.le_of_le ?_⟩
  · rw [div_le_iff₀ hunit]
    push_cast
    exact h.lt.le
  · rwa [le_div_iff₀ hunit]

/-! ## The magnitude as a function of the quotient -/

/-- The magnitude of the number nearest to `q`, for `q` that is not negative. -/
def rounded (q : ℚ) : Nat := nearest q.num.natAbs q.den

theorem rounded_zero : rounded 0 = 0 := rfl

theorem nearest_eq_compose {n d k : Nat} {u : Int} (hn : 0 < n) (hd : 0 < d) (hu : Measures (n / d) u)
    (hk : RoundsTo (n / d / 2 ^ u) k) : nearest n d = min (compose k u) infinite := by
  have hn' : (0 : ℚ) < n := by exact_mod_cast hn
  have hd' : (0 : ℚ) < d := by exact_mod_cast hd
  have hunit : max (binade n d - 52) (-1074) = u := by rw [binade_eq_log hn hd, hu.unit_eq_log (by positivity)]
  have hround : roundDiv (n * Nat.pow 2 (-u).toNat) (d * Nat.pow 2 u.toNat) = k := by
    refine RoundsTo.unique (roundsTo_roundDiv _ (Nat.mul_pos hd (Nat.two_pow_pos _))) ?_
    convert hk using 1
    have hp : ((Nat.pow 2 (-u).toNat : Nat) : ℚ) ≠ 0 := by exact_mod_cast (Nat.two_pow_pos _).ne'
    rw [two_zpow_eq, Nat.cast_mul, Nat.cast_mul]
    field_simp
    rfl
  unfold nearest compose
  rw [if_neg hn.ne']
  dsimp only
  rw [hunit, hround]

theorem rounded_eq {q : ℚ} {k : Nat} {u : Int} (hq : 0 < q) (hu : Measures q u) (hk : RoundsTo (q / 2 ^ u) k) :
    rounded q = min (compose k u) infinite := by
  have hnum : 0 < q.num := Rat.num_pos.mpr hq
  have hquotient := natAbs_num_div_den hq.le
  refine nearest_eq_compose (by omega) q.den_pos ?_ ?_
  · rwa [hquotient]
  · rwa [hquotient]

theorem exists_rounded {q : ℚ} (hq : 0 < q) :
    ∃ u k, Measures q u ∧ RoundsTo (q / 2 ^ u) k ∧ rounded q = min (compose k u) infinite := by
  obtain ⟨u, hu⟩ := exists_measures hq
  have hnonneg : 0 ≤ q / 2 ^ u := by positivity
  obtain ⟨k, hk⟩ := exists_roundsTo hnonneg
  exact ⟨u, k, hu, hk, rounded_eq hq hu hk⟩

theorem nearest_eq (n : Nat) {d : Nat} (hd : 0 < d) : nearest n d = rounded (n / d) := by
  rcases Nat.eq_zero_or_pos n with rfl | hn
  · simp [nearest, rounded_zero]
  · have hn' : (0 : ℚ) < n := by exact_mod_cast hn
    have hd' : (0 : ℚ) < d := by exact_mod_cast hd
    obtain ⟨u, k, hu, hk, hrounded⟩ := exists_rounded (show (0 : ℚ) < n / d by positivity)
    rw [nearest_eq_compose hn hd hu hk, hrounded]

theorem Units.exists_lt {k : Nat} {u : Int} (h : Units k u) :
    ∃ k' u', Units k' u' ∧ k' < 2 * exponentWeight ∧ compose k u = compose k' u' ∧
      (k * 2 ^ u : ℚ) = k' * 2 ^ u' ∧ (Even k → Even k') := by
  have hlow := h.low
  rcases h.le.lt_or_eq with hlt | htop
  · exact ⟨k, u, h, hlt, rfl, rfl, id⟩
  · refine ⟨exponentWeight, u + 1, ⟨by omega, by decide, Or.inr le_rfl⟩, by decide, ?_, ?_, fun _ => by decide⟩
    · have hindex : (u + 1 + 1074).toNat = (u + 1074).toNat + 1 := by omega
      rw [htop, compose, compose, hindex]
      ring
    · rw [htop, zpow_add_one₀ two_ne_zero]
      push_cast
      ring

theorem Units.rounded_eq {k : Nat} {u : Int} (h : Units k u) :
    rounded (k * 2 ^ u) = min (compose k u) infinite := by
  obtain ⟨k, u, h, hlt, hcompose, hvalue, -⟩ := h.exists_lt
  rw [hcompose, hvalue]
  have hunit : (0 : ℚ) < 2 ^ u := by positivity
  rcases Nat.eq_zero_or_pos k with rfl | hpos
  · have hu : u = -1074 := h.ge.resolve_right (by decide)
    simp [hu, rounded_zero, compose]
  · have hk : (0 : ℚ) < k := by exact_mod_cast hpos
    refine Binary64.rounded_eq (by positivity) ⟨h.low, ?_, h.ge.imp_right fun hge => ?_⟩ ?_
    · have hlt' : (k : ℚ) < 2 * exponentWeight := by exact_mod_cast hlt
      gcongr
    · have hge' : (exponentWeight : ℚ) ≤ k := by exact_mod_cast hge
      gcongr
    · rw [mul_div_cancel_right₀ _ hunit.ne']
      exact roundsTo_self k

/-! ## Overflow -/

/-- The finite numbers end at `2 ^ 1024`; what is nearer to it than to the greatest of them, or as near, is
rounded to infinity. -/
def overflow : ℚ := 2 ^ 1024 - 2 ^ 970

theorem overflow_eq : overflow = (2 * exponentWeight - 1 / 2) * 2 ^ (971 : Int) := by
  have htop : (2 : ℚ) ^ 1024 = 2 * exponentWeight * 2 ^ (971 : Int) := by
    rw [two_exponentWeight_mul_zpow]
    rfl
  have hhalf : (2 : ℚ) ^ 970 = 1 / 2 * 2 ^ (971 : Int) := by
    rw [show (971 : Int) = ((970 : Nat) : Int) + 1 by rfl, zpow_add_one₀ two_ne_zero, zpow_natCast,
      one_div_mul_eq_div, mul_div_cancel_right₀ _ two_ne_zero]
  rw [overflow, htop, hhalf]
  ring

theorem RoundsTo.lt_top_iff {t : ℚ} {k : Nat} (h : RoundsTo t k) :
    k < 2 * exponentWeight ↔ t < 2 * exponentWeight - 1 / 2 := by
  obtain ⟨hlow, hhigh⟩ := abs_le.mp h.near
  constructor
  · intro hk
    have hk' : (k : ℚ) + 1 ≤ 2 * exponentWeight := by exact_mod_cast hk
    refine lt_of_le_of_ne (by linarith) fun htie => ?_
    -- A half before the end would have gone to the end, which is even.
    have hlast : (k : ℚ) + 1 = 2 * exponentWeight := by linarith
    have heven := h.even (by rw [abs_of_nonneg] <;> linarith)
    have hodd : k + 1 = 2 * exponentWeight := by exact_mod_cast hlast
    rw [Nat.even_iff] at heven
    omega
  · intro ht
    have hk : (k : ℚ) < 2 * exponentWeight := by linarith
    exact_mod_cast hk

theorem Measures.finite_iff {q : ℚ} {u : Int} {k : Nat} (hu : Measures q u) (hk : RoundsTo (q / 2 ^ u) k) :
    compose k u < infinite ↔ q < overflow := by
  have hunits := hu.units hk
  have hle := hunits.le
  have hlt := hu.lt
  have hunit : (0 : ℚ) < 2 ^ u := by positivity
  have hpos : 0 < exponentWeight := by decide
  have hweight : (1 : ℚ) ≤ exponentWeight := by exact_mod_cast hpos
  rw [overflow_eq]
  unfold compose infinite
  rcases lt_trichotomy u 971 with hbelow | rfl | habove
  · refine iff_of_true ?_ ?_
    · have hindex : (u + 1074).toNat * exponentWeight ≤ 2044 * exponentWeight := Nat.mul_le_mul_right _ (by omega)
      omega
    · calc q < 2 * exponentWeight * 2 ^ u := hlt
        _ = exponentWeight * 2 ^ (u + 1) := by rw [zpow_add_one₀ two_ne_zero]; ring
        _ ≤ exponentWeight * 2 ^ (971 : Int) := by gcongr; omega
        _ ≤ (2 * exponentWeight - 1 / 2) * 2 ^ (971 : Int) := by gcongr; linarith
  · rw [← div_lt_iff₀ hunit, ← hk.lt_top_iff]
    have hindex : ((971 : Int) + 1074).toNat = 2045 := rfl
    rw [hindex]
    omega
  · have hge := hu.ge.resolve_left (by omega)
    have hk' := hunits.ge.resolve_left (by omega)
    refine iff_of_false ?_ (not_lt.mpr ?_)
    · have hindex : 2046 * exponentWeight ≤ (u + 1074).toNat * exponentWeight := Nat.mul_le_mul_right _ (by omega)
      omega
    · calc ((2 * exponentWeight - 1 / 2) * 2 ^ (971 : Int) : ℚ) ≤ 2 * exponentWeight * 2 ^ (971 : Int) :=
          mul_le_mul_of_nonneg_right (by linarith) (by positivity)
        _ = exponentWeight * 2 ^ ((971 : Int) + 1) := by rw [zpow_add_one₀ two_ne_zero]; ring
        _ ≤ exponentWeight * 2 ^ u := by gcongr; omega
        _ ≤ q := hge

theorem overflow_pos : 0 < overflow := by
  have hweight : (1 : ℚ) ≤ exponentWeight := by norm_num [exponentWeight]
  rw [overflow_eq]
  exact mul_pos (by linarith) (by positivity)

theorem rounded_le_infinite {q : ℚ} (hq : 0 ≤ q) : rounded q ≤ infinite := by
  rcases hq.eq_or_lt with rfl | hpos
  · exact Nat.zero_le _
  · obtain ⟨u, k, -, -, hrounded⟩ := exists_rounded hpos
    rw [hrounded]
    exact Nat.min_le_right _ _

theorem rounded_lt_infinite_iff {q : ℚ} (hq : 0 < q) : rounded q < infinite ↔ q < overflow := by
  obtain ⟨u, k, hu, hk, hrounded⟩ := exists_rounded hq
  rw [hrounded, min_lt_iff, ← hu.finite_iff hk]
  simp

theorem rounded_large {q : ℚ} (hq : overflow ≤ q) : rounded q = infinite := by
  have hpos := lt_of_lt_of_le overflow_pos hq
  have hge := mt (rounded_lt_infinite_iff hpos).mp (not_lt.mpr hq)
  exact le_antisymm (rounded_le_infinite hpos.le) (not_lt.mp hge)

theorem overflow_le : overflow ≤ 2 ^ (1024 : Int) := sub_le_self _ (by positivity)

/-! ## Scaled numbers -/

theorem rounded_small {q : ℚ} (hpos : 0 ≤ q) (hq : q < 2 ^ (-1075 : Int)) : rounded q = 0 := by
  rcases hpos.eq_or_lt with rfl | hpos
  · exact rounded_zero
  · have hunit : (0 : ℚ) < 2 ^ (-1074 : Int) := by positivity
    have hhalf : (2 : ℚ) ^ (-1075 : Int) = 1 / 2 * 2 ^ (-1074 : Int) := by
      rw [show (-1074 : Int) = -1075 + 1 by rfl, zpow_add_one₀ two_ne_zero]
      ring
    have hmeasures : Measures q (-1074) := by
      refine ⟨le_rfl, ?_, Or.inl rfl⟩
      rw [two_exponentWeight_mul_zpow]
      exact hq.trans (zpow_lt_zpow_right₀ one_lt_two (by decide))
    have hzero : RoundsTo (q / 2 ^ (-1074 : Int)) 0 := by
      have hlt : q / 2 ^ (-1074 : Int) ≤ 1 / 2 := by
        rw [div_le_iff₀ hunit, ← hhalf]
        exact hq.le
      simpa using roundsTo_below (q := 0) (by positivity) hlt fun _ => Even.zero
    rw [rounded_eq hpos hmeasures hzero]
    rfl

theorem nearestScaled_eq (m : Nat) (e : Int) : nearestScaled m e = rounded (m * 2 ^ e) := by
  have hpow : (0 : ℚ) < 2 ^ e := by positivity
  unfold nearestScaled
  split_ifs with hm hlow hhigh
  · simp [hm, rounded_zero]
  · refine (rounded_small (by positivity) ?_).symm
    calc (m * 2 ^ e : ℚ) < 2 ^ ((m.log2 : Int) + 1) * 2 ^ e := by gcongr; exact lt_zpow_log2 m
      _ = 2 ^ ((m.log2 : Int) + 1 + e) := (zpow_add₀ two_ne_zero _ _).symm
      _ ≤ 2 ^ (-1075 : Int) := zpow_le_zpow_right₀ one_le_two (by omega)
  · refine (rounded_large (overflow_le.trans ?_)).symm
    calc (2 : ℚ) ^ (1024 : Int) ≤ 2 ^ ((m.log2 : Int) + e) := zpow_le_zpow_right₀ one_le_two hhigh
      _ = 2 ^ (m.log2 : Int) * 2 ^ e := zpow_add₀ two_ne_zero _ _
      _ ≤ m * 2 ^ e := by gcongr; exact zpow_log2_le hm
  · have hden : 0 < Nat.pow 2 (-e).toNat := Nat.two_pow_pos _
    rw [nearest_eq _ hden, two_zpow_eq e, Nat.cast_mul, mul_div_assoc]

/-! ## Numbers of the format -/

def absRat (x : Binary64) : ℚ := x.significand * 2 ^ x.unitExponent

/-- The rational number that a finite number is. -/
def toRat (x : Binary64) : ℚ := if x.isNegative then -x.absRat else x.absRat

theorem absRat_nonneg (x : Binary64) : 0 ≤ x.absRat := by
  unfold absRat
  positivity

theorem infinite_lt_signWeight : infinite < signWeight := by decide

theorem Units.parts {k : Nat} {u : Int} (h : Units k u) (hfinite : compose k u < infinite) {x : Binary64}
    (hx : x.magnitude = compose k u) : x.absRat = k * 2 ^ u ∧ (Even k → Even x.significand) := by
  obtain ⟨k', u', h', hlt, hcompose, hvalue, heven⟩ := h.exists_lt
  rw [hcompose] at hfinite hx
  have hlow := h'.low
  rcases Nat.eq_zero_or_pos k' with rfl | hpos
  · have hu : u' = -1074 := h'.ge.resolve_right (by decide)
    have hzero : x.significand = 0 := by
      rw [hu] at hx
      simp [significand, exponentField, fraction, hx, compose]
    rw [hvalue, absRat, hzero]
    simp
  · have hcanonical : Canonical k' u' := by
      rcases Nat.lt_or_ge k' exponentWeight with hsub | hnormal
      · obtain rfl : u' = -1074 := h'.ge.resolve_right (by omega)
        exact .subnormal hpos hsub
      · refine .normal hnormal hlt hlow (not_lt.mp fun hgt => ?_)
        have hindex : 2046 * exponentWeight ≤ (u' + 1074).toNat * exponentWeight :=
          Nat.mul_le_mul_right _ (by omega)
        unfold compose infinite at hfinite
        omega
    obtain ⟨hsignificand, hunit⟩ := hcanonical.ofMagnitude_parts hx
    rw [hvalue, absRat, hsignificand, hunit]
    exact ⟨rfl, heven⟩

def ofRat (q : ℚ) : Binary64 := ofMagnitude false (rounded q)

theorem magnitude_ofRat {q : ℚ} (hq : 0 ≤ q) : (ofRat q).magnitude = rounded q :=
  magnitude_ofMagnitude _ (lt_of_le_of_lt (rounded_le_infinite hq) infinite_lt_signWeight)

theorem isNegative_ofRat {q : ℚ} (hq : 0 ≤ q) : (ofRat q).isNegative = false :=
  isNegative_ofMagnitude _ (lt_of_le_of_lt (rounded_le_infinite hq) infinite_lt_signWeight)

/-! ## The nearest number -/

/-- The number that `r` is rounded to: no finite number is nearer, and another one is as near only if the
significand is even. -/
structure IsNearest (r : ℚ) (x : Binary64) : Prop where
  finite : |r| < overflow → x.magnitude < infinite ∧ ∀ y : Binary64, y.magnitude < infinite →
    |r - x.toRat| ≤ |r - y.toRat| ∧ (|r - x.toRat| = |r - y.toRat| → y.toRat ≠ x.toRat → Even x.significand)
  infinite : overflow ≤ |r| → x.magnitude = Binary64.infinite ∧ (x.isNegative = true ↔ r < 0)

theorem significand_lt (x : Binary64) : x.significand < 2 * exponentWeight := by
  have hfraction : x.fraction < exponentWeight := Nat.mod_lt _ (by decide)
  unfold significand
  split <;> omega

theorem le_unitExponent (x : Binary64) : -1074 ≤ x.unitExponent := by
  unfold unitExponent
  split <;> omega

theorem grid_or_below (y : Binary64) (u : Int) :
    (∃ j : Nat, y.absRat = j * 2 ^ u) ∨ (u ≠ -1074 ∧ y.absRat < exponentWeight * 2 ^ u) := by
  have hlow := y.le_unitExponent
  rcases le_or_gt u y.unitExponent with hle | hlt
  · refine Or.inl ⟨y.significand * 2 ^ (y.unitExponent - u).toNat, ?_⟩
    have hsplit : (2 : ℚ) ^ y.unitExponent = 2 ^ (y.unitExponent - u).toNat * 2 ^ u := by
      rw [← zpow_natCast, ← zpow_add₀ two_ne_zero]
      congr 1
      omega
    rw [absRat, hsplit]
    push_cast
    ring
  · refine Or.inr ⟨by omega, ?_⟩
    have hsignificand : (y.significand : ℚ) < 2 * exponentWeight := by exact_mod_cast y.significand_lt
    calc y.absRat < 2 * exponentWeight * 2 ^ y.unitExponent := by unfold absRat; gcongr
      _ = exponentWeight * 2 ^ (y.unitExponent + 1) := by rw [zpow_add_one₀ two_ne_zero]; ring
      _ ≤ exponentWeight * 2 ^ u :=
        mul_le_mul_of_nonneg_left (zpow_le_zpow_right₀ one_le_two (by omega)) (by positivity)

theorem Measures.nearest {q : ℚ} {u : Int} {k : Nat} (hu : Measures q u) (hk : RoundsTo (q / 2 ^ u) k)
    (y : Binary64) :
    |q - k * 2 ^ u| ≤ |q - y.absRat| ∧ (|q - k * 2 ^ u| = |q - y.absRat| → y.absRat ≠ k * 2 ^ u → Even k) := by
  have hunit : (0 : ℚ) < 2 ^ u := by positivity
  have hscale : ∀ j : Nat, |q - j * 2 ^ u| = |q / 2 ^ u - j| * 2 ^ u := by
    intro j
    rw [← abs_of_pos hunit, ← abs_mul, abs_of_pos hunit, sub_mul, div_mul_cancel₀ _ hunit.ne']
  -- On the grid the other number is a whole number of units too; below it, it is farther than the binade's end.
  rcases grid_or_below y u with ⟨j, hj⟩ | ⟨hnormal, hbelow⟩
  · obtain ⟨hle, heven⟩ := hk.nearest j
    rw [hj, hscale, hscale]
    refine ⟨by gcongr, fun htie hne => heven (mul_right_cancel₀ hunit.ne' htie) ?_⟩
    rintro rfl
    exact hne rfl
  · have hge := hu.ge.resolve_left hnormal
    obtain ⟨hle, -⟩ := hk.nearest exponentWeight
    have hfar : |q - k * 2 ^ u| < |q - y.absRat| := by
      calc |q - k * 2 ^ u| ≤ |q - exponentWeight * 2 ^ u| := by rw [hscale, hscale]; gcongr
        _ = q - exponentWeight * 2 ^ u := abs_of_nonneg (by linarith)
        _ < q - y.absRat := by linarith
        _ = |q - y.absRat| := (abs_of_nonneg (by linarith)).symm
    exact ⟨hfar.le, fun htie => absurd htie hfar.ne⟩

theorem abs_sub_absRat_le {q : ℚ} (hq : 0 < q) (y : Binary64) :
    |q - y.absRat| ≤ |q - y.toRat| ∧ (|q - y.absRat| = |q - y.toRat| → y.toRat = y.absRat) := by
  have hnonneg := y.absRat_nonneg
  unfold toRat
  split
  · -- A sign takes the number away from what is positive, unless it is zero.
    have hsum : |q - -y.absRat| = q + y.absRat := by rw [sub_neg_eq_add, abs_of_nonneg (by linarith)]
    rw [hsum]
    refine ⟨abs_le.mpr ⟨by linarith, by linarith⟩, fun htie => ?_⟩
    rcases (abs_eq (by linarith)).mp htie with hsame | hopposite
    · linarith
    · linarith
  · exact ⟨le_rfl, fun _ => rfl⟩

theorem toRat_ofRat {q : ℚ} (hq : 0 ≤ q) : (ofRat q).toRat = (ofRat q).absRat := by
  rw [toRat, isNegative_ofRat hq, if_neg Bool.false_ne_true]

theorem isNearest_ofRat_of_pos {q : ℚ} (hq : 0 < q) : IsNearest q (ofRat q) := by
  obtain ⟨u, k, hu, hk, hrounded⟩ := exists_rounded hq
  have hmagnitude := magnitude_ofRat hq.le
  rw [hrounded] at hmagnitude
  refine ⟨fun hlt => ?_, fun hge => ?_⟩
  · rw [abs_of_pos hq] at hlt
    have hfinite := (hu.finite_iff hk).mpr hlt
    rw [Nat.min_eq_left hfinite.le] at hmagnitude
    obtain ⟨habs, heven⟩ := (hu.units hk).parts hfinite hmagnitude
    refine ⟨by rwa [hmagnitude], fun y _ => ?_⟩
    rw [toRat_ofRat hq.le, habs]
    obtain ⟨hnear, hties⟩ := hu.nearest hk y
    obtain ⟨hsign, hsame⟩ := abs_sub_absRat_le hq y
    refine ⟨hnear.trans hsign, fun htie hne => heven ?_⟩
    have hy := hsame (le_antisymm hsign (htie ▸ hnear))
    rw [hy] at htie hne
    exact hties htie hne
  · rw [abs_of_pos hq] at hge
    rw [magnitude_ofRat hq.le, rounded_large hge, isNegative_ofRat hq.le]
    exact ⟨rfl, by simpa using hq.le⟩

theorem isNearest_zero {x : Binary64} (hx : x.magnitude = 0) : IsNearest 0 x := by
  have hzero : x.toRat = 0 := by
    have hsignificand : x.significand = 0 := by simp [significand, exponentField, fraction, hx]
    simp [toRat, absRat, hsignificand]
  refine ⟨fun _ => ⟨by rw [hx]; decide, fun y _ => ?_⟩, fun hge => ?_⟩
  · rw [hzero, sub_zero, abs_zero, zero_sub, abs_neg]
    exact ⟨abs_nonneg _, fun htie hne => absurd (abs_eq_zero.mp htie.symm) hne⟩
  · rw [abs_zero] at hge
    exact absurd overflow_pos (not_lt.mpr hge)

theorem isNearest_ofRat {q : ℚ} (hq : 0 ≤ q) : IsNearest q (ofRat q) := by
  rcases hq.eq_or_lt with rfl | hpos
  · exact isNearest_zero (magnitude_ofRat le_rfl)
  · exact isNearest_ofRat_of_pos hpos

/-! ## Signs -/

theorem magnitude_neg (x : Binary64) : x.neg.magnitude = x.magnitude := magnitude_ofMagnitude _ x.magnitude_lt

theorem isNegative_neg (x : Binary64) : x.neg.isNegative = !x.isNegative := isNegative_ofMagnitude _ x.magnitude_lt

theorem significand_neg (x : Binary64) : x.neg.significand = x.significand := by
  unfold significand exponentField fraction
  rw [magnitude_neg]

theorem toRat_neg (x : Binary64) : x.neg.toRat = -x.toRat := by
  have habs : x.neg.absRat = x.absRat := by
    unfold absRat unitExponent exponentField
    rw [significand_neg, magnitude_neg]
  unfold toRat
  rw [habs, isNegative_neg]
  cases x.isNegative with
  | true => simp
  | false => simp

theorem IsNearest.neg {r : ℚ} {x : Binary64} (h : IsNearest r x) : IsNearest (-r) x.neg := by
  refine ⟨fun hlt => ?_, fun hge => ?_⟩
  · rw [abs_neg] at hlt
    obtain ⟨hfinite, hnearest⟩ := h.finite hlt
    refine ⟨by rwa [magnitude_neg], fun y hy => ?_⟩
    obtain ⟨hnear, htie⟩ := hnearest y.neg (by rwa [magnitude_neg])
    have hleft : |-r - x.neg.toRat| = |r - x.toRat| := by rw [toRat_neg, ← abs_neg (r - x.toRat), neg_sub']
    have hright : |-r - y.toRat| = |r - y.neg.toRat| := by
      rw [toRat_neg, ← abs_neg (r - -y.toRat), neg_sub', neg_neg]
    rw [hleft, hright, significand_neg]
    refine ⟨hnear, fun heq hne => htie heq fun hsame => hne ?_⟩
    rw [toRat_neg, ← hsame, toRat_neg, neg_neg]
  · rw [abs_neg] at hge
    obtain ⟨hinfinite, hsign⟩ := h.infinite hge
    have hr : r ≠ 0 := by
      rintro rfl
      rw [abs_zero] at hge
      exact absurd overflow_pos (not_lt.mpr hge)
    rw [magnitude_neg, isNegative_neg, Bool.not_eq_true', ← Bool.not_eq_true, hsign]
    refine ⟨hinfinite, ?_⟩
    rw [not_lt, Left.neg_neg_iff]
    exact ⟨fun hle => lt_of_le_of_ne hle hr.symm, le_of_lt⟩

end FrameMachine.Binary64
