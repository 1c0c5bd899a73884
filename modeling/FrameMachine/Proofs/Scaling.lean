import FrameMachine.Proofs.NearestValue

/-!
# Rounding more than once

Scaling rounds a number that is itself rounded. It gives the number nearest to the first value scaled as
long as nothing leaves the normal range (`scale_ofRat_normal`), and where the first rounding loses nothing
(`scale_ofRat_units`). Hence the steps by which a word is scaled do not show in the result
(`scaleInSteps_ofNat`). What follows the bits that decide a rounding counts only as being zero or not
(`rounded_eq_of_inexact`).
-/

namespace FrameMachine.Binary64

/-! ## Scaling a rounded number -/

theorem scale_ofRat {q : ℚ} (hq : 0 ≤ q) (hfinite : rounded q < infinite) (d : Int) :
    (ofRat q).scale d = ofRat ((ofRat q).absRat * 2 ^ d) := by
  unfold scale
  rw [magnitude_ofRat hq, if_neg (not_le.mpr hfinite), isNegative_ofRat hq, nearestScaled_eq, zpow_add₀ two_ne_zero,
    ← mul_assoc]
  rfl

theorem scale_ofRat_infinite {q : ℚ} (hq : 0 ≤ q) (hinfinite : rounded q = infinite) (d : Int) :
    (ofRat q).scale d = ofRat q := by
  unfold scale
  rw [magnitude_ofRat hq, if_pos hinfinite.ge]

theorem scale_ofRat_units {k : Nat} {u : Int} (h : Units k u) (hfinite : compose k u < infinite) (d : Int) :
    (ofRat (k * 2 ^ u)).scale d = ofRat (k * 2 ^ u * 2 ^ d) := by
  have hnonneg : (0 : ℚ) ≤ k * 2 ^ u := by positivity
  have hrounded : rounded (k * 2 ^ u) = compose k u := by rw [h.rounded_eq, Nat.min_eq_left hfinite.le]
  have hmagnitude : (ofRat (k * 2 ^ u)).magnitude = compose k u := by rw [magnitude_ofRat hnonneg, hrounded]
  rw [scale_ofRat hnonneg (by rwa [hrounded]), (h.parts hfinite hmagnitude).1]

theorem Measures.mul_zpow {q : ℚ} {u d : Int} (h : Measures q u) (hq : 2 ^ (-1022 : Int) ≤ q)
    (hd : 2 ^ (-1022 : Int) ≤ q * 2 ^ d) : Measures (q * 2 ^ d) (u + d) := by
  have hpow : (0 : ℚ) < 2 ^ d := by positivity
  have hlt : q * 2 ^ d < 2 * exponentWeight * 2 ^ (u + d) := by
    rw [zpow_add₀ two_ne_zero, ← mul_assoc]
    exact mul_lt_mul_of_pos_right h.lt hpow
  have hge : exponentWeight * 2 ^ u ≤ q := by
    rcases h.ge with rfl | hge
    · rw [exponentWeight_mul_zpow]
      exact hq
    · exact hge
  refine ⟨?_, hlt, Or.inr ?_⟩
  · rw [two_exponentWeight_mul_zpow] at hlt
    have hexponent := (zpow_lt_zpow_iff_right₀ one_lt_two).mp (lt_of_le_of_lt hd hlt)
    omega
  · rw [zpow_add₀ two_ne_zero, ← mul_assoc]
    exact mul_le_mul_of_nonneg_right hge hpow.le

/-- Within the normal range it makes no difference whether a value is rounded before it is scaled. -/
theorem scale_ofRat_normal {q : ℚ} {d : Int} (hq : 2 ^ (-1022 : Int) ≤ q) (hd : 2 ^ (-1022 : Int) ≤ q * 2 ^ d)
    (hfinite : rounded q < infinite ∨ 0 ≤ d) : (ofRat q).scale d = ofRat (q * 2 ^ d) := by
  have hpos : 0 < q := lt_of_lt_of_le (by positivity) hq
  have hpos' : 0 < q * 2 ^ d := by positivity
  obtain ⟨u, k, hu, hk, hrounded⟩ := exists_rounded hpos
  have hu' := hu.mul_zpow hq hd
  have hk' : RoundsTo (q * 2 ^ d / 2 ^ (u + d)) k := by
    rwa [zpow_add₀ two_ne_zero, mul_div_mul_right _ _ (by positivity)]
  have hscaled := rounded_eq hpos' hu' hk'
  rcases Nat.lt_or_ge (compose k u) infinite with hlt | hge
  · rw [Nat.min_eq_left hlt.le] at hrounded
    have hmagnitude : (ofRat q).magnitude = compose k u := by rw [magnitude_ofRat hpos.le, hrounded]
    rw [scale_ofRat hpos.le (by rwa [hrounded]), ((hu.units hk).parts hlt hmagnitude).1, mul_assoc,
      ← zpow_add₀ two_ne_zero, ofRat, ofRat, (hu'.units hk').rounded_eq, hscaled]
  · rw [Nat.min_eq_right hge] at hrounded
    have hd' : 0 ≤ d := hfinite.resolve_left (by omega)
    have hmore : compose k u ≤ compose k (u + d) :=
      Nat.add_le_add_right (Nat.mul_le_mul_right _ (by omega)) _
    rw [scale_ofRat_infinite hpos.le hrounded, ofRat, ofRat, hscaled, hrounded, Nat.min_eq_right (hge.trans hmore)]

theorem scale_zero (d : Int) : (ofRat 0).scale d = ofRat 0 := by
  have hzero : Units 0 (-1074) := ⟨le_rfl, Nat.zero_le _, Or.inl rfl⟩
  have hscale := scale_ofRat_units hzero (by decide) d
  simpa using hscale

/-! ## Words -/

theorem ofNat_eq (m : Nat) : ofNat m = ofRat m := by
  rw [ofNat, ofRat, nearest_eq m Nat.one_pos, Nat.cast_one, div_one]

/-- The values that 64-bit words are rounded to. -/
inductive OfWord : ℚ → Prop
  | zero : OfWord 0
  | units {k : Nat} {u : Int} : exponentWeight ≤ k → k ≤ 2 * exponentWeight → -52 ≤ u → u ≤ 11 → OfWord (k * 2 ^ u)

theorem exists_ofWord {m : Nat} (hm : m < 2 ^ 64) : ∃ a, OfWord a ∧ ofNat m = ofRat a := by
  rcases Nat.eq_zero_or_pos m with rfl | hpos
  · exact ⟨0, .zero, by rw [ofNat_eq, Nat.cast_zero]⟩
  · have hone : (1 : ℚ) ≤ m := by exact_mod_cast hpos
    obtain ⟨u, k, hu, hk, hrounded⟩ := exists_rounded (lt_of_lt_of_le one_pos hone)
    have hunits := hu.units hk
    have hlow : -52 ≤ u := by
      have hlt : (2 : ℚ) ^ (0 : Int) < 2 ^ (u + 53) := by
        rw [zpow_zero, ← two_exponentWeight_mul_zpow]
        exact lt_of_le_of_lt hone hu.lt
      have hexponent := (zpow_lt_zpow_iff_right₀ one_lt_two).mp hlt
      omega
    have hhigh : u ≤ 11 := by
      have hlt : (2 : ℚ) ^ (u + 52) < 2 ^ (64 : Int) := by
        rw [← exponentWeight_mul_zpow]
        exact lt_of_le_of_lt (hu.ge.resolve_left (by omega)) (by exact_mod_cast hm)
      have hexponent := (zpow_lt_zpow_iff_right₀ one_lt_two).mp hlt
      omega
    refine ⟨k * 2 ^ u, .units (hunits.ge.resolve_left (by omega)) hunits.le hlow hhigh, ?_⟩
    rw [ofNat_eq, ofRat, ofRat, hrounded, hunits.rounded_eq]

section
variable {a : ℚ} (h : OfWord a)
include h

theorem OfWord.nonneg : 0 ≤ a := by
  cases h with
  | zero => exact le_rfl
  | units => positivity

theorem OfWord.lt : a < 2 ^ (65 : Int) := by
  cases h with
  | zero => positivity
  | @units k u _ hk _ hu =>
    have hk' : (k : ℚ) ≤ 2 * exponentWeight := by exact_mod_cast hk
    calc (k * 2 ^ u : ℚ) ≤ 2 * exponentWeight * 2 ^ u := by gcongr
      _ = 2 ^ (u + 53) := two_exponentWeight_mul_zpow u
      _ < 2 ^ (65 : Int) := zpow_lt_zpow_right₀ one_lt_two (by omega)

theorem OfWord.eq_zero_or_one_le : a = 0 ∨ 1 ≤ a := by
  cases h with
  | zero => exact Or.inl rfl
  | @units k u hk _ hu _ =>
    have hk' : (exponentWeight : ℚ) ≤ k := by exact_mod_cast hk
    refine Or.inr ?_
    calc (1 : ℚ) ≤ 2 ^ (u + 52) := one_le_zpow₀ one_le_two (by omega)
      _ = exponentWeight * 2 ^ u := (exponentWeight_mul_zpow u).symm
      _ ≤ k * 2 ^ u := by gcongr

theorem OfWord.rounded_low {c : Int} (hc : c ≤ -2000) : rounded (a * 2 ^ c) = 0 := by
  have hpow : (0 : ℚ) < 2 ^ c := by positivity
  have hnonneg := h.nonneg
  refine rounded_small (by positivity) ?_
  calc a * 2 ^ c < 2 ^ (65 : Int) * 2 ^ c := mul_lt_mul_of_pos_right h.lt hpow
    _ = 2 ^ (65 + c) := (zpow_add₀ two_ne_zero _ _).symm
    _ ≤ 2 ^ (-1075 : Int) := zpow_le_zpow_right₀ one_le_two (by omega)

/-- Scaling in two steps: the first one is exact, or both go up, or zero is reached after the first. -/
theorem OfWord.scale_scaled {c d : Int}
    (hsteps : (-1000 ≤ c ∧ c ≤ 0) ∨ (0 ≤ c ∧ 0 ≤ d) ∨ (c ≤ -2000 ∧ d ≤ 0)) :
    (ofRat (a * 2 ^ c)).scale d = ofRat (a * 2 ^ (c + d)) := by
  rcases hsteps with ⟨hlow, hhigh⟩ | ⟨hc, hd⟩ | ⟨hc, hd⟩
  · cases h with
    | zero => simpa using scale_zero d
    | @units k u hk hk' hu hu' =>
      have hunits : Units k (u + c) := ⟨by omega, hk', Or.inr hk⟩
      have hfinite : compose k (u + c) < infinite := by
        have hindex : (u + c + 1074).toNat * exponentWeight ≤ 1085 * exponentWeight :=
          Nat.mul_le_mul_right _ (by omega)
        have hweight : 0 < exponentWeight := by decide
        unfold compose infinite
        omega
      have hscale := scale_ofRat_units hunits hfinite d
      rw [zpow_add₀ two_ne_zero, ← mul_assoc] at hscale
      rw [zpow_add₀ two_ne_zero, ← mul_assoc, hscale]
  · rcases h.eq_zero_or_one_le with rfl | hone
    · simpa using scale_zero d
    · have hnormal : ∀ e : Int, 0 ≤ e → (2 : ℚ) ^ (-1022 : Int) ≤ a * 2 ^ e := fun e he =>
        calc (2 : ℚ) ^ (-1022 : Int) ≤ 1 := zpow_le_one_of_nonpos₀ one_le_two (by decide)
          _ ≤ a * 2 ^ e := one_le_mul_of_one_le_of_one_le hone (one_le_zpow₀ one_le_two he)
      have hsum : a * 2 ^ (c + d) = a * 2 ^ c * 2 ^ d := by rw [zpow_add₀ two_ne_zero, mul_assoc]
      rw [hsum]
      refine scale_ofRat_normal (hnormal c hc) ?_ (Or.inr hd)
      rw [← hsum]
      exact hnormal _ (by omega)
  · have hbefore : ofRat (a * 2 ^ c) = ofRat 0 := by rw [ofRat, h.rounded_low hc, ofRat, rounded_zero]
    rw [hbefore, scale_zero, ofRat, rounded_zero, ofRat, h.rounded_low (by omega)]

theorem OfWord.scale_eq (e : Int) : (ofRat a).scale e = ofRat (a * 2 ^ e) := by
  have hscale := h.scale_scaled (c := 0) (d := e) (Or.inl (by decide))
  simpa using hscale

theorem OfWord.repeat_scale {step : Int} (hstep : step = -1000 ∨ step = 1000) (n : Nat) :
    Nat.repeat (·.scale step) n (ofRat a) = ofRat (a * 2 ^ (step * n)) := by
  induction n with
  | zero => simp [Nat.repeat]
  | succ n ih =>
    rw [Nat.repeat, ih, h.scale_scaled]
    · congr 3
      push_cast
      ring
    · rcases hstep with rfl | rfl
      · omega
      · omega

theorem OfWord.scaleInSteps_eq (e : Int) : (ofRat a).scaleInSteps e = ofRat (a * 2 ^ e) := by
  unfold scaleInSteps
  dsimp only
  generalize hstep : (if e < 0 then (-1000 : Int) else 1000) = step
  have hcases : step = -1000 ∧ e < 0 ∨ step = 1000 ∧ 0 ≤ e := by
    rw [← hstep]
    split
    · exact Or.inl ⟨rfl, by assumption⟩
    · exact Or.inr ⟨rfl, by omega⟩
  rw [h.repeat_scale (hcases.imp And.left And.left), h.scale_scaled]
  · congr 3
    ring
  · rcases hcases with ⟨rfl, he⟩ | ⟨rfl, he⟩
    · omega
    · omega

/-- Beyond `2 ^ 4000` the result does not change any more. -/
theorem OfWord.rounded_clamp (e : Int) : rounded (a * 2 ^ max (-4000) (min e 4000)) = rounded (a * 2 ^ e) := by
  rcases lt_or_ge e (-4000) with hlow | hlow
  · rw [h.rounded_low (by omega), h.rounded_low (by omega)]
  · rcases le_or_gt e 4000 with hhigh | hhigh
    · rw [min_eq_left hhigh, max_eq_right hlow]
    · rcases h.eq_zero_or_one_le with rfl | hone
      · simp
      · have hlarge : ∀ c : Int, 4000 ≤ c → rounded (a * 2 ^ c) = infinite := fun c hc =>
          rounded_large <| overflow_le.trans <|
            calc (2 : ℚ) ^ (1024 : Int) ≤ 2 ^ c := zpow_le_zpow_right₀ one_le_two (by omega)
              _ ≤ a * 2 ^ c := le_mul_of_one_le_left (by positivity) hone
        rw [hlarge e hhigh.le, hlarge _ (by omega)]

end

/-- Neither the steps nor the bound on the exponent show in the result of scaling a word. -/
theorem scaleInSteps_ofNat {m : Nat} (hm : m < 2 ^ 64) (e : Int) :
    (ofNat m).scaleInSteps (max (-4000) (min e 4000)) = (ofNat m).scale e := by
  obtain ⟨a, ha, hofNat⟩ := exists_ofWord hm
  rw [hofNat, ha.scaleInSteps_eq, ha.scale_eq, ofRat, ofRat, ha.rounded_clamp]

theorem word_lt_overflow {m : Nat} (hm : m < 2 ^ 64) : (m : ℚ) < overflow := by
  have hweight : (1 : ℚ) ≤ exponentWeight := by norm_num [exponentWeight]
  have hm' : (m : ℚ) < 2 ^ (64 : Int) := by exact_mod_cast hm
  rw [overflow_eq]
  calc (m : ℚ) < 2 ^ (64 : Int) := hm'
    _ ≤ 2 ^ (971 : Int) := zpow_le_zpow_right₀ one_le_two (by decide)
    _ ≤ (2 * exponentWeight - 1 / 2) * 2 ^ (971 : Int) := le_mul_of_one_le_left (by positivity) (by linarith)

theorem scale_ofNat_normal {m : Nat} (hm : m < 2 ^ 64) {e : Int} (hnormal : (2 : ℚ) ^ (-1022 : Int) ≤ m * 2 ^ e) :
    (ofNat m).scale e = ofRat (m * 2 ^ e) := by
  have hpos : 0 < m := by
    rcases Nat.eq_zero_or_pos m with rfl | hpos
    · have hzero : (0 : ℚ) < 2 ^ (-1022 : Int) := by positivity
      simp only [Nat.cast_zero, zero_mul] at hnormal
      exact absurd hzero (not_lt.mpr hnormal)
    · exact hpos
  have hone : (1 : ℚ) ≤ m := by exact_mod_cast hpos
  have hpos' : (0 : ℚ) < m := by exact_mod_cast hpos
  have hfinite : rounded m < infinite := (rounded_lt_infinite_iff hpos').mpr (word_lt_overflow hm)
  rw [ofNat_eq]
  exact scale_ofRat_normal ((zpow_le_one_of_nonpos₀ one_le_two (by decide)).trans hone) hnormal (Or.inl hfinite)

theorem exists_units {o k : Nat} (hpos : 0 < o) (ho : o < 2 * exponentWeight) :
    ∃ j u, Measures (o * 2 ^ k) u ∧ (o * 2 ^ k : ℚ) = (j : Nat) * 2 ^ u := by
  have hpos' : (0 : ℚ) < o := by exact_mod_cast hpos
  obtain ⟨u, hu⟩ := exists_measures (show (0 : ℚ) < o * 2 ^ k by positivity)
  have hle : u ≤ k := by
    rcases hu.ge with rfl | hge
    · omega
    · have ho' : (o : ℚ) < 2 * exponentWeight := by exact_mod_cast ho
      have hlt : (2 : ℚ) ^ (u + 52) < 2 ^ ((k : Int) + 53) := by
        rw [← exponentWeight_mul_zpow, ← two_exponentWeight_mul_zpow, zpow_natCast]
        exact lt_of_le_of_lt hge (mul_lt_mul_of_pos_right ho' (by positivity))
      have hexponent := (zpow_lt_zpow_iff_right₀ one_lt_two).mp hlt
      omega
  refine ⟨o * 2 ^ (k - u).toNat, u, hu, ?_⟩
  have hsplit : (2 : ℚ) ^ k = 2 ^ (k - u).toNat * 2 ^ u := by
    rw [← zpow_natCast, ← zpow_natCast, ← zpow_add₀ two_ne_zero]
    congr 1
    omega
  rw [hsplit]
  push_cast
  ring

theorem scale_ofNat_exact {o k : Nat} (ho : o < 2 * exponentWeight) (hm : o * 2 ^ k < 2 ^ 64) (e : Int) :
    (ofNat (o * 2 ^ k)).scale e = ofRat ((o * 2 ^ k : Nat) * 2 ^ e) := by
  rcases Nat.eq_zero_or_pos o with rfl | hpos
  · simp [ofNat_eq, scale_zero]
  · obtain ⟨j, u, hu, hvalue⟩ := exists_units (k := k) hpos ho
    have hunit : (2 : ℚ) ^ u ≠ 0 := by positivity
    have hj : RoundsTo (o * 2 ^ k / 2 ^ u) j := by
      rw [hvalue, mul_div_cancel_right₀ _ hunit]
      exact roundsTo_self j
    have hoverflow := word_lt_overflow hm
    push_cast at hoverflow
    have hfinite := (hu.finite_iff hj).mpr hoverflow
    rw [ofNat_eq]
    push_cast
    rw [hvalue]
    exact scale_ofRat_units (hu.units hj) hfinite e

theorem Canonical.units {s : Nat} {u : Int} (h : Canonical s u) : Units s u := by
  refine ⟨h.le_unit, h.lt.le, ?_⟩
  cases h with
  | normal hge => exact Or.inr hge
  | subnormal => exact Or.inl rfl

theorem scale_ofNat {m s : Nat} {e u : Int} (hlt : m < 2 * exponentWeight) (h : Canonical s u)
    (hq : (m * 2 ^ e : ℚ) = s * 2 ^ u) : (ofNat m).scale e = ofMagnitude false (compose s u) := by
  have hword : m * 2 ^ 0 < 2 ^ 64 := by
    have hweight : 2 * exponentWeight ≤ 2 ^ 64 := by decide
    omega
  have hscale := scale_ofNat_exact hlt hword e
  rwa [pow_zero, mul_one, hq, ofRat, h.units.rounded_eq, Nat.min_eq_left h.compose_lt.le] at hscale

/-! ## What follows the deciding bits -/

theorem roundDiv_of_inexact {n h : Nat} (hh : 0 < h) (hn : n % h ≠ 0) : roundDiv n (2 * h) = (n / h + 1) / 2 := by
  have hquotient : n / (2 * h) = n / h / 2 := by rw [Nat.div_div_eq_div_mul, Nat.mul_comm]
  have hremainder : n % (2 * h) = n % h + h * (n / h % 2) := by rw [Nat.mul_comm, Nat.mod_mul]
  have hlt : n % h < h := Nat.mod_lt n hh
  unfold roundDiv
  dsimp only
  rw [hquotient, hremainder]
  rcases Nat.mod_two_eq_zero_or_one (n / h) with heven | hodd
  · rw [heven, if_pos (by omega)]
    omega
  · rw [hodd, if_neg (by omega)]
    omega

section
variable {n m i : Nat} (hdiv : n / 2 ^ i = m / 2 ^ i)
include hdiv

theorem zpow_le_of_div_eq (hpos : 0 < n / 2 ^ i) {z : Int} (hn : (2 : ℚ) ^ z ≤ n) : (2 : ℚ) ^ z ≤ m := by
  rw [hdiv] at hpos
  have hm : 2 ^ i ≤ m := (Nat.div_pos_iff.mp hpos).2
  rcases le_total z i with hz | hz
  · calc (2 : ℚ) ^ z ≤ 2 ^ (i : Int) := zpow_le_zpow_right₀ one_le_two hz
      _ ≤ m := by rw [zpow_natCast]; exact_mod_cast hm
  · lift z to Nat using by omega
    rw [zpow_natCast] at hn ⊢
    have hn' : 2 ^ z ≤ n := by exact_mod_cast hn
    have hsplit : 2 ^ z = 2 ^ (z - i) * 2 ^ i := by rw [← pow_add, Nat.sub_add_cancel (by omega)]
    have hm' : 2 ^ z ≤ m := by
      rw [hsplit, ← Nat.le_div_iff_mul_le (Nat.two_pow_pos i)] at hn' ⊢
      rwa [← hdiv]
    exact_mod_cast hm'

theorem zpow_le_mul_zpow_iff (hpos : 0 < n / 2 ^ i) (e z : Int) :
    (2 : ℚ) ^ z ≤ n * 2 ^ e ↔ (2 : ℚ) ^ z ≤ m * 2 ^ e := by
  have hpow : (0 : ℚ) < 2 ^ e := by positivity
  rw [← div_le_iff₀ hpow, ← div_le_iff₀ hpow, ← zpow_sub₀ two_ne_zero]
  exact ⟨zpow_le_of_div_eq hdiv hpos, zpow_le_of_div_eq hdiv.symm (hdiv ▸ hpos)⟩

end

theorem Measures.of_zpow_le_iff {p q : ℚ} {u : Int} (hu : Measures p u) (h : ∀ z : Int, 2 ^ z ≤ p ↔ 2 ^ z ≤ q) :
    Measures q u := by
  refine ⟨hu.low, ?_, hu.ge.imp_right fun hge => ?_⟩
  · have hlt := hu.lt
    rw [two_exponentWeight_mul_zpow] at hlt ⊢
    exact not_le.mp (mt (h _).mpr (not_le.mpr hlt))
  · rw [exponentWeight_mul_zpow] at hge ⊢
    exact (h _).mp hge

theorem roundsTo_of_inexact {n i : Nat} {e u : Int} (hn : n % 2 ^ i ≠ 0) (hu : e + i < u) :
    RoundsTo (n * 2 ^ e / 2 ^ u) ((n / 2 ^ (u - e - 1).toNat + 1) / 2) := by
  generalize ht : (u - e - 1).toNat = t
  have hn' : n % 2 ^ t ≠ 0 := by
    intro hzero
    have hdvd : 2 ^ i ∣ n := (Nat.pow_dvd_pow 2 (by omega)).trans (Nat.dvd_of_mod_eq_zero hzero)
    exact hn (Nat.mod_eq_zero_of_dvd hdvd)
  have hround := roundsTo_roundDiv n (Nat.mul_pos Nat.two_pos (Nat.two_pow_pos t))
  rw [roundDiv_of_inexact (Nat.two_pow_pos t) hn'] at hround
  have hunit : (2 : ℚ) ^ u = (2 * 2 ^ t : Nat) * 2 ^ e := by
    push_cast
    rw [← pow_succ', ← zpow_natCast, ← zpow_add₀ two_ne_zero]
    congr 1
    omega
  rwa [hunit, mul_div_mul_right _ _ (by positivity)]

/-- Two numbers that differ only after the bits which decide the rounding, and which are not at their end
there, are rounded alike. -/
theorem rounded_eq_of_inexact {n m i : Nat} (hdiv : n / 2 ^ i = m / 2 ^ i) (hn : n % 2 ^ i ≠ 0) (hm : m % 2 ^ i ≠ 0)
    (hbits : 2 * exponentWeight ≤ n / 2 ^ i) (e : Int) : rounded (n * 2 ^ e) = rounded (m * 2 ^ e) := by
  have hlarge : 2 * exponentWeight * 2 ^ i ≤ n := (Nat.le_div_iff_mul_le (Nat.two_pow_pos i)).mp hbits
  have hpos : 0 < n / 2 ^ i := lt_of_lt_of_le (by decide) hbits
  have hnpos : (0 : ℚ) < n := by exact_mod_cast Nat.pos_of_ne_zero fun hzero => by simp [hzero] at hn
  have hmpos : (0 : ℚ) < m := by exact_mod_cast Nat.pos_of_ne_zero fun hzero => by simp [hzero] at hm
  obtain ⟨u, hu⟩ := exists_measures (show (0 : ℚ) < n * 2 ^ e by positivity)
  have hmu := hu.of_zpow_le_iff (zpow_le_mul_zpow_iff hdiv hpos e)
  -- The unit is above the bits in which the two numbers differ, with a bit between them.
  have habove : e + i < u := by
    have hlt := hu.lt
    have hlarge' : (2 * exponentWeight * 2 ^ i : ℚ) ≤ n := by exact_mod_cast hlarge
    have hpow : (2 : ℚ) ^ (e + i + 53) < 2 ^ (u + 53) := by
      calc (2 : ℚ) ^ (e + i + 53) = 2 * exponentWeight * 2 ^ i * 2 ^ e := by
            rw [← two_exponentWeight_mul_zpow, zpow_add₀ two_ne_zero, zpow_natCast]
            ring
        _ ≤ n * 2 ^ e := by gcongr
        _ < 2 ^ (u + 53) := by rwa [← two_exponentWeight_mul_zpow]
    have hexponent := (zpow_lt_zpow_iff_right₀ one_lt_two).mp hpow
    omega
  have hsame : n / 2 ^ (u - e - 1).toNat = m / 2 ^ (u - e - 1).toNat := by
    have hsplit : 2 ^ (u - e - 1).toNat = 2 ^ i * 2 ^ ((u - e - 1).toNat - i) := by
      rw [← pow_add, Nat.add_sub_cancel' (by omega)]
    rw [hsplit, ← Nat.div_div_eq_div_mul, ← Nat.div_div_eq_div_mul, hdiv]
  have hkn := roundsTo_of_inexact hn habove
  have hkm := roundsTo_of_inexact hm habove
  rw [← hsame] at hkm
  rw [rounded_eq (by positivity) hu hkn, rounded_eq (by positivity) hmu hkm]

end FrameMachine.Binary64
