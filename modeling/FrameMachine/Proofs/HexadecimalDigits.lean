import FrameMachine.Binary64.Hexadecimal
import FrameMachine.Proofs.Numerals
import FrameMachine.Proofs.Scaling

/-!
# Hexadecimal digits as a rounded number

A word keeps the first sixteen digits that count, and of the others only whether one is not zero
(`Mantissa.reads_ofDigits`). That is enough: the number read from the digits is the one nearest to their value
where it is normal (`scale_mantissa_normal`) or its bits fit a significand (`scale_mantissa_exact`).
-/

namespace FrameMachine.Binary64

open Numeral

/-! ## Significant digits -/

/-- The digits from the first one on that is not zero. -/
def significant (ds : List Nat) : List Nat := ds.dropWhile (· == 0)

/-- The first sixteen digits, as a number whose last bit says whether the others count. -/
def mantissa (ds : List Nat) : Nat :=
  let m := value 16 ((significant ds).take 16)
  if ((significant ds).drop 16).all (· == 0) then m else m ||| 1

/-- The exponent of the mantissa's last bit. -/
def mantissaExponent (ds : List Nat) (places : Nat) : Int :=
  4 * ((significant ds).length - 16 : Nat) - 4 * (places : Int)

theorem value_lt {ds : List Nat} (h : ∀ d ∈ ds, d < 16) : value 16 ds < 16 ^ ds.length := by
  rw [value_eq_ofDigits, ← List.length_reverse]
  exact Nat.ofDigits_lt_base_pow_length (by decide) (by simpa using h)

theorem lt_of_mem_significant {ds : List Nat} (h : ∀ d ∈ ds, d < 16) : ∀ d ∈ significant ds, d < 16 :=
  fun d hd => h d ((List.dropWhile_sublist _).subset hd)

theorem head_significant {ds t : List Nat} {d : Nat} (hs : significant ds = d :: t) : d ≠ 0 := by
  have hhead := List.head?_dropWhile_not (· == 0) ds
  rw [significant] at hs
  rw [hs] at hhead
  simpa using hhead

theorem le_value_take {ds : List Nat} (h : 16 ≤ (significant ds).length) :
    16 ^ 15 ≤ value 16 ((significant ds).take 16) := by
  cases hs : significant ds with
  | nil => simp [hs] at h
  | cons d t =>
    have hd := Nat.pos_of_ne_zero (head_significant hs)
    rw [hs, List.length_cons] at h
    have hlength : (t.take 15).length = 15 := by
      rw [List.length_take]
      omega
    rw [List.take_succ_cons, value_cons, hlength]
    exact le_trans (Nat.le_mul_of_pos_left _ hd) (Nat.le_add_right _ _)

/-- Sixteen digits that count fill a word, and fewer leave room for another one. -/
theorem value_take_lt_iff {ds : List Nat} (h : ∀ d ∈ ds, d < 16) :
    value 16 ((significant ds).take 16) < 2 ^ 60 ↔ (significant ds).length < 16 := by
  constructor
  · intro hlt
    by_contra hge
    have hle := le_value_take (not_lt.mp hge)
    omega
  · intro hlt
    rw [List.take_of_length_le hlt.le]
    calc value 16 (significant ds) < 16 ^ (significant ds).length := value_lt (lt_of_mem_significant h)
      _ ≤ 16 ^ 15 := Nat.pow_le_pow_right (by decide) (by omega)
      _ = 2 ^ 60 := by norm_num

theorem value_significant (ds : List Nat) : value 16 (significant ds) = value 16 ds := value_dropWhile_zero 16 ds

theorem significant_append {ds : List Nat} (hne : significant ds ≠ []) (d : Nat) :
    significant (ds ++ [d]) = significant ds ++ [d] := by
  unfold significant at hne ⊢
  rw [List.dropWhile_append, if_neg (by simpa using hne)]

theorem length_significant_append_le (ds : List Nat) (d : Nat) :
    (significant (ds ++ [d])).length ≤ (significant ds).length + 1 := by
  by_cases hne : significant ds = []
  · have hlast : significant (ds ++ [d]) = significant [d] := by
      unfold significant at hne ⊢
      rw [List.dropWhile_append, if_pos (by simpa using hne)]
    rw [hlast, hne]
    exact (List.dropWhile_sublist _).length_le
  · rw [significant_append hne, List.length_append, List.length_singleton]

/-! ## Words of digits -/

theorem shiftRight_eq_zero_iff (w : UInt64) : w >>> 60 = 0 ↔ w.toNat < 2 ^ 60 := by
  rw [← UInt64.toNat_inj, UInt64.toNat_shiftRight, Nat.shiftRight_eq_div_pow]
  exact Nat.div_eq_zero_iff_lt (by decide)

theorem toNat_shiftLeft_or {w : UInt64} {d : Nat} (hw : w.toNat < 2 ^ 60) (hd : d < 16) :
    (w <<< 4 ||| UInt64.ofNat d).toNat = 16 * w.toNat + d := by
  have hshift : (w <<< 4).toNat = w.toNat <<< 4 := by
    rw [UInt64.toNat_shiftLeft]
    refine Nat.mod_eq_of_lt ?_
    change w.toNat <<< 4 < 2 ^ 64
    rw [Nat.shiftLeft_eq]
    omega
  rw [UInt64.toNat_or, hshift, UInt64.toNat_ofNat_of_lt' (by simp only [UInt64.size]; omega),
    ← Nat.shiftLeft_add_eq_or_of_lt hd, Nat.shiftLeft_eq]
  ring

namespace Mantissa

/-- What the mantissa holds of the digits read so far, the last `places` of which stand after the point. -/
structure Reads (m : Mantissa) (ds : List Nat) (places : Nat) : Prop where
  word : m.word.toNat = value 16 ((significant ds).take 16)
  exponent : m.exponent = mantissaExponent ds places
  inexact : m.inexact = !((significant ds).drop 16).all (· == 0)

theorem reads_zero : Reads zero [] 0 := ⟨rfl, rfl, rfl⟩

theorem Reads.digit {m : Mantissa} {ds : List Nat} {places d : Nat} (h : Reads m ds places) (hds : ∀ x ∈ ds, x < 16)
    (hd : d < 16) (isPlace : Bool) :
    Reads (m.digit isPlace d) (ds ++ [d]) (if isPlace then places + 1 else places) := by
  have hroom : m.word >>> 60 = 0 ↔ (significant ds).length < 16 := by
    rw [shiftRight_eq_zero_iff, h.word, value_take_lt_iff hds]
  have hword := h.word
  have hexponent := h.exponent
  have hinexact := h.inexact
  unfold mantissaExponent at hexponent
  unfold Mantissa.digit
  by_cases hlt : (significant ds).length < 16
  · -- With room for the digit, no digit has been left out and the word is the whole value.
    have hlength := length_significant_append_le ds d
    have hlow : m.word.toNat < 2 ^ 60 := (shiftRight_eq_zero_iff _).mp (hroom.mpr hlt)
    rw [List.take_of_length_le hlt.le, value_significant] at hword
    rw [List.drop_of_length_le hlt.le] at hinexact
    rw [if_pos (hroom.mpr hlt)]
    refine ⟨?_, ?_, ?_⟩
    · rw [List.take_of_length_le (by omega), value_significant, toNat_shiftLeft_or hlow hd, hword, value_append]
      simp only [value, List.foldl_cons, List.foldl_nil, List.length_singleton]
      ring
    · unfold mantissaExponent
      cases isPlace with
      | true => simp only [hexponent, ite_true]; omega
      | false => simp only [hexponent, Bool.false_eq_true, ite_false]; omega
    · rw [List.drop_of_length_le (by omega)]
      exact hinexact
  · -- The word is full: it stays, and the digit only moves it or makes it inexact.
    have hne : significant ds ≠ [] := by
      intro hnil
      simp [hnil] at hlt
    have hge : 16 ≤ (significant ds).length := not_lt.mp hlt
    rw [if_neg (mt hroom.mp hlt)]
    refine ⟨?_, ?_, ?_⟩
    · rw [significant_append hne, List.take_append_of_le_length hge]
      exact hword
    · unfold mantissaExponent
      rw [significant_append hne, List.length_append, List.length_singleton]
      cases isPlace with
      | true => simp only [hexponent, ite_true]; omega
      | false => simp only [hexponent, Bool.false_eq_true, ite_false]; omega
    · rw [significant_append hne, List.drop_append_of_le_length hge, List.all_append, Bool.not_and, ← hinexact]
      simp [bne]

theorem Reads.foldl {m : Mantissa} {ds : List Nat} {places : Nat} (h : Reads m ds places) (hds : ∀ x ∈ ds, x < 16)
    {xs : List Nat} (hxs : ∀ x ∈ xs, x < 16) (isPlace : Bool) :
    Reads (xs.foldl (Mantissa.digit isPlace) m) (ds ++ xs) (if isPlace then places + xs.length else places) := by
  induction xs generalizing m ds places with
  | nil => cases isPlace <;> simpa using h
  | cons d xs ih =>
    have hd : d < 16 := hxs d List.mem_cons_self
    have hds' : ∀ x ∈ ds ++ [d], x < 16 := by
      intro x hx
      rcases List.mem_append.mp hx with hx | hx
      · exact hds x hx
      · rw [List.mem_singleton.mp hx]
        exact hd
    have hread := ih (h.digit hds hd isPlace) hds' fun x hx => hxs x (List.mem_cons_of_mem _ hx)
    rw [List.append_assoc, List.singleton_append] at hread
    cases isPlace with
    | true => simpa [Nat.add_assoc, Nat.add_comm, Nat.add_left_comm] using hread
    | false => simpa using hread

theorem reads_ofDigits {xs ys : List Nat} (hxs : ∀ x ∈ xs, x < 16) (hys : ∀ y ∈ ys, y < 16) :
    Reads (ofDigits xs ys) (xs ++ ys) ys.length := by
  have hwhole : Reads (xs.foldl (Mantissa.digit false) zero) xs 0 := by
    simpa using reads_zero.foldl (by simp) hxs false
  unfold ofDigits
  simpa using hwhole.foldl hxs hys true

theorem toNat_rounding {xs ys : List Nat} (hxs : ∀ x ∈ xs, x < 16) (hys : ∀ y ∈ ys, y < 16) :
    (ofDigits xs ys).rounding.toNat = mantissa (xs ++ ys) := by
  have hreads := reads_ofDigits hxs hys
  unfold rounding mantissa
  rw [hreads.inexact, ← hreads.word]
  cases ((significant (xs ++ ys)).drop 16).all (· == 0) with
  | true => rfl
  | false => exact UInt64.toNat_or _ _

end Mantissa

theorem scaleInSteps_ofDigits {xs ys : List Nat} (hxs : ∀ x ∈ xs, x < 16) (hys : ∀ y ∈ ys, y < 16) (e : Int) :
    (ofNat (Mantissa.ofDigits xs ys).rounding.toNat).scaleInSteps (max (-4000) (min e 4000)) =
      (ofNat (mantissa (xs ++ ys))).scale e := by
  rw [scaleInSteps_ofNat (UInt64.toNat_lt _), Mantissa.toNat_rounding hxs hys]

/-! ## The value of the digits -/

theorem value_eq_zero_iff {ds : List Nat} : value 16 ds = 0 ↔ ds.all (· == 0) = true := by
  induction ds with
  | nil => simp [value]
  | cons d ds ih => simp [value_cons, ← ih]

theorem value_split (ds : List Nat) :
    value 16 ds = value 16 ((significant ds).take 16) * 16 ^ ((significant ds).length - 16) +
      value 16 ((significant ds).drop 16) := by
  rw [← value_significant, ← List.length_drop, ← value_append, List.take_append_drop]

theorem mantissa_eq (ds : List Nat) :
    mantissa ds = if value 16 ((significant ds).drop 16) = 0 then value 16 ((significant ds).take 16)
      else value 16 ((significant ds).take 16) ||| 1 := by
  unfold mantissa
  simp only [value_eq_zero_iff]

theorem mantissa_lt {ds : List Nat} (hds : ∀ d ∈ ds, d < 16) : mantissa ds < 2 ^ 64 := by
  have hlength : ((significant ds).take 16).length ≤ 16 := List.length_take_le _ _
  have htop : value 16 ((significant ds).take 16) < 2 ^ 64 := by
    calc value 16 ((significant ds).take 16) < 16 ^ ((significant ds).take 16).length :=
          value_lt fun d hd => lt_of_mem_significant hds d (List.mem_of_mem_take hd)
      _ ≤ 16 ^ 16 := Nat.pow_le_pow_right (by decide) hlength
      _ = 2 ^ 64 := by norm_num
  rw [mantissa_eq]
  split
  · exact htop
  · exact Nat.or_lt_two_pow htop (by decide)

theorem value_drop_lt {ds : List Nat} (hds : ∀ d ∈ ds, d < 16) :
    value 16 ((significant ds).drop 16) < 16 ^ ((significant ds).length - 16) := by
  rw [← List.length_drop]
  exact value_lt fun d hd => lt_of_mem_significant hds d (List.mem_of_mem_drop hd)

theorem le_value_take_of_ne_zero {ds : List Nat} (hlow : value 16 ((significant ds).drop 16) ≠ 0) :
    2 ^ 60 ≤ value 16 ((significant ds).take 16) := by
  have hlength : 16 ≤ (significant ds).length := by
    by_contra hlt
    rw [List.drop_of_length_le (by omega)] at hlow
    exact hlow rfl
  exact le_trans (by norm_num) (le_value_take hlength)

theorem mul_zpow_mantissaExponent (n : Nat) (ds : List Nat) (places : Nat) (e : Int) :
    (n * 2 ^ (e + mantissaExponent ds places) : ℚ) =
      (n * 16 ^ ((significant ds).length - 16) : Nat) * 2 ^ (e - 4 * places) := by
  have hpow : (16 : ℚ) ^ ((significant ds).length - 16) = 2 ^ (4 * ((significant ds).length - 16 : Nat) : Int) := by
    rw [zpow_mul, zpow_natCast]
    norm_num
  push_cast
  rw [hpow, mul_assoc, ← zpow_add₀ two_ne_zero, mantissaExponent]
  congr 2
  ring

section
variable (top : Nat) {low j : Nat} (hlow : low < 16 ^ j)
include hlow

/-- A last bit that stands for what is left out keeps the number between the same boundaries. -/
theorem div_or_one :
    (top * 16 ^ j + low) / (16 ^ j * 2) = top / 2 ∧ (top ||| 1) * 16 ^ j / (16 ^ j * 2) = top / 2 := by
  have hpos : 0 < 16 ^ j := by positivity
  rw [← Nat.div_div_eq_div_mul, ← Nat.div_div_eq_div_mul, Nat.mul_div_cancel _ hpos, Nat.or_div_two,
    Nat.mul_comm top, Nat.mul_add_div hpos, Nat.div_eq_of_lt hlow]
  exact ⟨rfl, Nat.or_zero _⟩

theorem mod_or_one (hne : low ≠ 0) :
    (top * 16 ^ j + low) % (16 ^ j * 2) ≠ 0 ∧ (top ||| 1) * 16 ^ j % (16 ^ j * 2) ≠ 0 := by
  constructor
  · intro hzero
    have hdvd : 16 ^ j ∣ top * 16 ^ j + low := (Dvd.intro _ rfl).trans (Nat.dvd_of_mod_eq_zero hzero)
    have hlow' := (Nat.dvd_add_right (Nat.dvd_mul_left _ _)).mp hdvd
    exact hne (Nat.eq_zero_of_dvd_of_lt hlow' hlow)
  · have hodd : (top ||| 1) % 2 = 1 := Nat.or_mod_two_eq_one.mpr (Or.inr rfl)
    rw [Nat.mul_comm, Nat.mul_mod_mul_left, hodd]
    positivity

end

theorem rounded_mantissa {ds : List Nat} (hds : ∀ d ∈ ds, d < 16) (places : Nat) (e : Int) :
    rounded (mantissa ds * 2 ^ (e + mantissaExponent ds places)) = rounded (value 16 ds * 2 ^ (e - 4 * places)) ∧
      ∀ z : Int, (2 : ℚ) ^ z ≤ value 16 ds * 2 ^ (e - 4 * places) →
        (2 : ℚ) ^ z ≤ mantissa ds * 2 ^ (e + mantissaExponent ds places) := by
  have hsplit := value_split ds
  have hlt := value_drop_lt hds
  have htop := @le_value_take_of_ne_zero ds
  rw [mul_zpow_mantissaExponent, mantissa_eq]
  generalize value 16 ((significant ds).take 16) = top at *
  generalize value 16 ((significant ds).drop 16) = low at *
  generalize (significant ds).length - 16 = j at *
  by_cases hlow : low = 0
  · rw [if_pos hlow, hsplit, hlow, Nat.add_zero]
    exact ⟨rfl, fun _ h => h⟩
  · -- Both numbers lie strictly between the same two multiples of twice the unit of the last digit kept.
    have hweight : 2 * exponentWeight ≤ top / 2 := by
      have hge := htop hlow
      unfold exponentWeight
      omega
    have hpow : 2 ^ (4 * j + 1) = 16 ^ j * 2 := by
      rw [pow_succ, pow_mul]
      norm_num
    obtain ⟨hn, hm⟩ := div_or_one top hlt
    obtain ⟨hn', hm'⟩ := mod_or_one top hlt hlow
    rw [← hsplit, ← hpow] at hn hn'
    rw [← hpow] at hm hm'
    rw [if_neg hlow]
    have hdiv := hn.trans hm.symm
    have hbits : 2 * exponentWeight ≤ value 16 ds / 2 ^ (4 * j + 1) := by rwa [hn]
    have hpos : 0 < value 16 ds / 2 ^ (4 * j + 1) := lt_of_lt_of_le (by decide) hbits
    exact ⟨(rounded_eq_of_inexact hdiv hn' hm' hbits _).symm, fun z => (zpow_le_mul_zpow_iff hdiv hpos _ z).mp⟩

theorem scale_mantissa_normal {ds : List Nat} (hds : ∀ d ∈ ds, d < 16) {places : Nat} {e : Int}
    (hnormal : (2 : ℚ) ^ (-1022 : Int) ≤ value 16 ds * 2 ^ (e - 4 * places)) :
    (ofNat (mantissa ds)).scale (e + mantissaExponent ds places) = ofRat (value 16 ds * 2 ^ (e - 4 * places)) := by
  obtain ⟨hrounded, hpowers⟩ := rounded_mantissa hds places e
  rw [scale_ofNat_normal (mantissa_lt hds) (hpowers _ hnormal), ofRat, ofRat, hrounded]

theorem value_drop_eq_zero {ds : List Nat} (hds : ∀ d ∈ ds, d < 16) {o k : Nat} (ho : o < 2 * exponentWeight)
    (hvalue : value 16 ds = o * 2 ^ k) : value 16 ((significant ds).drop 16) = 0 := by
  have hsplit := value_split ds
  have hlt := value_drop_lt hds
  have htop := @le_value_take_of_ne_zero ds
  generalize value 16 ((significant ds).take 16) = top at *
  generalize value 16 ((significant ds).drop 16) = low at *
  generalize (significant ds).length - 16 = j at *
  by_contra hlow
  have hpow : 16 ^ j = 2 ^ (4 * j) := by rw [pow_mul]; norm_num
  -- The value has more than `53 + 4 * j` bits, so that the zeros at its end reach the digits left out.
  have hzeros : 4 * j ≤ k := by
    have hbits : 2 ^ (60 + 4 * j) < 2 ^ (53 + k) := by
      calc 2 ^ (60 + 4 * j) = 2 ^ 60 * 16 ^ j := by rw [pow_add, hpow]
        _ ≤ top * 16 ^ j := Nat.mul_le_mul_right _ (htop hlow)
        _ ≤ o * 2 ^ k := by omega
        _ < 2 * exponentWeight * 2 ^ k := Nat.mul_lt_mul_of_pos_right ho (Nat.two_pow_pos k)
        _ = 2 ^ (53 + k) := by rw [pow_add, show 2 * exponentWeight = 2 ^ 53 by rfl]
    have hexponent := (Nat.pow_lt_pow_iff_right (by decide)).mp hbits
    omega
  have hdvd : 16 ^ j ∣ top * 16 ^ j + low := by
    rw [← hsplit, hvalue, hpow]
    exact (Nat.pow_dvd_pow 2 hzeros).trans (Nat.dvd_mul_left _ _)
  exact hlow (Nat.eq_zero_of_dvd_of_lt ((Nat.dvd_add_right (Nat.dvd_mul_left _ _)).mp hdvd) hlt)

theorem exists_odd_part {t o j k : Nat} (ho : o < 2 * exponentWeight) (h : t * 2 ^ j = o * 2 ^ k) :
    ∃ o' k', o' < 2 * exponentWeight ∧ t = o' * 2 ^ k' := by
  rcases Nat.le_total j k with hle | hle
  · refine ⟨o, k - j, ho, Nat.eq_of_mul_eq_mul_right (Nat.two_pow_pos j) ?_⟩
    rw [h, Nat.mul_assoc, ← pow_add, Nat.sub_add_cancel hle]
  · refine ⟨t, 0, lt_of_le_of_lt ?_ ho, by simp⟩
    have hcancel : t * 2 ^ (j - k) = o := by
      refine Nat.eq_of_mul_eq_mul_right (Nat.two_pow_pos k) ?_
      rw [← h, Nat.mul_assoc, ← pow_add, Nat.sub_add_cancel hle]
    rw [← hcancel]
    exact Nat.le_mul_of_pos_right _ (Nat.two_pow_pos _)

theorem scale_mantissa_exact {ds : List Nat} (hds : ∀ d ∈ ds, d < 16) {o k : Nat} (ho : o < 2 * exponentWeight)
    (hvalue : value 16 ds = o * 2 ^ k) (places : Nat) (e : Int) :
    (ofNat (mantissa ds)).scale (e + mantissaExponent ds places) = ofRat (value 16 ds * 2 ^ (e - 4 * places)) := by
  have hlow := value_drop_eq_zero hds ho hvalue
  have hmantissa : mantissa ds = value 16 ((significant ds).take 16) := by rw [mantissa_eq, if_pos hlow]
  have hsplit : value 16 ds = mantissa ds * 16 ^ ((significant ds).length - 16) := by
    rw [value_split, hlow, Nat.add_zero, hmantissa]
  have hbits : mantissa ds * 2 ^ (4 * ((significant ds).length - 16)) = o * 2 ^ k := by
    rw [← hvalue, hsplit, pow_mul]
    norm_num
  obtain ⟨o', k', ho', hpart⟩ := exists_odd_part ho hbits
  have hlt := mantissa_lt hds
  have hscale := scale_ofNat_exact ho' (hpart ▸ hlt) (e + mantissaExponent ds places)
  rw [← hpart, mul_zpow_mantissaExponent, ← hsplit] at hscale
  exact hscale

end FrameMachine.Binary64
