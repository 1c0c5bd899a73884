import FrameMachine.Literal.Number
import FrameMachine.Proofs.HexadecimalDigits
import Mathlib.Data.List.TakeWhile

/-!
# The written form of a real number is read back

The hexadecimal form holds every bit of a finite number: its digits are the significand, and reading
them rounds nothing. Hence `real?` gives back each number that is not a NaN, word for word
(`real_realText`), the signs of the zeros included.
-/

namespace FrameMachine.Binary64

open Numeral

/-! ## The parts of the notation -/

theorem exponent_signedDecimal {e : Int} (h : fitsWord e.natAbs = true) :
    exponent? (signedDecimal e) = some e := by
  unfold exponent? signedDecimal
  have hread := read_toDigits isBase_ten e.natAbs
  by_cases he : e < 0
  · simp only [he, ite_true, splitSign, hread, Option.bind_eq_bind, Option.bind_some, h, signed,
      Option.some.injEq]
    omega
  · simp only [he, ite_false, splitSign, hread, Option.bind_eq_bind, Option.bind_some, h, ite_true, signed,
      Bool.false_eq_true, Option.some.injEq]
    omega

theorem trailing_zeros (cs : List Char) :
    ∃ k, cs = (cs.reverse.dropWhile (· == '0')).reverse ++ List.replicate k '0' := by
  refine ⟨(cs.reverse.takeWhile (· == '0')).length, ?_⟩
  have hzeros : cs.reverse.takeWhile (· == '0') = List.replicate _ '0' :=
    List.eq_replicate_of_mem fun c hc => by simpa using List.mem_takeWhile_imp hc
  have hsplit := congrArg List.reverse (List.takeWhile_append_dropWhile (p := (· == '0')) (l := cs.reverse))
  rw [List.reverse_append, List.reverse_reverse, hzeros, List.reverse_replicate] at hsplit
  exact hsplit.symm

theorem digits_fractionDigits (x : Binary64) :
    ∃ ds k, digits? 16 x.fractionDigits = some ds ∧ ds.length + k = 13 ∧
      value 16 ds * 16 ^ k = x.fraction := by
  obtain ⟨k, hk⟩ := trailing_zeros (padded 16 13 x.fraction)
  obtain ⟨zs, hzs, hvalue⟩ := digits_padded isBase_sixteen 13 x.fraction
  rw [hk] at hzs
  obtain ⟨ds, zeros, hds, hzeros, rfl⟩ := digits_of_append hzs
  rw [digits_zeros isBase_sixteen, Option.some.injEq] at hzeros
  subst hzeros
  refine ⟨ds, k, hds, ?_, ?_⟩
  · have hlength := congrArg List.length hk
    rw [length_padded, List.length_append, List.length_replicate, ← digits_length hds] at hlength
    exact hlength.symm
  · have hlt : x.fraction < 16 ^ 13 := Nat.mod_lt _ (by decide)
    rwa [value_append, value_zeros, List.length_replicate, Nat.add_zero, Nat.mod_eq_of_lt hlt] at hvalue

/-! ## Reading around the point and the mark -/

theorem not_mark_of_digits {cs : List Char} {ds : List Nat} (h : digits? 16 cs = some ds) :
    ∀ c ∈ cs, (!(c == 'p' || c == 'P')) = true := by
  intro c hc
  have hlower := ne_of_digits h (x := 'p') (by decide) c hc
  have hupper := ne_of_digits h (x := 'P') (by decide) c hc
  simp [hlower, hupper]

theorem not_point_of_digits {cs : List Char} {ds : List Nat} (h : digits? 16 cs = some ds) :
    ∀ c ∈ cs, (c != '.') = true := by
  intro c hc
  simpa using ne_of_digits h (by decide) c hc

/-- The text is cut at its first point, which is left out. -/
def CutsAtPoint (body whole places : List Char) : Prop :=
  body.takeWhile (· != '.') = whole ∧ (body.dropWhile (· != '.')).drop 1 = places

theorem scaledDigits_of_cut {body whole places : List Char} {xs ys : List Nat} {e : Int}
    (hcut : CutsAtPoint body whole places) (hne : whole ≠ [] ∨ places ≠ []) (hwhole : digits? 16 whole = some xs)
    (hplaces : digits? 16 places = some ys) (hfits : fitsWord (e + mantissaExponent (xs ++ ys) ys.length) = true) :
    scaledDigits? body e =
      some ((ofNat (mantissa (xs ++ ys))).scale (e + mantissaExponent (xs ++ ys) ys.length)) := by
  have hxs := lt_of_digits isBase_sixteen hwhole
  have hys := lt_of_digits isBase_sixteen hplaces
  have hsome : (whole.isEmpty && places.isEmpty) = false := by
    rcases hne with hne | hne
    · simp [hne]
    · simp [hne]
  unfold scaledDigits?
  dsimp only
  rw [hcut.1, hcut.2]
  simp [hwhole, hplaces, hsome, (Mantissa.reads_ofDigits hxs hys).exponent, hfits, scaleInSteps_ofDigits hxs hys]

theorem hexadecimal_append {body tail : List Char} (hmark : ∀ c ∈ body, (!(c == 'p' || c == 'P')) = true)
    (htail : tail.takeWhile (fun c => !(c == 'p' || c == 'P')) = []) :
    hexadecimal? (body ++ tail) = (markedExponent? tail).bind (scaledDigits? body) := by
  have hrest : tail.dropWhile (fun c => !(c == 'p' || c == 'P')) = tail := by
    have happend := List.takeWhile_append_dropWhile (p := fun c => !(c == 'p' || c == 'P')) (l := tail)
    rwa [htail] at happend
  unfold hexadecimal?
  simp only [List.takeWhile_append_of_pos hmark, List.dropWhile_append_of_pos hmark, htail, hrest, List.append_nil]
  rfl

theorem hexadecimal_of_digits {whole places tail : List Char} {xs ys : List Nat} {e : Int}
    (hne : whole ≠ []) (hwhole : digits? 16 whole = some xs) (hplaces : digits? 16 places = some ys)
    (he : exponent? tail = some e) (hfits : fitsWord (e + mantissaExponent (xs ++ ys) places.length) = true) :
    hexadecimal? (whole ++ (if places.isEmpty then [] else '.' :: places) ++ 'p' :: tail) =
      some ((ofNat (mantissa (xs ++ ys))).scale (e + mantissaExponent (xs ++ ys) places.length)) := by
  generalize hbody : whole ++ (if places.isEmpty then [] else '.' :: places) = body
  -- Neither the mark nor the point is a digit, so both cuts fall where the text was put together.
  have hmark : ∀ c ∈ body, (!(c == 'p' || c == 'P')) = true := by
    intro c hc
    rw [← hbody, List.mem_append] at hc
    rcases hc with hc | hc
    · exact not_mark_of_digits hwhole c hc
    · split at hc
      · cases hc
      · rcases List.mem_cons.mp hc with rfl | hc
        · decide
        · exact not_mark_of_digits hplaces c hc
  have hwhole' := not_point_of_digits hwhole
  have hcut : CutsAtPoint body whole places := by
    rw [CutsAtPoint, ← hbody, List.takeWhile_append_of_pos hwhole', List.dropWhile_append_of_pos hwhole']
    cases places with
    | nil => simp
    | cons c cs => simp
  rw [← digits_length hplaces] at hfits ⊢
  rw [hexadecimal_append hmark rfl, markedExponent?, he, Option.bind_some]
  exact scaledDigits_of_cut hcut (Or.inl hne) hwhole hplaces hfits

/-! ## Few digits -/

theorem mantissa_of_length_le {ds : List Nat} (h : ds.length ≤ 16) : mantissa ds = value 16 ds := by
  have hlength : (significant ds).length ≤ 16 := Nat.le_trans (List.length_dropWhile_le _ _) h
  unfold mantissa
  rw [List.take_of_length_le hlength, List.drop_of_length_le hlength]
  exact value_dropWhile_zero 16 ds

theorem mantissaExponent_of_length_le {ds : List Nat} (h : ds.length ≤ 16) (places : Nat) :
    mantissaExponent ds places = -4 * places := by
  have hlength : (significant ds).length ≤ 16 := Nat.le_trans (List.length_dropWhile_le _ _) h
  unfold mantissaExponent
  omega

/-! ## Finite numbers -/

theorem digit_lead (x : Binary64) :
    ∃ d, digits? 16 [if x.exponentField = 0 then '0' else '1'] = some [d] ∧
      d * 16 ^ 13 + x.fraction = x.significand := by
  unfold significand
  by_cases h : x.exponentField = 0
  · exact ⟨0, by simp [h, digits?, digit?], by simp [h]⟩
  · exact ⟨1, by simp [h, digits?, digit?], by simp [h, exponentWeight]⟩

theorem digits_significand (x : Binary64) :
    ∃ d ds k, digits? 16 [if x.exponentField = 0 then '0' else '1'] = some [d] ∧
      digits? 16 x.fractionDigits = some ds ∧ ds.length + k = 13 ∧
      value 16 ([d] ++ ds) * 16 ^ k = x.significand := by
  obtain ⟨ds, k, hds, hlength, hfraction⟩ := digits_fractionDigits x
  obtain ⟨d, hd, hsignificand⟩ := digit_lead x
  refine ⟨d, ds, k, hd, hds, hlength, ?_⟩
  rw [List.singleton_append, value_cons, Nat.add_mul, hfraction, mul_assoc, ← pow_add, hlength, hsignificand]

theorem scale_digits {m s k : Nat} {u e : Int} (h : Canonical s u) (hs : m * 16 ^ k = s)
    (he : e = u + 4 * k) : (ofNat m).scale e = ofMagnitude false (compose s u) := by
  have hlt : m < 2 * exponentWeight := by
    have hle : m ≤ s := by
      rw [← hs]
      exact Nat.le_mul_of_pos_right _ (by positivity)
    exact lt_of_le_of_lt hle h.lt
  have hpow : (2 : ℚ) ^ (4 * k : Int) = 16 ^ k := by
    rw [zpow_mul, zpow_natCast]
    norm_num
  apply scale_ofNat hlt h
  rw [← hs, he, zpow_add₀ two_ne_zero, hpow]
  push_cast
  ring

theorem unsignedText_finite {x : Binary64} (hzero : x.magnitude ≠ 0) (hfinite : x.magnitude < infinite) :
    x.unsignedText = '0' :: 'x' :: ([if x.exponentField = 0 then '0' else '1'] ++
      (if x.fractionDigits.isEmpty then [] else '.' :: x.fractionDigits) ++
      'p' :: signedDecimal (x.unitExponent + 52)) := by
  have hinfinite : x.isInfinite = false := decide_eq_false (Nat.ne_of_lt hfinite)
  simp [unsignedText, hinfinite, hzero]

theorem unsignedReal_finite {x : Binary64} (hzero : x.magnitude ≠ 0) (hfinite : x.magnitude < infinite) :
    Literal.unsignedReal? x.unsignedText = some (ofMagnitude false x.magnitude) := by
  obtain ⟨hcanonical, hcompose⟩ := canonical_of_finite hzero hfinite
  obtain ⟨d, ds, k, hd, hds, hlength, hexact⟩ := digits_significand x
  have hlow := hcanonical.le_unit
  have hhigh := hcanonical.unit_le
  have hfew : ([d] ++ ds).length ≤ 16 := by
    rw [List.length_append, List.length_singleton]
    omega
  have hexponent : exponent? (signedDecimal (x.unitExponent + 52)) = some (x.unitExponent + 52) := by
    apply exponent_signedDecimal
    simp only [fitsWord, Bool.and_eq_true, decide_eq_true_eq]
    omega
  have hplaces : mantissaExponent ([d] ++ ds) x.fractionDigits.length = -4 * ds.length := by
    rw [mantissaExponent_of_length_le hfew, digits_length hds]
  have hfits : fitsWord (x.unitExponent + 52 + mantissaExponent ([d] ++ ds) x.fractionDigits.length) = true := by
    simp only [hplaces, fitsWord, Bool.and_eq_true, decide_eq_true_eq]
    omega
  have hread := hexadecimal_of_digits (by simp) hd hds hexponent hfits
  rw [hplaces, mantissa_of_length_le hfew, scale_digits hcanonical hexact (by omega), hcompose] at hread
  rw [unsignedText_finite hzero hfinite]
  exact hread

/-! ## All numbers -/

theorem unsignedReal_unsignedText {x : Binary64} (hx : x.isNaN = false) :
    Literal.unsignedReal? x.unsignedText = some (ofMagnitude false x.magnitude) := by
  have hle : x.magnitude ≤ infinite := by simpa [isNaN] using hx
  by_cases hinfinite : x.magnitude = infinite
  · have htext : x.unsignedText = ['i', 'n', 'f'] := by simp [unsignedText, isInfinite, hinfinite]
    rw [htext, hinfinite]
    decide
  · by_cases hzero : x.magnitude = 0
    · have htext : x.unsignedText = ['0', 'x', '0', 'p', '+', '0'] := by
        have hfinite : x.isInfinite = false := decide_eq_false hinfinite
        simp [unsignedText, hfinite, hzero]
      rw [htext, hzero]
      decide
    · exact unsignedReal_finite hzero (by omega)

theorem splitSign_unsignedText (x : Binary64) : splitSign x.unsignedText = (false, x.unsignedText) := by
  unfold unsignedText
  split
  · rfl
  · split
    · rfl
    · rfl

theorem neg_ofMagnitude {m : Nat} (hm : m < signWeight) : (ofMagnitude false m).neg = ofMagnitude true m := by
  rw [neg, isNegative_ofMagnitude _ hm, magnitude_ofMagnitude _ hm]
  rfl

end FrameMachine.Binary64

namespace FrameMachine.Literal

open Binary64 Numeral

theorem real_text {x : Binary64} (hx : x.isNaN = false) : real? (realText x) = some x := by
  have hread := unsignedReal_unsignedText hx
  have hself := ofMagnitude_magnitude x
  unfold real? realText text
  rw [String.toList_ofList]
  by_cases hneg : x.isNegative = true
  · simp only [hx, hneg, Bool.false_eq_true, ite_false, ite_true, splitSign, hread, Option.map_some,
      neg_ofMagnitude x.magnitude_lt, Option.some.injEq]
    rwa [hneg] at hself
  · rw [Bool.not_eq_true] at hneg
    simp only [hx, hneg, Bool.false_eq_true, ite_false, splitSign_unsignedText, hread, Option.map_some,
      Option.some.injEq]
    rwa [hneg] at hself

theorem real_nan {x : Binary64} (hx : x.isNaN = true) : real? (realText x) = some nan := by
  have htext : realText x = String.ofList ['n', 'a', 'n'] := by simp [realText, text, hx]
  rw [htext, real?, String.toList_ofList]
  decide

/-- Every number that is not a NaN is read back from its written form with all its bits, so that no two
of them are written alike. -/
theorem real_realText :
    (∀ x : Binary64, x.isNaN = false → real? (realText x) = some x) ∧
      ∀ x y : Binary64, x.isNaN = false → y.isNaN = false → realText x = realText y → x = y := by
  refine ⟨fun x hx => real_text hx, ?_⟩
  intro x y hx hy htext
  have hread := real_text hx
  rw [htext, real_text hy, Option.some.injEq] at hread
  exact hread.symm

/-- The least subnormal number is read back, and the two zeros are written differently. -/
theorem real_realText_extremes :
    (ofMagnitude true 1).isNaN = false ∧
      real? (realText (ofMagnitude true 1)) = some (ofMagnitude true 1) ∧
      realText (ofMagnitude true 0) ≠ realText (ofMagnitude false 0) := by
  refine ⟨by decide, real_realText.1 _ (by decide), fun h => ?_⟩
  have hzeros := real_realText.2 _ _ (by decide) (by decide) h
  exact absurd hzeros (by decide)

end FrameMachine.Literal
