import FrameMachine.Proofs.LiteralNotation

/-!
# Hexadecimal real literals

`SpellsHexadecimal` says which texts denote a number after `0x`: digits around at most one point, and a binary
exponent. Such a text is read unless its exponents leave a signed word, no other text is read, and the result
is the nearest number wherever rounding twice cannot show (`real_hexadecimal_exact`).
-/

namespace FrameMachine.Literal

open Binary64 Numeral Text

/-- The parts of a hexadecimal literal: the digits before and after the point, and the exponent. -/
@[ext]
structure Hexadecimal where
  whole : List Nat
  places : List Nat
  exponent : Int

namespace Hexadecimal

def digits (h : Hexadecimal) : List Nat := h.whole ++ h.places

def integer (h : Hexadecimal) : Nat := Nat.ofDigits 16 h.digits.reverse

/-- The number that the literal denotes, with the sign before it. -/
def denoted (h : Hexadecimal) (negative : Bool) : ℚ :=
  (if negative then -1 else 1) * (h.integer * 2 ^ (h.exponent - 4 * h.places.length))

/-- The exponent by which the mantissa is scaled. -/
def scaling (h : Hexadecimal) : Int := h.exponent + mantissaExponent h.digits h.places.length

/-- Neither the exponent that is written nor the one of the mantissa leaves a signed word. -/
structure InRange (h : Hexadecimal) : Prop where
  exponent : |h.exponent| < 2 ^ 63
  scaling : -2 ^ 63 ≤ h.scaling ∧ h.scaling < 2 ^ 63

def unsigned (h : Hexadecimal) : Binary64 := (ofNat (mantissa h.digits)).scale h.scaling

def number (h : Hexadecimal) (negative : Bool) : Binary64 := if negative then h.unsigned.neg else h.unsigned

end Hexadecimal

/-- Hexadecimal digits, not none, around at most one point. -/
inductive SpellsDigits : List Char → List Nat → List Nat → Prop
  | whole {hs : List Char} {xs : List Nat} : hs ≠ [] → List.Forall₂ (IsDigit 16) hs xs → SpellsDigits hs xs []
  | pointed {hs fs : List Char} {xs ys : List Nat} : hs ≠ [] ∨ fs ≠ [] → List.Forall₂ (IsDigit 16) hs xs →
      List.Forall₂ (IsDigit 16) fs ys → SpellsDigits (hs ++ '.' :: fs) xs ys

/-- No exponent, or its mark, an optional sign and decimal digits. -/
inductive SpellsExponent : List Char → Int → Prop
  | absent : SpellsExponent [] 0
  | present {p : Char} {sign ds : List Char} {negative : Bool} {n : Nat} : p = 'p' ∨ p = 'P' → Sign sign negative →
      Spells 10 ds n → SpellsExponent (p :: (sign ++ ds)) (if negative then -(n : Int) else n)

inductive SpellsHexadecimal : List Char → Hexadecimal → Prop
  | intro {ds tail : List Char} {h : Hexadecimal} :
      SpellsDigits ds h.whole h.places → SpellsExponent tail h.exponent →
      SpellsHexadecimal (ds ++ tail) h

/-! ## Exponents -/

theorem splitSign_of_decimal {sign ds : List Char} {negative : Bool} {n : Nat} (hsign : Sign sign negative)
    (hds : Spells 10 ds n) : splitSign (sign ++ ds) = (negative, ds) := by
  obtain ⟨xs, hxs, -⟩ := hds.2
  exact splitSign_append hsign (splitSign_of_digits ((digits_eq_some_iff isBase_ten).mpr hxs))

theorem SpellsExponent.unique {tail : List Char} {e e' : Int} (h : SpellsExponent tail e)
    (h' : SpellsExponent tail e') :
    e = e' := by
  cases h with
  | absent =>
    cases h' with
    | absent => rfl
  | @present p sign ds negative n hp hsign hds =>
    generalize htail : p :: (sign ++ ds) = t at h'
    cases h' with
    | absent => cases htail
    | present hp' hsign' hds' =>
      have hrest := (List.cons.inj htail).2
      have hsplit := splitSign_of_decimal hsign hds
      rw [hrest, splitSign_of_decimal hsign' hds'] at hsplit
      obtain ⟨rfl, rfl⟩ := Prod.mk.inj hsplit
      have hread := (read_eq_some_iff isBase_ten).mpr hds
      rw [(read_eq_some_iff isBase_ten).mpr hds'] at hread
      rw [Option.some.inj hread]

theorem exponent_of_spells {sign ds : List Char} {negative : Bool} {n : Nat} (hsign : Sign sign negative)
    (hds : Spells 10 ds n) (hn : n < 2 ^ 63) : exponent? (sign ++ ds) = some (signed negative n) := by
  have hfits : fitsWord n = true := fitsWord_iff.mpr ⟨by omega, by exact_mod_cast hn⟩
  unfold exponent?
  simp [splitSign_of_decimal hsign hds, (read_eq_some_iff isBase_ten).mpr hds, hfits]

theorem spells_of_exponent {cs : List Char} {e : Int} (h : exponent? cs = some e) {p : Char}
    (hp : p = 'p' ∨ p = 'P') :
    SpellsExponent (p :: cs) e ∧ |e| < 2 ^ 63 := by
  obtain ⟨sign, negative, ds, hsign, rfl, hsplit⟩ := exists_sign cs
  unfold exponent? at h
  simp only [hsplit] at h
  obtain ⟨n, hn, hvalue⟩ := Option.bind_eq_some_iff.mp h
  split at hvalue
  · rename_i hfits
    have hlt := (fitsWord_iff.mp hfits).2
    obtain rfl := Option.some.inj hvalue
    refine ⟨.present hp hsign ((read_eq_some_iff isBase_ten).mp hn), ?_⟩
    rw [abs_lt]
    unfold signed
    split <;> omega
  · cases hvalue

theorem markedExponent_iff {tail : List Char} {e : Int}
    (htail : tail.takeWhile (fun c => !(c == 'p' || c == 'P')) = []) :
    markedExponent? tail = some e ↔ SpellsExponent tail e ∧ |e| < 2 ^ 63 := by
  constructor
  · intro he
    cases tail with
    | nil =>
      obtain rfl := Option.some.inj he
      exact ⟨.absent, by decide⟩
    | cons p cs =>
      have hp : p = 'p' ∨ p = 'P' := or_iff_not_imp_left.mpr (by simpa using htail)
      exact spells_of_exponent he hp
  · rintro ⟨hspells, hlt⟩
    cases hspells with
    | absent => rfl
    | present hp hsign hds =>
      refine exponent_of_spells hsign hds ?_
      rw [abs_lt] at hlt
      split at hlt <;> omega

theorem SpellsExponent.starts {tail : List Char} {e : Int} (h : SpellsExponent tail e) :
    tail.takeWhile (fun c => !(c == 'p' || c == 'P')) = [] := by
  cases h with
  | absent => rfl
  | present hp =>
    rcases hp with rfl | rfl
    · rfl
    · rfl

/-! ## Digits and the point -/

theorem SpellsDigits.cut {body : List Char} {xs ys : List Nat} (h : SpellsDigits body xs ys) :
    (∀ c ∈ body, (!(c == 'p' || c == 'P')) = true) ∧ ∃ whole places, CutsAtPoint body whole places ∧
      (whole ≠ [] ∨ places ≠ []) ∧ digits? 16 whole = some xs ∧ digits? 16 places = some ys := by
  cases h with
  | whole hne hxs =>
    have hwhole := (digits_eq_some_iff isBase_sixteen).mpr hxs
    have hpoint := not_point_of_digits hwhole
    refine ⟨not_mark_of_digits hwhole, body, [], ⟨?_, ?_⟩, Or.inl hne, hwhole, rfl⟩
    · exact List.takeWhile_eq_self_iff.mpr hpoint
    · rw [List.dropWhile_eq_nil_iff.mpr hpoint, List.drop_nil]
  | @pointed hs fs _ _ hne hxs hys =>
    have hwhole := (digits_eq_some_iff isBase_sixteen).mpr hxs
    have hplaces := (digits_eq_some_iff isBase_sixteen).mpr hys
    have hpoint := not_point_of_digits hwhole
    refine ⟨?_, hs, fs, ⟨?_, ?_⟩, hne, hwhole, hplaces⟩
    · intro c hc
      rcases List.mem_append.mp hc with hc | hc
      · exact not_mark_of_digits hwhole c hc
      · rcases List.mem_cons.mp hc with rfl | hc
        · decide
        · exact not_mark_of_digits hplaces c hc
    · simp [List.takeWhile_append_of_pos hpoint]
    · simp [List.dropWhile_append_of_pos hpoint]

theorem SpellsDigits.unique {body : List Char} {xs ys xs' ys' : List Nat} (h : SpellsDigits body xs ys)
    (h' : SpellsDigits body xs' ys') : xs = xs' ∧ ys = ys' := by
  obtain ⟨-, whole, places, ⟨rfl, rfl⟩, -, hwhole, hplaces⟩ := h.cut
  obtain ⟨-, whole', places', ⟨rfl, rfl⟩, -, hwhole', hplaces'⟩ := h'.cut
  exact ⟨Option.some.inj (hwhole.symm.trans hwhole'), Option.some.inj (hplaces.symm.trans hplaces')⟩

theorem spellsDigits_of_cut {body whole places : List Char} {xs ys : List Nat}
    (hcut : CutsAtPoint body whole places)
    (hne : whole ≠ [] ∨ places ≠ []) (hwhole : digits? 16 whole = some xs) (hplaces : digits? 16 places = some ys) :
    SpellsDigits body xs ys := by
  have hxs := (digits_eq_some_iff isBase_sixteen).mp hwhole
  have hys := (digits_eq_some_iff isBase_sixteen).mp hplaces
  obtain ⟨hbefore, hafter⟩ := hcut
  have hbody := List.takeWhile_append_dropWhile (p := (· != '.')) (l := body)
  cases hrest : body.dropWhile (· != '.') with
  | nil =>
    rw [hrest, List.drop_nil] at hafter
    rw [hrest, hbefore, List.append_nil] at hbody
    subst hafter hbody
    obtain rfl := Option.some.inj hplaces
    exact .whole (hne.resolve_right fun h => h rfl) hxs
  | cons c after =>
    have hc : c = '.' := by simpa using of_dropWhile_eq_cons hrest
    rw [hrest, List.drop_one, List.tail_cons] at hafter
    rw [hrest, hbefore, hc, hafter] at hbody
    rw [← hbody]
    exact .pointed hne hxs hys

/-! ## Literals -/

theorem takeWhile_digits {body tail : List Char} {xs ys : List Nat} {e : Int} (hdigits : SpellsDigits body xs ys)
    (hexponent : SpellsExponent tail e) : (body ++ tail).takeWhile (fun c => !(c == 'p' || c == 'P')) = body := by
  rw [List.takeWhile_append_of_pos hdigits.cut.1, hexponent.starts, List.append_nil]

theorem SpellsHexadecimal.unique {cs : List Char} {h h' : Hexadecimal} (hspells : SpellsHexadecimal cs h)
    (hspells' : SpellsHexadecimal cs h') : h = h' := by
  cases hspells with
  | @intro body tail _ hdigits hexponent =>
    generalize hcs : body ++ tail = cs at hspells'
    cases hspells' with
    | @intro body' tail' _ hdigits' hexponent' =>
      obtain rfl : body = body' := by
        rw [← takeWhile_digits hdigits hexponent, hcs, takeWhile_digits hdigits' hexponent']
      obtain rfl := List.append_cancel_left hcs
      obtain ⟨hwhole, hplaces⟩ := hdigits.unique hdigits'
      exact Hexadecimal.ext hwhole hplaces (hexponent.unique hexponent')

theorem hexadecimal_of_spells {cs : List Char} {h : Hexadecimal} (hspells : SpellsHexadecimal cs h)
    (hrange : h.InRange) :
    hexadecimal? cs = some h.unsigned := by
  cases hspells with
  | intro hdigits hexponent =>
    obtain ⟨hmark, whole, places, hcut, hne, hwhole, hplaces⟩ := hdigits.cut
    have hread := (markedExponent_iff hexponent.starts).mpr ⟨hexponent, hrange.exponent⟩
    rw [hexadecimal_append hmark hexponent.starts, hread, Option.bind_some]
    exact scaledDigits_of_cut hcut hne hwhole hplaces (fitsWord_iff.mpr hrange.scaling)

theorem spells_of_scaledDigits {body : List Char} {e : Int} {x : Binary64} (h : scaledDigits? body e = some x) :
    ∃ xs ys, SpellsDigits body xs ys ∧ -2 ^ 63 ≤ e + mantissaExponent (xs ++ ys) ys.length ∧
      e + mantissaExponent (xs ++ ys) ys.length < 2 ^ 63 := by
  unfold scaledDigits? at h
  dsimp only at h
  split at h
  · cases h
  · rename_i hne
    obtain ⟨xs, hxs, h⟩ := Option.bind_eq_some_iff.mp h
    obtain ⟨ys, hys, h⟩ := Option.bind_eq_some_iff.mp h
    have hne' : body.takeWhile (· != '.') ≠ [] ∨ (body.dropWhile (· != '.')).drop 1 ≠ [] := by
      rw [Bool.and_eq_true, List.isEmpty_iff, List.isEmpty_iff] at hne
      exact not_and_or.mp hne
    refine ⟨xs, ys, spellsDigits_of_cut ⟨rfl, rfl⟩ hne' hxs hys, ?_⟩
    rw [← (Mantissa.reads_ofDigits (lt_of_digits isBase_sixteen hxs) (lt_of_digits isBase_sixteen hys)).exponent,
      ← fitsWord_iff]
    by_contra hfits
    simp [hfits] at h

theorem spells_of_hexadecimal {cs : List Char} {x : Binary64} (hread : hexadecimal? cs = some x) :
    ∃ h, SpellsHexadecimal cs h ∧ h.InRange := by
  obtain ⟨e, he, hdigits⟩ := Option.bind_eq_some_iff.mp hread
  obtain ⟨xs, ys, hspells, hscaling⟩ := spells_of_scaledDigits hdigits
  have hcs := List.takeWhile_append_dropWhile (p := fun c => !(c == 'p' || c == 'P')) (l := cs)
  have hstart :
      (cs.dropWhile (fun c => !(c == 'p' || c == 'P'))).takeWhile (fun c => !(c == 'p' || c == 'P')) = [] := by
    cases hrest : cs.dropWhile (fun c => !(c == 'p' || c == 'P')) with
    | nil => rfl
    | cons c tail => rw [List.takeWhile_cons, of_dropWhile_eq_cons hrest, if_neg Bool.false_ne_true]
  obtain ⟨hexponent, hlt⟩ := (markedExponent_iff hstart).mp he
  refine ⟨⟨xs, ys, e⟩, ?_, hlt, hscaling⟩
  rw [← hcs]
  exact .intro hspells hexponent

theorem SpellsDigits.lt {body : List Char} {xs ys : List Nat} (h : SpellsDigits body xs ys) :
    ∀ d ∈ xs ++ ys, d < 16 := by
  obtain ⟨-, whole, places, -, -, hwhole, hplaces⟩ := h.cut
  intro d hd
  rcases List.mem_append.mp hd with hd | hd
  · exact lt_of_digits isBase_sixteen hwhole d hd
  · exact lt_of_digits isBase_sixteen hplaces d hd

theorem SpellsDigits.length_le {body : List Char} {xs ys : List Nat} (h : SpellsDigits body xs ys) :
    (xs ++ ys).length ≤ body.length := by
  cases h with
  | whole _ hxs => simp [hxs.length_eq]
  | pointed _ hxs hys => simp [hxs.length_eq, hys.length_eq]

theorem SpellsHexadecimal.digits_lt {cs : List Char} {h : Hexadecimal} (hspells : SpellsHexadecimal cs h) :
    ∀ d ∈ h.digits, d < 16 := by
  cases hspells with
  | intro hdigits _ => exact hdigits.lt

theorem SpellsHexadecimal.length_le {cs : List Char} {h : Hexadecimal} (hspells : SpellsHexadecimal cs h) :
    h.digits.length ≤ cs.length := by
  cases hspells with
  | intro hdigits _ =>
    rw [List.length_append]
    exact le_trans hdigits.length_le (Nat.le_add_right _ _)

theorem Hexadecimal.inRange_of_length {h : Hexadecimal} (he : |h.exponent| ≤ 2 ^ 62)
    (hlength : h.digits.length < 2 ^ 59) :
    h.InRange := by
  have hsignificant : (significant h.digits).length ≤ h.digits.length := (List.dropWhile_sublist _).length_le
  have hplaces : h.places.length ≤ h.digits.length := by simp [Hexadecimal.digits]
  rw [abs_le] at he
  refine ⟨by rw [abs_lt]; omega, ?_⟩
  -- Each digit moves the exponent by four at most.
  unfold Hexadecimal.scaling mantissaExponent
  omega

theorem denoted_eq (h : Hexadecimal) (negative : Bool) :
    h.denoted negative = if negative then -h.denoted false else h.denoted false := by
  cases negative with
  | true => simp [Hexadecimal.denoted]
  | false => rfl

theorem Hexadecimal.denoted_nonneg (h : Hexadecimal) : 0 ≤ h.denoted false := by
  unfold Hexadecimal.denoted
  rw [if_neg Bool.false_ne_true, one_mul]
  positivity

theorem abs_denoted (h : Hexadecimal) (negative : Bool) : |h.denoted negative| = h.denoted false := by
  rw [denoted_eq]
  cases negative with
  | true => exact (abs_neg _).trans (abs_of_nonneg h.denoted_nonneg)
  | false => exact abs_of_nonneg h.denoted_nonneg

section
variable {h : Hexadecimal} (hlt : ∀ d ∈ h.digits, d < 16)
include hlt

theorem unsigned_eq_ofRat
    (hfits : (2 : ℚ) ^ (-1022 : Int) ≤ h.denoted false ∨ ∃ o k, h.integer = o * 2 ^ k ∧ o < 2 ^ 53) :
    h.unsigned = ofRat (h.denoted false) := by
  have hdenoted : h.denoted false = value 16 h.digits * 2 ^ (h.exponent - 4 * h.places.length) := by
    simp [Hexadecimal.denoted, Hexadecimal.integer, value_eq_ofDigits]
  rw [hdenoted] at hfits ⊢
  rcases hfits with hnormal | ⟨o, k, hinteger, ho⟩
  · exact scale_mantissa_normal hlt hnormal
  · rw [Hexadecimal.integer, ← value_eq_ofDigits] at hinteger
    exact scale_mantissa_exact hlt ho hinteger _ _

theorem isNegative_number (negative : Bool) : (h.number negative).isNegative = negative := by
  have hunsigned : h.unsigned.isNegative = false := by
    obtain ⟨a, ha, hofNat⟩ := exists_ofWord (mantissa_lt hlt)
    have hnonneg := ha.nonneg
    rw [Hexadecimal.unsigned, hofNat, ha.scale_eq, isNegative_ofRat (by positivity)]
  cases negative with
  | true => exact (isNegative_neg _).trans (by rw [hunsigned]; rfl)
  | false => exact hunsigned

theorem number_of_zero {negative : Bool} (hzero : h.denoted negative = 0) :
    h.number negative = ofMagnitude negative 0 := by
  have hfalse : h.denoted false = 0 := by rw [← abs_denoted h negative, hzero, abs_zero]
  have hinteger : h.integer = 0 := by
    have hpow : (2 : ℚ) ^ (h.exponent - 4 * h.places.length) ≠ 0 := by positivity
    simpa [Hexadecimal.denoted, hpow] using hfalse
  have hunsigned : h.unsigned = ofMagnitude false 0 := by
    rw [unsigned_eq_ofRat hlt (Or.inr ⟨0, 0, by simp [hinteger], by decide⟩), hfalse]
    rfl
  unfold Hexadecimal.number
  rw [hunsigned]
  cases negative with
  | true => exact neg_ofMagnitude (by decide)
  | false => rfl

theorem isNearest_number {negative : Bool}
    (hfits : (2 : ℚ) ^ (-1022 : Int) ≤ |h.denoted negative| ∨ ∃ o k, h.integer = o * 2 ^ k ∧ o < 2 ^ 53) :
    IsNearest (h.denoted negative) (h.number negative) := by
  rw [abs_denoted] at hfits
  have hnearest : IsNearest (h.denoted false) h.unsigned := by
    rw [unsigned_eq_ofRat hlt hfits]
    exact isNearest_ofRat h.denoted_nonneg
  rw [denoted_eq]
  cases negative with
  | true => exact hnearest.neg
  | false => exact hnearest

end

section
variable {s : String} {sign rest : List Char} {x : Char} {negative : Bool} (hsign : Sign sign negative)
  (hx : x = 'x' ∨ x = 'X') (hs : s.toList = sign ++ '0' :: x :: rest)
include hsign hx hs

theorem real_of_hexadecimal : real? s = (hexadecimal? rest).map fun y => if negative then y.neg else y := by
  unfold real?
  rw [hs, splitSign_append hsign rfl]
  rcases hx with rfl | rfl
  · rfl
  · rfl

theorem real_of_spells {h : Hexadecimal} (hspells : SpellsHexadecimal rest h) (hrange : h.InRange) :
    real? s = some (h.number negative) := by
  rw [real_of_hexadecimal hsign hx hs, hexadecimal_of_spells hspells hrange]
  rfl

theorem spells_of_real (hread : (real? s).isSome = true) : ∃ h, SpellsHexadecimal rest h ∧ h.InRange := by
  rw [real_of_hexadecimal hsign hx hs, Option.isSome_map] at hread
  obtain ⟨y, hy⟩ := Option.isSome_iff_exists.mp hread
  exact spells_of_hexadecimal hy

end

/-- After `0x`, a text is read exactly if it spells a number with its exponents in range. From the normal range
on it is rounded to the nearest number. -/
theorem real_hexadecimal_exact {s : String} {sign rest : List Char} {x : Char} {negative : Bool}
    (hsign : Sign sign negative) (hx : x = 'x' ∨ x = 'X') (hs : s.toList = sign ++ '0' :: x :: rest) :
    ((real? s).isSome = true → ∃ h, SpellsHexadecimal rest h) ∧
      ∀ h, SpellsHexadecimal rest h →
        ((real? s).isSome = true ↔ h.InRange) ∧
        (|h.exponent| ≤ 2 ^ 62 → s.length < 2 ^ 59 → h.InRange) ∧
        (h.InRange → ∃ y, real? s = some y ∧ y.isNegative = negative ∧
          (h.denoted negative = 0 → y = ofMagnitude negative 0) ∧
          ((2 : ℚ) ^ (-1022 : Int) ≤ |h.denoted negative| ∨ (∃ o k, h.integer = o * 2 ^ k ∧ o < 2 ^ 53) →
            IsNearest (h.denoted negative) y)) := by
  have hspelled := spells_of_real hsign hx hs
  refine ⟨fun hread => (hspelled hread).imp fun _ h => h.1, fun h hspells => ⟨⟨fun hread => ?_, fun hrange => ?_⟩,
    fun he hlength => ?_, fun hrange => ?_⟩⟩
  · obtain ⟨h', hspells', hrange⟩ := hspelled hread
    rwa [hspells.unique hspells']
  · rw [real_of_spells hsign hx hs hspells hrange]
    rfl
  · have hle := hspells.length_le
    have htotal : s.length = sign.length + (rest.length + 1 + 1) := by
      rw [← String.length_toList, hs, List.length_append, List.length_cons, List.length_cons]
    exact Hexadecimal.inRange_of_length he (by omega)
  · have hlt := hspells.digits_lt
    exact ⟨h.number negative, real_of_spells hsign hx hs hspells hrange, isNegative_number hlt negative,
      number_of_zero hlt, isNearest_number hlt⟩

/-- The digit after the sixteenth decides: without it the number would lie halfway between two others. -/
theorem real_hexadecimal_past_halfway :
    Sign ['-'] true ∧
      "-0x1.00000000000008000000001p0".toList = ['-'] ++ '0' :: 'x' :: "1.00000000000008000000001p0".toList ∧
      ∃ y, real? "-0x1.00000000000008000000001p0" = some y ∧ y.isNegative = true ∧
        IsNearest (-(1 + 2 ^ (-53 : Int) + 2 ^ (-92 : Int))) y := by
  have htext : "-0x1.00000000000008000000001p0".toList =
      ['-'] ++ '0' :: 'x' :: "1.00000000000008000000001p0".toList := rfl
  have hwhole : digits? 16 "1".toList = some [1] := by decide
  have hplaces : digits? 16 "00000000000008000000001".toList =
      some (List.replicate 13 0 ++ 8 :: List.replicate 8 0 ++ [1]) := by decide
  have hdigits : SpellsDigits ("1".toList ++ '.' :: "00000000000008000000001".toList) [1]
      (List.replicate 13 0 ++ 8 :: List.replicate 8 0 ++ [1]) :=
    .pointed (Or.inl (by decide)) ((digits_eq_some_iff isBase_sixteen).mp hwhole)
      ((digits_eq_some_iff isBase_sixteen).mp hplaces)
  have hexponent : SpellsExponent ('p' :: ([] ++ "0".toList)) 0 :=
    .present (Or.inl rfl) .absent ((read_eq_some_iff isBase_ten).mp (by decide))
  have hspells : SpellsHexadecimal "1.00000000000008000000001p0".toList
      ⟨[1], List.replicate 13 0 ++ 8 :: List.replicate 8 0 ++ [1], 0⟩ := by
    rw [show "1.00000000000008000000001p0".toList = "1".toList ++ '.' :: "00000000000008000000001".toList ++
      'p' :: ([] ++ "0".toList) by rfl]
    exact .intro hdigits hexponent
  have hdenoted : Hexadecimal.denoted ⟨[1], List.replicate 13 0 ++ 8 :: List.replicate 8 0 ++ [1], 0⟩ true =
      -(1 + 2 ^ (-53 : Int) + 2 ^ (-92 : Int)) := by
    have hinteger : Hexadecimal.integer ⟨[1], List.replicate 13 0 ++ 8 :: List.replicate 8 0 ++ [1], 0⟩ =
        2 ^ 92 + 2 ^ 39 + 1 := by decide
    rw [Hexadecimal.denoted, hinteger]
    norm_num
  obtain ⟨-, hread⟩ := real_hexadecimal_exact .minus (Or.inl rfl) htext
  obtain ⟨-, hrange, hnumber⟩ := hread _ hspells
  obtain ⟨y, hy, hsign, -, hnearest⟩ := hnumber (hrange (by decide) (by decide))
  rw [hdenoted] at hnearest
  refine ⟨.minus, htext, y, hy, hsign, hnearest (Or.inl ?_)⟩
  rw [abs_neg, abs_of_pos (by positivity)]
  calc (2 : ℚ) ^ (-1022 : Int) ≤ 1 := zpow_le_one_of_nonpos₀ one_le_two (by decide)
    _ ≤ 1 + 2 ^ (-53 : Int) + 2 ^ (-92 : Int) := by norm_num

end FrameMachine.Literal
