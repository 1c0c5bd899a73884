import FrameMachine.Proofs.Words
import FrameMachine.Value

/-!
# Characters of literals

A text that denotes a number, a truth value or nil holds no blank and no `#`, so that such a literal
stands as one word in source code (`plain_of_ofPayload`).
-/

namespace FrameMachine

open Text

namespace Numeral

theorem isPlain_of_digit {base : Nat} {c : Char} (h : (digit? base c).isSome = true) :
    isPlain c = true := by
  unfold digit? at h
  by_cases h₁ : '0' ≤ c ∧ c ≤ '9'
  · have hl : 48 ≤ c.toNat := h₁.1
    have hu : c.toNat ≤ 57 := h₁.2
    exact isPlain_of_toNat (by omega) (by omega)
  · by_cases h₂ : 'a' ≤ c ∧ c ≤ 'f'
    · have hl : 97 ≤ c.toNat := h₂.1
      have hu : c.toNat ≤ 102 := h₂.2
      exact isPlain_of_toNat (by omega) (by omega)
    · by_cases h₃ : 'A' ≤ c ∧ c ≤ 'F'
      · have hl : 65 ≤ c.toNat := h₃.1
        have hu : c.toNat ≤ 70 := h₃.2
        exact isPlain_of_toNat (by omega) (by omega)
      · -- Outside the three ranges the value is the base itself, which is no digit of it.
        simp [h₁, h₂, h₃] at h

theorem plain_of_digits {base : Nat} {cs : List Char} (h : (digits? base cs).isSome = true) :
    Plain cs := by
  unfold digits? at h
  induction cs with
  | nil => exact plain_nil
  | cons c cs ih =>
    rw [List.mapM_cons] at h
    cases hc : digit? base c with
    | none => simp [hc] at h
    | some d =>
      cases hcs : cs.mapM (digit? base) with
      | none => simp [hc, hcs] at h
      | some ds => exact plain_cons.mpr ⟨isPlain_of_digit (by rw [hc]; rfl), ih (by rw [hcs]; rfl)⟩

theorem plain_of_read {base : Nat} {cs : List Char} (h : (read? base cs).isSome = true) : Plain cs := by
  unfold read? at h
  split at h
  · cases h
  · exact plain_of_digits (by simpa using h)

theorem plain_of_splitSign {cs : List Char} (h : Plain (splitSign cs).2) : Plain cs := by
  unfold splitSign at h
  split at h
  · exact plain_cons.mpr ⟨by decide, h⟩
  · exact plain_cons.mpr ⟨by decide, h⟩
  · exact h

end Numeral

theorem isPlain_of_isDigit {c : Char} (h : c.isDigit = true) : isPlain c = true := by
  simp only [Char.isDigit, Bool.and_eq_true, decide_eq_true_eq] at h
  have hl : 48 ≤ c.toNat := h.1
  have hu : c.toNat ≤ 57 := h.2
  exact isPlain_of_toNat (by omega) (by omega)

theorem toLower_cases (c : Char) :
    c.toLower = c ∨ (65 ≤ c.toNat ∧ c.toNat ≤ 90) ∧ 97 ≤ c.toLower.toNat ∧ c.toLower.toNat ≤ 122 := by
  unfold Char.toLower
  split
  · rename_i hc
    have hl : 65 ≤ c.val.toNat := hc.1
    have hu : c.val.toNat ≤ 90 := hc.2
    have hsum : (c.val + ('a'.val - 'A'.val)).toNat = (c.val.toNat + 32) % 2 ^ 32 := UInt32.toNat_add ..
    have hlower : 97 ≤ (c.val + ('a'.val - 'A'.val)).toNat ∧ (c.val + ('a'.val - 'A'.val)).toNat ≤ 122 := by omega
    exact Or.inr ⟨⟨hl, hu⟩, hlower⟩
  · exact Or.inl rfl

theorem isPlain_toLower_iff (c : Char) : isPlain c.toLower = true ↔ isPlain c = true := by
  rcases toLower_cases c with hsame | ⟨hupper, hlower⟩
  · rw [hsame]
  · exact iff_of_true (isPlain_of_toNat (by omega) (by omega)) (isPlain_of_toNat (by omega) (by omega))

theorem plain_of_sameLetters {cs ds : List Char} (h : sameLetters cs ds = true)
    (hds : Plain (ds.map Char.toLower)) : Plain cs := by
  simp only [sameLetters, beq_iff_eq] at h
  intro c hc
  refine (isPlain_toLower_iff c).mp (hds _ ?_)
  rw [← h]
  exact List.mem_map_of_mem hc

/-! ## Integers -/

namespace Literal

open Numeral

theorem plain_of_magnitude {cs : List Char} (h : (magnitude? cs).isSome = true) : Plain cs := by
  have zero : isPlain '0' = true := by decide
  unfold magnitude? at h
  split at h
  · exact plain_cons.mpr ⟨zero, plain_cons.mpr ⟨by decide, plain_of_read h⟩⟩
  · exact plain_cons.mpr ⟨zero, plain_cons.mpr ⟨by decide, plain_of_read h⟩⟩
  · exact plain_cons.mpr ⟨zero, plain_cons.mpr ⟨by decide, plain_of_read h⟩⟩
  · exact plain_cons.mpr ⟨zero, plain_cons.mpr ⟨by decide, plain_of_read h⟩⟩
  · exact plain_of_read h

theorem plain_of_integer {s : String} (h : (integer? s).isSome = true) : Plain s.toList := by
  refine plain_of_splitSign ?_
  cases hm : magnitude? (splitSign s.toList).2 with
  | none => simp [integer?, hm] at h
  | some n => exact plain_of_magnitude (by rw [hm]; rfl)

end Literal

/-! ## Real numbers -/

namespace Binary64

open Numeral

theorem plain_of_decimalExponent {cs : List Char} (h : (decimalExponent? cs).isSome = true) :
    Plain cs := by
  unfold decimalExponent? at h
  split at h
  · exact plain_nil
  · split at h
    · rename_i c cs hc
      have hmark : isPlain c = true := by
        simp only [Bool.or_eq_true, beq_iff_eq] at hc
        rcases hc with rfl | rfl <;> decide
      exact plain_cons.mpr ⟨hmark, plain_of_splitSign (plain_of_read (by simpa using h))⟩
    · cases h

theorem plain_takeWhile_isDigit (cs : List Char) : Plain (cs.takeWhile Char.isDigit) :=
  fun _ hc => isPlain_of_isDigit (List.mem_takeWhile_imp hc)

theorem plain_of_decimalNumeral {cs : List Char} (h : (decimalNumeral? cs).isSome = true) :
    Plain cs := by
  rw [← List.takeWhile_append_dropWhile (p := Char.isDigit) (l := cs), plain_append]
  refine ⟨plain_takeWhile_isDigit cs, ?_⟩
  unfold decimalNumeral? at h
  cases hrest : cs.dropWhile Char.isDigit with
  | nil => exact plain_nil
  | cons c after =>
    rw [hrest] at h
    by_cases hc : c = '.'
    · subst hc
      rw [plain_cons, ← List.takeWhile_append_dropWhile (p := Char.isDigit) (l := after), plain_append]
      refine ⟨by decide, plain_takeWhile_isDigit after, plain_of_decimalExponent ?_⟩
      cases he : decimalExponent? (after.dropWhile Char.isDigit) with
      | none => simp [he] at h
      | some e => rfl
    · refine plain_of_decimalExponent ?_
      cases he : decimalExponent? (c :: after) with
      | none => simp [he, hc] at h
      | some e => rfl

theorem plain_of_decimal {cs : List Char} (h : (decimal? cs).isSome = true) : Plain cs := by
  unfold decimal? at h
  split at h
  · rename_i hinf
    rcases Bool.or_eq_true _ _ ▸ hinf with hinf | hinf
    · exact plain_of_sameLetters hinf (by decide)
    · exact plain_of_sameLetters hinf (by decide)
  · split at h
    · rename_i hnan
      exact plain_of_sameLetters hnan (by decide)
    · exact plain_of_decimalNumeral h

theorem plain_of_exponent {cs : List Char} (h : (exponent? cs).isSome = true) : Plain cs := by
  refine plain_of_splitSign ?_
  cases hn : read? 10 (splitSign cs).2 with
  | none => simp [exponent?, hn] at h
  | some n => exact plain_of_read (by rw [hn]; rfl)

theorem plain_of_pointed {cs : List Char}
    (h : Plain (cs.takeWhile (· != '.') ++ (cs.dropWhile (· != '.')).drop 1)) : Plain cs := by
  rw [plain_append] at h
  rw [← List.takeWhile_append_dropWhile (p := (· != '.')) (l := cs), plain_append]
  refine ⟨h.1, ?_⟩
  cases hrest : cs.dropWhile (· != '.') with
  | nil => exact plain_nil
  | cons c after =>
    have hc : c = '.' := by simpa using of_dropWhile_eq_cons hrest
    rw [hrest, List.drop_one, List.tail_cons] at h
    exact plain_cons.mpr ⟨by rw [hc]; decide, h.2⟩

theorem plain_of_scaledDigits {body : List Char} {e : Int} (h : (scaledDigits? body e).isSome = true) :
    Plain body := by
  unfold scaledDigits? at h
  dsimp only at h
  split at h
  · cases h
  · refine plain_of_pointed (plain_append.mpr ⟨@plain_of_digits 16 _ ?_, @plain_of_digits 16 _ ?_⟩)
    · cases hd : digits? 16 (body.takeWhile (· != '.')) with
      | none => simp [hd] at h
      | some ds => rfl
    · cases hd : digits? 16 ((body.dropWhile (· != '.')).drop 1) with
      | none => rw [hd] at h; simp at h
      | some ds => rfl

theorem plain_of_hexadecimal {cs : List Char} (h : (hexadecimal? cs).isSome = true) : Plain cs := by
  rw [← List.takeWhile_append_dropWhile (p := fun c => !(c == 'p' || c == 'P')) (l := cs), plain_append]
  obtain ⟨e, he, hdigits⟩ := Option.bind_eq_some_iff.mp (Option.some_get h).symm
  refine ⟨plain_of_scaledDigits (Option.isSome_of_eq_some hdigits), ?_⟩
  cases hrest : cs.dropWhile (fun c => !(c == 'p' || c == 'P')) with
  | nil => exact plain_nil
  | cons c tail =>
    have hc : c = 'p' ∨ c = 'P' := by
      have := of_dropWhile_eq_cons hrest
      simpa only [Bool.not_eq_false', Bool.or_eq_true, beq_iff_eq] using this
    rw [hrest] at he
    exact plain_cons.mpr ⟨by rcases hc with rfl | rfl <;> decide, plain_of_exponent (Option.isSome_of_eq_some he)⟩

end Binary64

namespace Literal

open Numeral

theorem plain_of_unsignedReal {cs : List Char} (h : (unsignedReal? cs).isSome = true) : Plain cs := by
  have zero : isPlain '0' = true := by decide
  unfold unsignedReal? at h
  split at h
  · exact plain_cons.mpr ⟨zero, plain_cons.mpr ⟨by decide, Binary64.plain_of_hexadecimal h⟩⟩
  · exact plain_cons.mpr ⟨zero, plain_cons.mpr ⟨by decide, Binary64.plain_of_hexadecimal h⟩⟩
  · exact Binary64.plain_of_decimal h

theorem plain_of_real {s : String} (h : (real? s).isSome = true) : Plain s.toList := by
  refine plain_of_splitSign (plain_of_unsignedReal ?_)
  simpa [real?] using h

theorem plain_of_truth {s : String} (h : (truth? s).isSome = true) : Plain s.toList := by
  unfold truth? at h
  split at h
  · rename_i hs
    rw [hs]; decide
  · split at h
    · rename_i hs
      rw [hs]; decide
    · cases h

end Literal

/-- Strings are left out: their literals may hold any character. -/
theorem plain_of_ofPayload {t : DataType} {s : String} (ht : t ≠ .string)
    (h : (Value.ofPayload? t s).isSome = true) : Plain s.toList := by
  cases t with
  | int => exact Literal.plain_of_integer (by simpa [Value.ofPayload?] using h)
  | float => exact Literal.plain_of_real (by simpa [Value.ofPayload?] using h)
  | string => exact absurd rfl ht
  | bool => exact Literal.plain_of_truth (by simpa [Value.ofPayload?] using h)
  | nil =>
    simp only [Value.ofPayload?] at h
    split at h
    · rename_i hs
      rw [hs]; decide
    · cases h

end FrameMachine
