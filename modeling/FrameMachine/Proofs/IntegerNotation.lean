import FrameMachine.Proofs.LiteralNotation

/-!
# Integer literals

`SpellsInteger` says which texts denote an integer, of any size: an optional sign, the mark of a base,
and digits. Such a text is read unless its number does not fit a word, and no other text is read
(`integer_exact`).
-/

namespace FrameMachine.Literal

open Numeral

/-- The marks of the bases that integers are written in. -/
inductive BaseMark : List Char → Nat → Prop
  | decimal : BaseMark [] 10
  | hexadecimal {x : Char} : x = 'x' ∨ x = 'X' → BaseMark ['0', x] 16
  | octal {o : Char} : o = 'o' ∨ o = 'O' → BaseMark ['0', o] 8

/-- The text is an integer literal for the number, whether or not this fits a word. -/
inductive SpellsInteger : List Char → Int → Prop
  | intro {sign mark ds : List Char} {negative : Bool} {base n : Nat} : Sign sign negative → BaseMark mark base →
      Spells base ds n → SpellsInteger (sign ++ (mark ++ ds)) (if negative then -(n : Int) else n)

/-! ## Magnitudes -/

theorem magnitude_of_spells {mark ds : List Char} {base n : Nat} (hmark : BaseMark mark base)
    (hds : Spells base ds n) : magnitude? (mark ++ ds) = some n := by
  cases hmark with
  | decimal =>
    obtain ⟨xs, hxs, -⟩ := hds.2
    rw [List.nil_append, magnitude_of_digits ((digits_eq_some_iff isBase_ten).mpr hxs)]
    exact (read_eq_some_iff isBase_ten).mpr hds
  | hexadecimal hx =>
    have hread := (read_eq_some_iff isBase_sixteen).mpr hds
    rcases hx with rfl | rfl
    · exact hread
    · exact hread
  | octal ho =>
    have hread := (read_eq_some_iff isBase_eight).mpr hds
    rcases ho with rfl | rfl
    · exact hread
    · exact hread

theorem spells_of_magnitude {cs : List Char} {n : Nat} (h : magnitude? cs = some n) :
    ∃ mark ds base, BaseMark mark base ∧ cs = mark ++ ds ∧ Spells base ds n := by
  unfold magnitude? at h
  split at h
  · exact ⟨_, _, 16, .hexadecimal (Or.inl rfl), rfl, (read_eq_some_iff isBase_sixteen).mp h⟩
  · exact ⟨_, _, 16, .hexadecimal (Or.inr rfl), rfl, (read_eq_some_iff isBase_sixteen).mp h⟩
  · exact ⟨_, _, 8, .octal (Or.inl rfl), rfl, (read_eq_some_iff isBase_eight).mp h⟩
  · exact ⟨_, _, 8, .octal (Or.inr rfl), rfl, (read_eq_some_iff isBase_eight).mp h⟩
  · exact ⟨[], cs, 10, .decimal, rfl, (read_eq_some_iff isBase_ten).mp h⟩

theorem splitSign_of_spells {mark ds : List Char} {base n : Nat} (hmark : BaseMark mark base)
    (hds : Spells base ds n) : splitSign (mark ++ ds) = (false, mark ++ ds) := by
  cases hmark with
  | decimal =>
    obtain ⟨xs, hxs, -⟩ := hds.2
    exact splitSign_of_digits ((digits_eq_some_iff isBase_ten).mpr hxs)
  | hexadecimal _ => rfl
  | octal _ => rfl

/-! ## Literals -/

theorem integer_of_spells {s : String} {n : Int} (h : SpellsInteger s.toList n) :
    integer? s = if fitsWord n then some (Int64.ofInt n) else none := by
  generalize hcs : s.toList = cs at h
  cases h with
  | intro hsign hmark hds =>
    unfold integer?
    rw [hcs, splitSign_append hsign (splitSign_of_spells hmark hds)]
    simp only [magnitude_of_spells hmark hds, Option.bind_eq_bind, Option.bind_some]
    rfl

theorem spells_of_integer {s : String} {v : Int64} (h : integer? s = some v) : SpellsInteger s.toList v.toInt := by
  obtain ⟨sign, negative, rest, hsign, hcs, hsplit⟩ := exists_sign s.toList
  unfold integer? at h
  simp only [hsplit] at h
  obtain ⟨n, hn, hvalue⟩ := Option.bind_eq_some_iff.mp h
  obtain ⟨mark, ds, base, hmark, rfl, hds⟩ := spells_of_magnitude hn
  have hspells : SpellsInteger s.toList (signed negative n) := by
    rw [hcs]
    exact .intro hsign hmark hds
  split at hvalue
  · rename_i hfits
    obtain ⟨hlow, hhigh⟩ := fitsWord_iff.mp hfits
    rw [← Option.some.inj hvalue, Int64.toInt_ofInt_of_le hlow hhigh]
    exact hspells
  · cases hvalue

theorem integerText_eq_toString (v : Int64) : integerText v = toString v.toInt := by
  unfold integerText
  cases v.toInt with
  | ofNat n => rfl
  | negSucc n =>
    simp only [Int.negSucc_lt_zero, ite_true]
    exact String.ofList_cons

/-- A text is read as an integer exactly if it spells one that fits a word. The decimal text of a word is read
back. -/
theorem integer_exact :
    (∀ (s : String) (v : Int64), integer? s = some v ↔ SpellsInteger s.toList v.toInt) ∧
      (∀ (s : String) (n : Int), SpellsInteger s.toList n → (integer? s = none ↔ n < -2 ^ 63 ∨ 2 ^ 63 - 1 < n)) ∧
      ∀ v : Int64, integer? (toString v.toInt) = some v := by
  refine ⟨fun s v => ⟨spells_of_integer, fun h => ?_⟩, fun s n h => ?_, fun v => ?_⟩
  · have hfits : fitsWord v.toInt = true := fitsWord_iff.mpr ⟨v.le_toInt, v.toInt_lt⟩
    rw [integer_of_spells h, if_pos hfits, Int64.ofInt_toInt]
  · rw [integer_of_spells h]
    by_cases hfits : fitsWord n = true
    · have hrange := fitsWord_iff.mp hfits
      rw [if_pos hfits]
      simp only [reduceCtorEq, false_iff]
      omega
    · have hrange := mt fitsWord_iff.mpr hfits
      rw [if_neg hfits]
      simp only [true_iff]
      omega
  · rw [← integerText_eq_toString]
    exact integer_integerText v

/-- The least word is read in hexadecimal digits; the number after the greatest is refused, also with zeros in
front of it. -/
theorem integer_exact_limits :
    (SpellsInteger "-0X8000000000000000".toList Int64.minValue.toInt ∧
        integer? "-0X8000000000000000" = some Int64.minValue) ∧
      SpellsInteger "+000009223372036854775808".toList (2 ^ 63) ∧
        integer? "+000009223372036854775808" = none := by
  have hhex : Spells 16 "8000000000000000".toList (2 ^ 63) := (read_eq_some_iff isBase_sixteen).mp (by decide)
  have hdecimal : Spells 10 "000009223372036854775808".toList (2 ^ 63) :=
    (read_eq_some_iff isBase_ten).mp (by decide)
  have hleast : SpellsInteger "-0X8000000000000000".toList Int64.minValue.toInt :=
    .intro .minus (.hexadecimal (Or.inr rfl)) hhex
  have hbeyond : SpellsInteger "+000009223372036854775808".toList (2 ^ 63) := .intro .plus .decimal hdecimal
  refine ⟨⟨hleast, (integer_exact.1 _ _).mpr hleast⟩, hbeyond, (integer_exact.2.1 _ _ hbeyond).mpr (Or.inr ?_)⟩
  decide

end FrameMachine.Literal
