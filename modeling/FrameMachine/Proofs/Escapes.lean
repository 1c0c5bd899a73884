import FrameMachine.Literal.Escape
import FrameMachine.Proofs.Numerals
import Mathlib.Data.List.Infix

/-!
# Escapes in string literals

`escapesWellFormed` scans a text from left to right and skips the digits of an escape. The scan meets
every backslash (`escapesWellFormed_iff`), and a text that passes it can be decoded unless an escape
names a code that may not be written so (`decodeChars_eq_none_iff`).
-/

namespace FrameMachine.Literal

/-- Three decimal digits and anything after them. -/
def StartsWithCode (cs : List Char) : Prop :=
  ∃ a b c rest, cs = a :: b :: c :: rest ∧ a.isDigit = true ∧ b.isDigit = true ∧ c.isDigit = true

/-- Every backslash is followed by three decimal digits. -/
def EscapesWritten (cs : List Char) : Prop := ∀ after, '\\' :: after <:+ cs → StartsWithCode after

/-- Some escape names a code other than those of control characters, the space, `#` and `\`. -/
def HasForbiddenEscape (cs : List Char) : Prop :=
  ∃ a b c rest code, '\\' :: a :: b :: c :: rest <:+ cs ∧ escapeCode? a b c = some code ∧
    ¬ (code ≤ 32 ∨ code = 35 ∨ code = 92)

theorem isEscapable_iff {code : Nat} :
    isEscapable code = true ↔ code ≤ 32 ∨ code = 35 ∨ code = 92 := by
  simp [isEscapable, or_assoc]

theorem ne_backslash_of_isDigit {c : Char} (h : c.isDigit = true) : c ≠ '\\' := by
  rintro rfl
  exact absurd h (by decide)

theorem backslash_suffix_cons {c : Char} (hc : c ≠ '\\') {cs t : List Char} :
    '\\' :: t <:+ c :: cs ↔ '\\' :: t <:+ cs := by
  rw [List.suffix_cons_iff]
  constructor
  · rintro (h | h)
    · exact absurd (List.cons.inj h).1.symm hc
    · exact h
  · exact Or.inr

theorem backslash_suffix_escape {a b c : Char} (ha : a.isDigit = true) (hb : b.isDigit = true)
    (hc : c.isDigit = true) {rest t : List Char} :
    '\\' :: t <:+ '\\' :: a :: b :: c :: rest ↔ t = a :: b :: c :: rest ∨ '\\' :: t <:+ rest := by
  rw [List.suffix_cons_iff, backslash_suffix_cons (ne_backslash_of_isDigit ha),
    backslash_suffix_cons (ne_backslash_of_isDigit hb), backslash_suffix_cons (ne_backslash_of_isDigit hc)]
  simp

theorem escapesWellFormed_iff (cs : List Char) : escapesWellFormed cs = true ↔ EscapesWritten cs := by
  induction cs using escapesWellFormed.induct with
  | case1 => simp [escapesWellFormed, EscapesWritten]
  | case2 a b c rest ih =>
    simp only [escapesWellFormed, Bool.and_eq_true, ih]
    constructor
    · rintro ⟨⟨⟨ha, hb⟩, hc⟩, hrest⟩ after hafter
      rcases (backslash_suffix_escape ha hb hc).mp hafter with rfl | hafter
      · exact ⟨a, b, c, rest, rfl, ha, hb, hc⟩
      · exact hrest after hafter
    · intro h
      obtain ⟨a', b', c', rest', heq, ha, hb, hc⟩ := h _ (List.suffix_refl _)
      simp only [List.cons.injEq] at heq
      obtain ⟨rfl, rfl, rfl, rfl⟩ := heq
      exact ⟨⟨⟨ha, hb⟩, hc⟩, fun after hafter =>
        h after ((backslash_suffix_escape ha hb hc).mpr (Or.inr hafter))⟩
  | case3 ch rest hno ih =>
    rw [escapesWellFormed.eq_3 _ _ hno, Bool.and_eq_true, bne_iff_ne, ih]
    constructor
    · rintro ⟨hch, hrest⟩ after hafter
      exact hrest after ((backslash_suffix_cons hch).mp hafter)
    · intro h
      have hch : ch ≠ '\\' := by
        rintro rfl
        obtain ⟨a, b, c, rest', heq, -⟩ := h _ (List.suffix_refl _)
        exact hno a b c rest' rfl heq
      exact ⟨hch, fun after hafter => h after ((backslash_suffix_cons hch).mpr hafter)⟩

/-! ## Decoding -/

theorem exists_digitChar {c : Char} (h : c.isDigit = true) : ∃ d < 10, c = d.digitChar := by
  simp only [Char.isDigit, Bool.and_eq_true, decide_eq_true_eq] at h
  have hlow : 48 ≤ c.toNat := h.1
  have hhigh : c.toNat ≤ 57 := h.2
  refine ⟨c.toNat - 48, by omega, ?_⟩
  rw [← Char.ofNat_toNat c]
  generalize c.toNat = n at hlow hhigh
  interval_cases n <;> rfl

theorem escapeCode_digits {x y z : Nat} (hx : x < 10) (hy : y < 10) (hz : z < 10) :
    escapeCode? x.digitChar y.digitChar z.digitChar = some (100 * x + 10 * y + z) := by
  have hdigits : Numeral.digits? 10 [x.digitChar, y.digitChar, z.digitChar] = some [x, y, z] := by
    simp [Numeral.digits?, Numeral.digit_digitChar Numeral.isBase_ten, hx, hy, hz]
  have hvalue : Numeral.value 10 [x, y, z] = 100 * x + 10 * y + z := by
    simp [Numeral.value]
    omega
  simp [escapeCode?, Numeral.read?, Nat.isDigit_digitChar, hx, hy, hz, hdigits, hvalue]

theorem escapeCode_of_isDigit {a b c : Char} (ha : a.isDigit = true) (hb : b.isDigit = true)
    (hc : c.isDigit = true) : ∃ code, escapeCode? a b c = some code := by
  obtain ⟨x, hx, rfl⟩ := exists_digitChar ha
  obtain ⟨y, hy, rfl⟩ := exists_digitChar hb
  obtain ⟨z, hz, rfl⟩ := exists_digitChar hc
  exact ⟨_, escapeCode_digits hx hy hz⟩

theorem hasForbiddenEscape_escape {a b c : Char} (ha : a.isDigit = true) (hb : b.isDigit = true)
    (hc : c.isDigit = true) {code : Nat} (hcode : escapeCode? a b c = some code) {rest : List Char} :
    HasForbiddenEscape ('\\' :: a :: b :: c :: rest) ↔
      ¬ isEscapable code = true ∨ HasForbiddenEscape rest := by
  rw [isEscapable_iff]
  constructor
  · rintro ⟨x, y, z, tail, k, hsuffix, hk, hforbidden⟩
    rcases (backslash_suffix_escape ha hb hc).mp hsuffix with heq | hsuffix
    · simp only [List.cons.injEq] at heq
      obtain ⟨rfl, rfl, rfl, rfl⟩ := heq
      rw [hcode, Option.some.injEq] at hk
      exact Or.inl (hk ▸ hforbidden)
    · exact Or.inr ⟨x, y, z, tail, k, hsuffix, hk, hforbidden⟩
  · rintro (hforbidden | ⟨x, y, z, tail, k, hsuffix, hk, hforbidden⟩)
    · exact ⟨a, b, c, rest, code, List.suffix_refl _, hcode, hforbidden⟩
    · exact ⟨x, y, z, tail, k, (backslash_suffix_escape ha hb hc).mpr (Or.inr hsuffix), hk, hforbidden⟩

theorem decodeChars_eq_none_iff {cs : List Char} (h : EscapesWritten cs) :
    decodeChars cs = none ↔ HasForbiddenEscape cs := by
  induction cs using decodeChars.induct with
  | case1 => simp [decodeChars, HasForbiddenEscape]
  | case2 a b c rest ih =>
    obtain ⟨a', b', c', rest', heq, ha, hb, hc⟩ := h _ (List.suffix_refl _)
    simp only [List.cons.injEq] at heq
    obtain ⟨rfl, rfl, rfl, rfl⟩ := heq
    have hrest := ih fun after hafter =>
      h after ((backslash_suffix_escape ha hb hc).mpr (Or.inr hafter))
    obtain ⟨code, hcode⟩ := escapeCode_of_isDigit ha hb hc
    rw [decodeChars, hcode, Option.bind_eq_bind, Option.bind_some, hasForbiddenEscape_escape ha hb hc hcode]
    by_cases hallowed : isEscapable code = true
    · rw [if_pos hallowed, Option.map_eq_none_iff, hrest]
      simp [hallowed]
    · rw [if_neg hallowed]
      simp [hallowed]
  | case3 rest hno =>
    obtain ⟨a, b, c, rest', heq, -⟩ := h _ (List.suffix_refl _)
    exact absurd heq (hno a b c rest' rfl)
  | case4 ch rest hno hch ih =>
    have hrest := ih fun after hafter => h after ((backslash_suffix_cons hch).mpr hafter)
    rw [decodeChars.eq_3 _ _ hno, if_neg hch, Option.map_eq_none_iff, hrest]
    simp only [HasForbiddenEscape, backslash_suffix_cons hch]

end FrameMachine.Literal
