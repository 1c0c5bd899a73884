import FrameMachine.Proofs.Stages

/-!
# Strings as arrays of characters

The opcodes on strings count characters and take signed words for indices. `at?` is the one view of a string that
they share: the character at such an index, if there is one. Each opcode is described through it, and the laws of
an array follow from those of lists (`strings_are_character_arrays`).
-/

namespace FrameMachine

/-! ## Indices -/

/-- The index is that of a character of the text. -/
def HasIndex (s : String) (i : Int64) : Prop := 0 ≤ i.toInt ∧ i.toInt < s.length

instance (s : String) (i : Int64) : Decidable (HasIndex s i) :=
  inferInstanceAs (Decidable (0 ≤ i.toInt ∧ i.toInt < s.length))

def at? (s : String) (i : Int64) : Option Char :=
  if HasIndex s i then s.toList[i.toInt.toNat]? else none

section
variable {s t : String} {i j : Int64} {c : Char}

theorem HasIndex.lt_length (h : HasIndex s i) : i.toInt.toNat < s.toList.length := by
  obtain ⟨hlow, hhigh⟩ := h
  rw [String.length_toList]
  omega

theorem HasIndex.exists_at (h : HasIndex s i) : ∃ c, at? s i = some c := by
  have hlt := h.lt_length
  exact ⟨s.toList[i.toInt.toNat], by rw [at?, if_pos h, List.getElem?_eq_getElem hlt]⟩

theorem at_of_not (h : ¬ HasIndex s i) : at? s i = none := if_neg h

theorem at_eq_some_iff : at? s i = some c ↔ ∃ k : Nat, i.toInt = k ∧ s.toList[k]? = some c := by
  constructor
  · intro h
    unfold at? at h
    split at h
    · rename_i hindex
      exact ⟨i.toInt.toNat, (Int.toNat_of_nonneg hindex.1).symm, h⟩
    · cases h
  · rintro ⟨k, hk, hc⟩
    have hlt : k < s.length := by
      rw [← String.length_toList]
      exact (List.getElem?_eq_some_iff.mp hc).1
    have hindex : HasIndex s i := ⟨by omega, by omega⟩
    rw [at?, if_pos hindex, hk, Int.toNat_natCast, hc]

theorem length_replaced (s : String) (k : Nat) (c : Char) :
    (String.ofList (s.toList.set k c)).length = s.length := by
  rw [String.length_ofList, List.length_set, String.length_toList]

theorem at_replaced (h : HasIndex s i) :
    at? (String.ofList (s.toList.set i.toInt.toNat c)) j = if j = i then some c else at? s j := by
  have hkeeps : HasIndex (String.ofList (s.toList.set i.toInt.toNat c)) j ↔ HasIndex s j := by
    rw [HasIndex, HasIndex, length_replaced]
  by_cases hj : HasIndex s j
  · have hplace : i.toInt.toNat = j.toInt.toNat ↔ j = i := by
      rw [← Int64.toInt_inj]
      obtain ⟨hi, -⟩ := h
      obtain ⟨hj, -⟩ := hj
      omega
    rw [at?, if_pos (hkeeps.mpr hj), at?, if_pos hj, String.toList_ofList, List.getElem?_set]
    simp only [hplace, h.lt_length, ite_true]
  · have hne : j ≠ i := by
      rintro rfl
      exact hj h
    rw [at_of_not (mt hkeeps.mp hj), at_of_not hj, if_neg hne]

theorem at_append_left (h : i.toInt < s.length) : at? (s ++ t) i = some c ↔ at? s i = some c := by
  rw [at_eq_some_iff, at_eq_some_iff]
  refine exists_congr fun k => and_congr_right fun hk => ?_
  rw [String.toList_append, List.getElem?_append_left (by rw [String.length_toList]; omega)]

theorem at_append_right (h : s.length ≤ i.toInt) :
    at? (s ++ t) i = some c ↔ at? t (i - Int64.ofNat s.length) = some c := by
  -- The length of `s` fits a word, because an index is not smaller.
  have hsub : (i - Int64.ofNat s.length).toInt = i.toInt - s.length := by
    have hi := i.toInt_lt
    have hs : (Int64.ofNat s.length).toInt = s.length := Int64.toInt_ofNat_of_lt (by omega)
    rw [Int64.toInt_sub_of_le, hs]
    · rw [Int64.le_iff_toInt_le, hs]
      exact Int.natCast_nonneg _
    · rw [Int64.le_iff_toInt_le, hs]
      exact h
  rw [at_eq_some_iff, at_eq_some_iff, hsub, String.toList_append]
  constructor
  · rintro ⟨k, hk, hc⟩
    rw [List.getElem?_append_right (by rw [String.length_toList]; omega), String.length_toList] at hc
    exact ⟨k - s.length, by omega, hc⟩
  · rintro ⟨k, hk, hc⟩
    refine ⟨s.length + k, by omega, ?_⟩
    rw [List.getElem?_append_right (by rw [String.length_toList]; omega), String.length_toList,
      Nat.add_sub_cancel_left, hc]

end

/-! ## Code points -/

/-- The codes of Unicode scalar values. -/
def IsScalar (n : Int64) : Prop :=
  0 ≤ n.toInt ∧ n.toInt ≤ 0xD7FF ∨ 0xE000 ≤ n.toInt ∧ n.toInt ≤ 0x10FFFF

instance (n : Int64) : Decidable (IsScalar n) :=
  inferInstanceAs (Decidable (0 ≤ n.toInt ∧ n.toInt ≤ 0xD7FF ∨ 0xE000 ≤ n.toInt ∧ n.toInt ≤ 0x10FFFF))

theorem isScalar_iff {n : Int64} : IsScalar n ↔ 0 ≤ n.toInt ∧ n.toInt.toNat.isValidChar := by
  unfold IsScalar Nat.isValidChar
  omega

theorem charOfCode_eq (n : Int64) :
    charOfCode n = if IsScalar n then .ok (Char.ofNat n.toInt.toNat) else .error (.invalidCodePoint n) := by
  simp only [charOfCode, isScalar_iff]

theorem toInt_code (c : Char) : (Int64.ofNat c.toNat).toInt = c.toNat := by
  have hc : c.toNat.isValidChar := c.valid
  refine Int64.toInt_ofNat_of_lt ?_
  unfold Nat.isValidChar at hc
  omega

theorem charOfCode_code (c : Char) : charOfCode (Int64.ofNat c.toNat) = .ok c := by
  have hscalar : IsScalar (Int64.ofNat c.toNat) := by
    rw [isScalar_iff, toInt_code]
    exact ⟨Int.natCast_nonneg _, c.valid⟩
  rw [charOfCode_eq, if_pos hscalar, toInt_code, Int.toNat_natCast, Char.ofNat_toNat]

theorem code_of_charOfCode {n : Int64} {c : Char} (h : charOfCode n = .ok c) : Int64.ofNat c.toNat = n := by
  rw [charOfCode_eq] at h
  split at h
  · rename_i hscalar
    obtain ⟨hn, hvalid⟩ := isScalar_iff.mp hscalar
    obtain rfl := Except.ok.inj h
    have hcode : (Char.ofNat n.toInt.toNat).toNat = n.toInt.toNat := by
      rw [Char.ofNat, dif_pos hvalid]
      rfl
    rw [← Int64.toInt_inj, toInt_code, hcode, Int.toNat_of_nonneg hn]
  · cases h

/-! ## Opcodes on strings -/

section
variable (s t u : String) (i : Int64)

theorem charIndex_eq : charIndex s.toList i =
    if HasIndex s i then .ok i.toInt.toNat else .error (.indexOutOfRange i s.length) := by
  rw [charIndex, String.length_toList]
  rfl

theorem charAt_eq : charAt s i = (at? s i).elim (.error (.indexOutOfRange i s.length)) .ok := by
  rw [charAt, charIndex_eq]
  by_cases h : HasIndex s i
  · obtain ⟨c, hc⟩ := h.exists_at
    have hget : s.toList[i.toInt.toNat]? = some c := by rwa [at?, if_pos h] at hc
    simp only [if_pos h, hc, bind, Except.bind, hget, Option.elim]
  · simp only [if_neg h, at_of_not h, bind, Except.bind, Option.elim]

theorem evaluate_strlen : evaluate .strlen [.string s] = .ok (.int (Int64.ofNat s.length)) := by
  rw [← String.length_toList]
  rfl

theorem evaluate_concat : evaluate .concat [.string s, .string t] = .ok (.string (s ++ t)) := rfl

theorem evaluate_getchar : evaluate .getchar [.string s, .int i] =
    (at? s i).elim (.error (.indexOutOfRange i s.length)) fun c => .ok (.string (String.ofList [c])) := by
  show (charAt s i).map _ = _
  rw [charAt_eq]
  cases at? s i <;> rfl

theorem evaluate_stri2int : evaluate .stri2int [.string s, .int i] =
    (at? s i).elim (.error (.indexOutOfRange i s.length)) fun c => .ok (.int (Int64.ofNat c.toNat)) := by
  show (charAt s i).map _ = _
  rw [charAt_eq]
  cases at? s i <;> rfl

theorem evaluate_int2char (n : Int64) : evaluate .int2char [.int n] =
    (charOfCode n).map fun c => .string (String.ofList [c]) := rfl

theorem evaluate_setchar_empty : evaluate .setchar [.string s, .int i, .string ""] = .error .emptyReplacement := rfl

variable {u} in
theorem evaluate_setchar {c : Char} (hc : at? u 0 = some c) : evaluate .setchar [.string s, .int i, .string u] =
    if HasIndex s i then .ok (.string (String.ofList (s.toList.set i.toInt.toNat c)))
    else .error (.indexOutOfRange i s.length) := by
  obtain ⟨k, hk, hfirst⟩ := at_eq_some_iff.mp hc
  obtain rfl : k = 0 := by simpa using hk.symm
  obtain ⟨cs, hcs⟩ : ∃ cs, u.toList = c :: cs := by
    cases hu : u.toList with
    | nil => simp [hu] at hfirst
    | cons d ds => exact ⟨ds, by simpa [hu] using hfirst⟩
  show (replaceChar s i u).map _ = _
  simp only [replaceChar, hcs, charIndex_eq]
  by_cases h : HasIndex s i
  · rw [if_pos h, if_pos h]
    rfl
  · rw [if_neg h, if_neg h]
    rfl

end

/-! ## Laws -/

section
variable {s u : String} {i : Int64}

theorem elim_at_ok_iff {f : Fault} {g : Char → Value} :
    (∃ v, ((at? s i).elim (.error f) fun c => .ok (g c)) = Except.ok v) ↔ HasIndex s i := by
  by_cases h : HasIndex s i
  · obtain ⟨c, hc⟩ := h.exists_at
    rw [hc]
    exact iff_of_true ⟨g c, rfl⟩ h
  · rw [at_of_not h]
    exact iff_of_false nofun h

theorem getchar_eq_ok_iff {v : Value} : evaluate .getchar [.string s, .int i] = .ok v ↔
    ∃ c, at? s i = some c ∧ .string (String.ofList [c]) = v := by
  rw [evaluate_getchar]
  cases at? s i <;> simp

theorem exists_first (h : u ≠ "") : ∃ c, at? u 0 = some c := by
  refine HasIndex.exists_at ⟨by decide, ?_⟩
  have hlength : u.length ≠ 0 := fun hzero => h (String.length_eq_zero_iff.mp hzero)
  show (0 : Int) < u.length
  omega

theorem setchar_ok_iff : (∃ v, evaluate .setchar [.string s, .int i, .string u] = .ok v) ↔
    HasIndex s i ∧ u ≠ "" := by
  by_cases hu : u = ""
  · subst hu
    rw [evaluate_setchar_empty]
    exact iff_of_false nofun fun h => h.2 rfl
  · obtain ⟨c, hc⟩ := exists_first hu
    rw [evaluate_setchar s i hc]
    by_cases h : HasIndex s i
    · rw [if_pos h]
      exact iff_of_true ⟨_, rfl⟩ ⟨h, hu⟩
    · rw [if_neg h]
      exact iff_of_false nofun fun hs => h hs.1

theorem int2char_ok_iff {n : Int64} : (∃ v, evaluate .int2char [.int n] = .ok v) ↔ IsScalar n := by
  rw [evaluate_int2char, charOfCode_eq]
  by_cases h : IsScalar n
  · rw [if_pos h]
    exact iff_of_true ⟨_, rfl⟩ h
  · rw [if_neg h]
    exact iff_of_false nofun h

theorem getchar_of_setchar {v : Value} (h : evaluate .setchar [.string s, .int i, .string u] = .ok v) :
    evaluate .strlen [v] = evaluate .strlen [.string s] ∧
      ∀ j, evaluate .getchar [v, .int j] =
        if j = i then evaluate .getchar [.string u, .int 0] else evaluate .getchar [.string s, .int j] := by
  obtain ⟨hindex, hu⟩ := setchar_ok_iff.mp ⟨v, h⟩
  obtain ⟨c, hc⟩ := exists_first hu
  rw [evaluate_setchar s i hc, if_pos hindex] at h
  obtain rfl := Except.ok.inj h
  refine ⟨by rw [evaluate_strlen, evaluate_strlen, length_replaced], fun j => ?_⟩
  rw [evaluate_getchar, evaluate_getchar, evaluate_getchar, at_replaced hindex, length_replaced, hc]
  split <;> rfl

end

/-- A text and the opcodes on strings: an array of characters. -/
structure ArrayLaws (s : String) : Prop where
  strlen : evaluate .strlen [.string s] = .ok (.int (Int64.ofNat s.length))
  entry : ∀ (k : Nat) (c : Char) (i : Int64), s.toList[k]? = some c → i.toInt = k →
    evaluate .getchar [.string s, .int i] = .ok (.string (String.ofList [c])) ∧
      evaluate .stri2int [.string s, .int i] = .ok (.int (Int64.ofNat c.toNat))
  getchar : ∀ i, (∃ v, evaluate .getchar [.string s, .int i] = .ok v) ↔ HasIndex s i
  stri2int : ∀ i, (∃ v, evaluate .stri2int [.string s, .int i] = .ok v) ↔ HasIndex s i
  setchar : ∀ i u, (∃ v, evaluate .setchar [.string s, .int i, .string u] = .ok v) ↔ HasIndex s i ∧ u ≠ ""
  outside : ∀ i, ¬ HasIndex s i →
    evaluate .getchar [.string s, .int i] = .error (.indexOutOfRange i s.length) ∧
      evaluate .stri2int [.string s, .int i] = .error (.indexOutOfRange i s.length) ∧
      ∀ u, u ≠ "" → evaluate .setchar [.string s, .int i, .string u] = .error (.indexOutOfRange i s.length)
  empty : ∀ i, evaluate .setchar [.string s, .int i, .string ""] = .error .emptyReplacement
  replaced : ∀ i u v, evaluate .setchar [.string s, .int i, .string u] = .ok v →
    evaluate .strlen [v] = evaluate .strlen [.string s] ∧
      ∀ j, evaluate .getchar [v, .int j] =
        if j = i then evaluate .getchar [.string u, .int 0] else evaluate .getchar [.string s, .int j]
  /-- Each side fails when the other does, and names its own index and length. -/
  appended : ∀ t, ∃ v, evaluate .concat [.string s, .string t] = .ok v ∧
    evaluate .strlen [v] = .ok (.int (Int64.ofNat s.length + Int64.ofNat t.length)) ∧
      ∀ (i : Int64) (w : Value), (i.toInt < s.length →
          (evaluate .getchar [v, .int i] = .ok w ↔ evaluate .getchar [.string s, .int i] = .ok w)) ∧
        (s.length ≤ i.toInt →
          (evaluate .getchar [v, .int i] = .ok w ↔
            evaluate .getchar [.string t, .int (i - Int64.ofNat s.length)] = .ok w))
  code : ∀ i, (evaluate .stri2int [.string s, .int i] >>= fun n => evaluate .int2char [n]) =
    evaluate .getchar [.string s, .int i]

theorem arrayLaws (s : String) : ArrayLaws s where
  strlen := evaluate_strlen s
  entry := by
    intro k c i hc hk
    have hat : at? s i = some c := at_eq_some_iff.mpr ⟨k, hk, hc⟩
    rw [evaluate_getchar, evaluate_stri2int, hat]
    exact ⟨rfl, rfl⟩
  getchar := by
    intro i
    rw [evaluate_getchar]
    exact elim_at_ok_iff
  stri2int := by
    intro i
    rw [evaluate_stri2int]
    exact elim_at_ok_iff
  setchar := fun i u => setchar_ok_iff
  outside := by
    intro i h
    rw [evaluate_getchar, evaluate_stri2int, at_of_not h]
    refine ⟨rfl, rfl, fun u hu => ?_⟩
    obtain ⟨c, hc⟩ := exists_first hu
    rw [evaluate_setchar s i hc, if_neg h]
  empty := evaluate_setchar_empty s
  replaced := fun i u v => getchar_of_setchar
  appended := by
    intro t
    refine ⟨_, evaluate_concat s t, ?_, fun i w => ⟨fun h => ?_, fun h => ?_⟩⟩
    · rw [evaluate_strlen, String.length_append, Int64.ofNat_add]
    · rw [getchar_eq_ok_iff, getchar_eq_ok_iff]
      exact exists_congr fun c => and_congr_left fun _ => at_append_left h
    · rw [getchar_eq_ok_iff, getchar_eq_ok_iff]
      exact exists_congr fun c => and_congr_left fun _ => at_append_right h
  code := by
    intro i
    rw [evaluate_getchar, evaluate_stri2int]
    cases at? s i with
    | none => rfl
    | some c =>
      show evaluate .int2char [.int (Int64.ofNat c.toNat)] = _
      rw [evaluate_int2char, charOfCode_code]
      rfl

/-- Texts are arrays of characters, whose codes are the Unicode scalar values. -/
theorem strings_are_character_arrays :
    (∀ s, ArrayLaws s) ∧
      ∀ n : Int64, ((∃ v, evaluate .int2char [.int n] = .ok v) ↔ IsScalar n) ∧
        (¬ IsScalar n → evaluate .int2char [.int n] = .error (.invalidCodePoint n)) ∧
        ∀ v, evaluate .int2char [.int n] = .ok v → evaluate .stri2int [v, .int 0] = .ok (.int n) := by
  refine ⟨arrayLaws, fun n => ⟨int2char_ok_iff, fun h => ?_, fun v h => ?_⟩⟩
  · rw [evaluate_int2char, charOfCode_eq, if_neg h]
    rfl
  · obtain ⟨c, hc, rfl⟩ := ok_of_map h
    have hfirst : at? (String.ofList [c]) 0 = some c := at_eq_some_iff.mpr ⟨0, rfl, by simp⟩
    rw [evaluate_stri2int, hfirst, Option.elim, code_of_charOfCode hc]

/-- A letter of two bytes takes the place of another, and neither an index below the text nor the code of a
surrogate has a character. -/
theorem accent_replaced :
    evaluate .setchar [.string "a\u00e9", .int 1, .string "\u017ex"] = .ok (.string "a\u017e") ∧
      evaluate .getchar [.string "a\u017e", .int 1] = evaluate .getchar [.string "\u017ex", .int 0] ∧
      evaluate .getchar [.string "a\u017e", .int 0] = evaluate .getchar [.string "a\u00e9", .int 0] ∧
      evaluate .stri2int [.string "a\u00e9", .int (-1)] = .error (.indexOutOfRange (-1) 2) ∧
      evaluate .int2char [.int 0xD800] = .error (.invalidCodePoint 0xD800) := by
  obtain ⟨hlaws, hcodes⟩ := strings_are_character_arrays
  have hset : evaluate .setchar [.string "a\u00e9", .int 1, .string "\u017ex"] = .ok (.string "a\u017e") := by
    decide +kernel
  have hread := ((hlaws _).replaced _ _ _ hset).2
  exact ⟨hset, hread 1, hread 0, ((hlaws _).outside (-1) (by decide)).2.1, (hcodes _).2.1 (by decide)⟩

end FrameMachine
