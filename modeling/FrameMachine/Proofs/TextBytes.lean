import Mathlib.Data.List.Basic

/-!
# The bytes of a text

The bytes of a character are its code, if that is below 128, and otherwise all of them are at least 128
(`byte_cases`). So a byte that is a digit or a backslash is that character, and digits at the start of the bytes are
digits at the start of the text (`digits_of_take`). A text can be cut at a byte offset only where a character ends
(`splitBytes_eq_some_iff`).
-/

namespace FrameMachine.Text

def utf8 (cs : List Char) : List UInt8 := cs.flatMap String.utf8EncodeChar

def isDigitByte (b : UInt8) : Bool := 48 ≤ b.toNat && b.toNat ≤ 57

theorem utf8_toList (t : String) : t.toUTF8.data.toList = utf8 t.toList := by
  rw [String.toUTF8_eq_toByteArray, ← String.utf8Encode_toList]
  exact List.toList_data_toByteArray

theorem utf8_cons (c : Char) (cs : List Char) : utf8 (c :: cs) = String.utf8EncodeChar c ++ utf8 cs :=
  List.flatMap_cons

theorem utf8_append (cs ds : List Char) : utf8 (cs ++ ds) = utf8 cs ++ utf8 ds := List.flatMap_append

theorem length_utf8_cons (c : Char) (cs : List Char) : (utf8 (c :: cs)).length = c.utf8Size + (utf8 cs).length := by
  rw [utf8_cons, List.length_append, String.length_utf8EncodeChar]

/-! ## Characters and their bytes -/

theorem encode_eq (c : Char) : String.utf8EncodeChar c =
    if c.toNat ≤ 127 then [.ofNat c.toNat]
    else if c.toNat ≤ 2047 then [.ofNat (c.toNat / 64 % 32 + 192), .ofNat (c.toNat % 64 + 128)]
    else if c.toNat ≤ 65535 then
      [.ofNat (c.toNat / 4096 % 16 + 224), .ofNat (c.toNat / 64 % 64 + 128), .ofNat (c.toNat % 64 + 128)]
    else [.ofNat (c.toNat / 262144 % 8 + 240), .ofNat (c.toNat / 4096 % 64 + 128),
      .ofNat (c.toNat / 64 % 64 + 128), .ofNat (c.toNat % 64 + 128)] := rfl

theorem encode_ascii {c : Char} (h : c.toNat < 128) : String.utf8EncodeChar c = [.ofNat c.toNat] := by
  rw [encode_eq, if_pos (Nat.le_of_lt_succ h)]

theorem le_of_mem_encode {c : Char} (h : 128 ≤ c.toNat) {b : UInt8} (hb : b ∈ String.utf8EncodeChar c) :
    128 ≤ b.toNat := by
  rw [encode_eq, if_neg (Nat.not_le_of_lt h)] at hb
  have hbyte : ∃ n, 128 ≤ n ∧ n < 256 ∧ b = .ofNat n := by
    split at hb
    · simp only [List.mem_cons, List.not_mem_nil, or_false] at hb
      rcases hb with rfl | rfl <;> exact ⟨_, by omega, by omega, rfl⟩
    · split at hb
      · simp only [List.mem_cons, List.not_mem_nil, or_false] at hb
        rcases hb with rfl | rfl | rfl <;> exact ⟨_, by omega, by omega, rfl⟩
      · simp only [List.mem_cons, List.not_mem_nil, or_false] at hb
        rcases hb with rfl | rfl | rfl | rfl <;> exact ⟨_, by omega, by omega, rfl⟩
  obtain ⟨n, hlow, hhigh, rfl⟩ := hbyte
  rw [UInt8.toNat_ofNat']
  omega

/-- A byte of a character is the character itself, or neither of them is below 128. -/
theorem byte_cases {c : Char} {b : UInt8} (hb : b ∈ String.utf8EncodeChar c) :
    b.toNat = c.toNat ∨ 128 ≤ b.toNat ∧ 128 ≤ c.toNat := by
  by_cases h : c.toNat < 128
  · rw [encode_ascii h, List.mem_singleton] at hb
    rw [hb, UInt8.toNat_ofNat']
    omega
  · exact Or.inr ⟨le_of_mem_encode (by omega) hb, by omega⟩

theorem isDigit_iff {c : Char} : c.isDigit = true ↔ 48 ≤ c.toNat ∧ c.toNat ≤ 57 := by
  simp only [Char.isDigit, Bool.and_eq_true, decide_eq_true_eq]
  rfl

theorem isDigitByte_of_mem {c : Char} {b : UInt8} (hb : b ∈ String.utf8EncodeChar c) :
    isDigitByte b = c.isDigit := by
  rw [Bool.eq_iff_iff, isDigit_iff, isDigitByte, Bool.and_eq_true, decide_eq_true_eq, decide_eq_true_eq]
  rcases byte_cases hb with h | h
  · rw [h]
  · omega

theorem byte_eq_backslash {c : Char} {b : UInt8} (hb : b ∈ String.utf8EncodeChar c) : b = 92 ↔ c = '\\' := by
  have hbyte : b = 92 ↔ b.toNat = 92 := ⟨fun h => h ▸ rfl, fun h => UInt8.toNat_inj.mp h⟩
  have hchar : c = '\\' ↔ c.toNat = 92 := ⟨fun h => h ▸ rfl, fun h => Char.toNat_inj.mp h⟩
  rw [hbyte, hchar]
  rcases byte_cases hb with h | h
  · rw [h]
  · omega

/-! ## Digits -/

theorem all_isDigitByte_encode (c : Char) : (String.utf8EncodeChar c).all isDigitByte = c.isDigit := by
  rw [Bool.eq_iff_iff, List.all_eq_true]
  constructor
  · intro h
    obtain ⟨b, hb⟩ := List.exists_mem_of_ne_nil _ (@String.utf8EncodeChar_ne_nil c)
    rw [← isDigitByte_of_mem hb]
    exact h b hb
  · intro h b hb
    rw [isDigitByte_of_mem hb, h]

theorem all_isDigitByte_utf8 (cs : List Char) : (utf8 cs).all isDigitByte = cs.all Char.isDigit := by
  rw [utf8, List.all_flatMap]
  exact congrArg cs.all (funext all_isDigitByte_encode)

theorem utf8_digits {ds : List Char} (h : ds.all Char.isDigit = true) :
    utf8 ds = ds.map fun c => .ofNat c.toNat := by
  induction ds with
  | nil => rfl
  | cons c ds ih =>
    rw [List.all_cons, Bool.and_eq_true] at h
    have hc := (isDigit_iff.mp h.1).2
    rw [utf8_cons, encode_ascii (by omega), List.map_cons, ih h.2]
    rfl

theorem length_utf8_digits {ds : List Char} (h : ds.all Char.isDigit = true) : (utf8 ds).length = ds.length := by
  rw [utf8_digits h, List.length_map]

theorem digits_of_take {n : Nat} {cs : List Char} (hlength : ((utf8 cs).take n).length = n)
    (hall : ((utf8 cs).take n).all isDigitByte = true) :
    ∃ ds tail, cs = ds ++ tail ∧ ds.length = n ∧ ds.all Char.isDigit = true := by
  induction n generalizing cs with
  | zero => exact ⟨[], cs, rfl, rfl, rfl⟩
  | succ n ih =>
    cases cs with
    | nil => simp [utf8] at hlength
    | cons c cs =>
      obtain ⟨b, bs, hbytes⟩ := List.exists_cons_of_ne_nil (@String.utf8EncodeChar_ne_nil c)
      have hutf8 : utf8 (c :: cs) = b :: (bs ++ utf8 cs) := by rw [utf8_cons, hbytes]; rfl
      rw [hutf8, List.take_succ_cons] at hlength hall
      rw [List.all_cons, Bool.and_eq_true] at hall
      have hdigit : c.isDigit = true := by
        rw [← hall.1]
        exact (isDigitByte_of_mem (hbytes ▸ List.mem_cons_self)).symm
      obtain rfl : bs = [] := by
        have hc := (isDigit_iff.mp hdigit).2
        rw [encode_ascii (by omega)] at hbytes
        exact (List.cons.inj hbytes).2.symm
      obtain ⟨ds, tail, rfl, hds, hdigits⟩ := ih (Nat.succ.inj hlength) hall.2
      exact ⟨c :: ds, tail, rfl, congrArg (· + 1) hds, by simp [hdigit, hdigits]⟩

/-! ## Cutting at a byte offset -/

/-- The characters that take up the first bytes of a text and those after them, if a character ends there. -/
def splitBytes? : Nat → List Char → Option (List Char × List Char)
  | 0, cs => some ([], cs)
  | _ + 1, [] => none
  | n + 1, c :: cs =>
    if c.utf8Size ≤ n + 1 then (splitBytes? (n + 1 - c.utf8Size) cs).map fun (l, r) => (c :: l, r) else none

theorem splitBytes_eq_some_iff {n : Nat} {cs l r : List Char} :
    splitBytes? n cs = some (l, r) ↔ cs = l ++ r ∧ (utf8 l).length = n := by
  fun_induction splitBytes? n cs generalizing l with
  | case1 cs =>
    cases l with
    | nil => simp [utf8, eq_comm]
    | cons c l =>
      have hpos := Char.utf8Size_pos c
      refine ⟨by simp, fun h => ?_⟩
      rw [length_utf8_cons] at h
      omega
  | case2 n =>
    cases l with
    | nil => simp [utf8]
    | cons c l => simp
  | case3 n c cs hle ih =>
    cases l with
    | nil => simp [utf8]
    | cons d l =>
      simp only [Option.map_eq_some_iff, Prod.exists, Prod.mk.injEq, List.cons.injEq, List.cons_append,
        length_utf8_cons]
      constructor
      · rintro ⟨l', r', h, ⟨rfl, rfl⟩, rfl⟩
        obtain ⟨rfl, hlength⟩ := ih.mp h
        exact ⟨⟨rfl, rfl⟩, by omega⟩
      · rintro ⟨⟨rfl, rfl⟩, hlength⟩
        exact ⟨l, r, ih.mpr ⟨rfl, by omega⟩, ⟨rfl, rfl⟩, rfl⟩
  | case4 n c cs hle =>
    cases l with
    | nil => simp [utf8]
    | cons d l =>
      simp only [reduceCtorEq, List.cons_append, List.cons.injEq, length_utf8_cons, false_iff, not_and]
      rintro ⟨rfl, -⟩
      omega

end FrameMachine.Text
