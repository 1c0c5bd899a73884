import FrameMachine.Input
import Mathlib.Data.List.Basic

/-!
# Lines of bytes

Bytes are cut after each line feed (`IsCut`); what follows the last one is a piece unless it is empty. The lines
of the bytes are the pieces without their ends (`lines_eq_map_chomp`). Whether a line is UTF-8 does not depend on
its end, so a piece may be decoded before or after the end is taken away (`fromUTF8?_chomp`).
-/

namespace FrameMachine

/-! ## Pieces -/

namespace Text

variable {α : Type}

/-- The pieces of a sequence that is cut after each `lf`. -/
structure IsCut (lf : α) (as : List α) (pieces : List (List α)) : Prop where
  whole : pieces.flatten = as
  nonempty : ∀ piece ∈ pieces, piece ≠ []
  inner : ∀ piece ∈ pieces, lf ∉ piece.dropLast
  /-- Only the last piece may lack the end of a line. -/
  ended : ∀ piece ∈ pieces.dropLast, piece.getLast? = some lf

section
variable {lf a : α} {as : List α} {pieces : List (List α)} (h : IsCut lf as pieces)
include h

theorem IsCut.cons_end : IsCut lf (lf :: as) ([lf] :: pieces) := by
  refine ⟨?_, ?_, ?_, ?_⟩
  · simp [h.whole]
  · simpa using h.nonempty
  · simpa using h.inner
  · have hended := h.ended
    cases pieces with
    | nil => simp
    | cons l ls => simpa using hended

theorem IsCut.cons (ha : a ≠ lf) : IsCut lf (a :: as) (consLine a pieces) := by
  obtain ⟨hwhole, hnonempty, hinner, hended⟩ := h
  cases pieces with
  | nil =>
    subst hwhole
    exact ⟨rfl, by simp [consLine], by simp [consLine], by simp [consLine]⟩
  | cons l ls =>
    obtain ⟨b, l, rfl⟩ := List.exists_cons_of_ne_nil (hnonempty l (by simp))
    refine ⟨?_, ?_, ?_, ?_⟩
    · simp [consLine, ← hwhole]
    · simpa [consLine] using hnonempty
    · simpa [consLine, ha.symm] using hinner
    · cases ls with
      | nil => simp [consLine]
      | cons l' ls => simpa [consLine] using hended

end

/-- A text at whose end a line begins. -/
def Closed (lf : α) (as : List α) : Prop := as = [] ∨ as.getLast? = some lf

theorem Closed.tail {lf a : α} {as : List α} (h : Closed lf (a :: as)) : (as = [] → a = lf) ∧ Closed lf as := by
  rcases h with h | h
  · cases h
  · cases as with
    | nil => exact ⟨fun _ => by simpa using h, Or.inl rfl⟩
    | cons b as => exact ⟨by simp, Or.inr (by simpa using h)⟩

variable [DecidableEq α]

def cut (lf : α) : List α → List (List α)
  | [] => []
  | a :: as => if a = lf then [a] :: cut lf as else consLine a (cut lf as)

theorem isCut_cut (lf : α) (as : List α) : IsCut lf as (cut lf as) := by
  induction as with
  | nil => exact ⟨rfl, by simp [cut], by simp [cut], by simp [cut]⟩
  | cons a as ih =>
    unfold cut
    by_cases ha : a = lf
    · subst ha
      rw [if_pos rfl]
      exact ih.cons_end
    · rw [if_neg ha]
      exact ih.cons ha

theorem cut_cons (lf a : α) (as : List α) : ∃ l ls, cut lf (a :: as) = (a :: l) :: ls := by
  unfold cut
  by_cases ha : a = lf
  · exact ⟨[], cut lf as, by rw [if_pos ha]⟩
  · rw [if_neg ha]
    cases cut lf as with
    | nil => exact ⟨[], [], rfl⟩
    | cons l ls => exact ⟨l, ls, rfl⟩

theorem cut_append {lf : α} {as : List α} (h : Closed lf as) (bs : List α) :
    cut lf (as ++ bs) = cut lf as ++ cut lf bs := by
  induction as with
  | nil => rfl
  | cons a as ih =>
    obtain ⟨hlast, hclosed⟩ := h.tail
    rw [List.cons_append, cut, cut, ih hclosed]
    by_cases ha : a = lf
    · simp [ha]
    · cases as with
      | nil => exact absurd (hlast rfl) ha
      | cons b as =>
        obtain ⟨l, ls, hcut⟩ := cut_cons lf b as
        simp [ha, hcut, consLine]

theorem cut_of_not_mem {lf : α} {as : List α} (hne : as ≠ []) (h : lf ∉ as) : cut lf as = [as] := by
  induction as with
  | nil => exact absurd rfl hne
  | cons a as ih =>
    rw [List.mem_cons, not_or] at h
    rw [cut, if_neg (Ne.symm h.1)]
    by_cases has : as = []
    · subst has
      rfl
    · rw [ih has h.2]
      rfl

theorem cut_line {lf : α} {as : List α} (h : lf ∉ as) : cut lf (as ++ [lf]) = [as ++ [lf]] := by
  induction as with
  | nil => simp [cut]
  | cons a as ih =>
    rw [List.mem_cons, not_or] at h
    rw [List.cons_append, cut, if_neg (Ne.symm h.1), ih h.2]
    rfl

theorem exists_closed (lf : α) (as : List α) : ∃ front back, as = front ++ back ∧ Closed lf front ∧ lf ∉ back := by
  by_cases h : lf ∈ as.reverse
  · obtain ⟨s, t, hst, hs⟩ := List.eq_append_cons_of_mem h
    refine ⟨t.reverse ++ [lf], s.reverse, ?_, Or.inr (by simp), by simpa using hs⟩
    rw [← as.reverse_reverse, hst]
    simp
  · exact ⟨[], as, rfl, Or.inl rfl, by simpa using h⟩

theorem length_cut {lf : α} {as : List α} (h : Closed lf as) : (cut lf as).length = as.count lf := by
  induction as with
  | nil => rfl
  | cons a as ih =>
    obtain ⟨hlast, hclosed⟩ := h.tail
    rw [cut, List.count_cons, ← ih hclosed]
    by_cases ha : a = lf
    · simp [ha]
    · cases as with
      | nil => exact absurd (hlast rfl) ha
      | cons b as =>
        obtain ⟨l, ls, hcut⟩ := cut_cons lf b as
        simp [ha, hcut, consLine]

/-! ## Ends of lines -/

/-- A line without its end, `lf` or `cr` and `lf`. -/
def chomp (cr lf : α) (as : List α) : List α :=
  if as.getLast? = some lf then
    if as.dropLast.getLast? = some cr then as.dropLast.dropLast else as.dropLast
  else as

section
variable {cr lf : α}

theorem chomp_of_ne {as : List α} (h : as.getLast? ≠ some lf) : chomp cr lf as = as := by
  rw [chomp, if_neg h]

theorem chomp_concat (as : List α) :
    chomp cr lf (as ++ [lf]) = if as.getLast? = some cr then as.dropLast else as := by
  simp [chomp]

theorem chomp_cons {a b : α} {l : List α} (h : ¬(a = cr ∧ b = lf)) :
    chomp cr lf (a :: b :: l) = a :: chomp cr lf (b :: l) := by
  simp only [chomp, List.getLast?_cons_cons, List.dropLast_cons_cons]
  by_cases hlf : (b :: l).getLast? = some lf
  · rw [if_pos hlf, if_pos hlf]
    cases l with
    | nil =>
      obtain rfl : b = lf := by simpa using hlf
      have ha : a ≠ cr := fun ha => h ⟨ha, rfl⟩
      simp [ha]
    | cons c l =>
      simp only [List.dropLast_cons_cons, List.getLast?_cons_cons]
      by_cases hcr : (b :: (c :: l).dropLast).getLast? = some cr
      · rw [if_pos hcr, if_pos hcr]
      · rw [if_neg hcr, if_neg hcr]
  · rw [if_neg hlf, if_neg hlf]

end

theorem lines_eq_map_chomp (cr lf : α) (as : List α) : lines cr lf as = (cut lf as).map (chomp cr lf) := by
  fun_induction lines cr lf as with
  | case1 => rfl
  | case2 => simp [cut, chomp]
  | case3 a ha => simp [cut, ha, consLine, chomp]
  | case4 b rest ih =>
    rw [cut, if_pos rfl, ih]
    simp [chomp]
  | case5 a b rest ha hend ih =>
    obtain ⟨rfl, rfl⟩ := hend
    simp [cut, ha, consLine, chomp, ih]
  | case6 a b rest ha hend ih =>
    rw [cut, if_neg ha, ih]
    obtain ⟨l, ls, hcut⟩ := cut_cons lf b rest
    simp only [hcut, consLine, List.map_cons, chomp_cons hend]

/-! ## Characters of one byte -/

theorem fromUTF8?_eq_some_iff {b : ByteArray} {s : String} :
    String.fromUTF8? b = some s ↔ s.toByteArray = b := by
  show (if h : b.IsValidUTF8 then some (String.fromUTF8 b h) else none) = some s ↔ _
  constructor
  · intro h
    split at h
    · cases h
      rfl
    · cases h
  · rintro rfl
    rw [dif_pos s.isValidUTF8]
    rfl

section
variable {c : Char} (hc : c.utf8Size = 1)
include hc

theorem toByteArray_push_of_size (s : String) : (s.push c).toByteArray = s.toByteArray.push c.toUInt8 := by
  rw [String.toByteArray_push, List.utf8Encode_singleton, String.utf8EncodeChar_eq_singleton hc]
  exact ByteArray.append_toByteArray_singleton

theorem utf8Size_of_getLast {d : Char} (h : (String.utf8EncodeChar d).getLast? = some c.toUInt8) :
    d.utf8Size = 1 := by
  have hfirst : c.toUInt8.IsUTF8FirstByte := by
    have hzero := @UInt8.isUTF8FirstByte_getElem_zero_utf8EncodeChar c
    simp only [String.utf8EncodeChar_eq_singleton hc] at hzero
    exact hzero
  rw [List.getLast?_eq_getElem?] at h
  obtain ⟨hlt, hbyte⟩ := List.getElem?_eq_some_iff.mp h
  have hindex := (@UInt8.isUTF8FirstByte_getElem_utf8EncodeChar d _ hlt).mp (hbyte ▸ hfirst)
  have hpos := d.utf8Size_pos
  rw [String.length_utf8EncodeChar] at hindex
  omega

theorem eq_of_toByteArray_push {d : Char} {s : String} {b : ByteArray}
    (h : (s.push d).toByteArray = b.push c.toUInt8) : d = c ∧ s.toByteArray = b := by
  have hbytes : s.toByteArray.data.toList ++ String.utf8EncodeChar d = b.data.toList ++ [c.toUInt8] := by
    have hdata := congrArg (fun a : ByteArray => a.data.toList) h
    simpa [String.toByteArray_push, List.utf8Encode_singleton] using hdata
  have hlast : (String.utf8EncodeChar d).getLast? = some c.toUInt8 := by
    have hgetLast := congrArg List.getLast? hbytes
    rw [List.getLast?_append_of_ne_nil _ String.utf8EncodeChar_ne_nil, List.getLast?_concat] at hgetLast
    exact hgetLast
  have hd := String.utf8EncodeChar_eq_singleton (utf8Size_of_getLast hc hlast)
  have hbyte : d.toUInt8 = c.toUInt8 := by
    rw [hd] at hlast
    exact Option.some.inj hlast
  have hchar : String.utf8EncodeChar d = String.utf8EncodeChar c := by
    rw [hd, String.utf8EncodeChar_eq_singleton hc]
    exact congrArg (fun b => [b]) hbyte
  refine ⟨?_, ?_⟩
  · have hdecode := @List.utf8DecodeChar?_utf8Encode_singleton d
    rw [List.utf8Encode_singleton, hchar, ← List.utf8Encode_singleton,
      List.utf8DecodeChar?_utf8Encode_singleton] at hdecode
    exact (Option.some.inj hdecode).symm
  · rw [hchar, String.utf8EncodeChar_eq_singleton hc] at hbytes
    exact ByteArray.ext (Array.toList_inj.mp (List.append_cancel_right hbytes))

theorem fromUTF8?_push (b : ByteArray) :
    String.fromUTF8? (b.push c.toUInt8) = (String.fromUTF8? b).map (·.push c) := by
  refine Option.ext ?_
  intro s
  rw [fromUTF8?_eq_some_iff, Option.map_eq_some_iff]
  constructor
  · intro h
    induction s using String.push_induction with
    | empty =>
      have hsize := congrArg ByteArray.size h
      simp at hsize
    | push t d =>
      obtain ⟨rfl, ht⟩ := eq_of_toByteArray_push hc h
      exact ⟨t, fromUTF8?_eq_some_iff.mpr ht, rfl⟩
  · rintro ⟨t, ht, rfl⟩
    rw [toByteArray_push_of_size hc, fromUTF8?_eq_some_iff.mp ht]

end

end Text

/-! ## Texts of lines -/

namespace Input

/-- The text of a piece without the end of the line, if the piece is UTF-8. -/
def textOf (piece : List UInt8) : Option String :=
  (String.fromUTF8? ⟨piece.toArray⟩).map fun s => String.ofList (Text.chomp '\r' '\n' s.toList)

section
variable {c : Char} (hc : c.utf8Size = 1)
include hc

theorem fromUTF8?_concat (bytes : List UInt8) :
    String.fromUTF8? ⟨(bytes ++ [c.toUInt8]).toArray⟩ = (String.fromUTF8? ⟨bytes.toArray⟩).map (·.push c) := by
  have hpush : (⟨(bytes ++ [c.toUInt8]).toArray⟩ : ByteArray) = ByteArray.push ⟨bytes.toArray⟩ c.toUInt8 :=
    ByteArray.ext (by simp)
  rw [hpush, Text.fromUTF8?_push hc]

theorem getLast_of_toList {bytes : List UInt8} {s : String} (h : String.fromUTF8? ⟨bytes.toArray⟩ = some s)
    (hs : s.toList.getLast? = some c) : bytes.getLast? = some c.toUInt8 := by
  obtain ⟨front, hfront⟩ := List.getLast?_eq_some_iff.mp hs
  obtain rfl : s = (String.ofList front).push c := by
    rw [← String.toList_inj, hfront]
    simp
  rw [Text.fromUTF8?_eq_some_iff, Text.toByteArray_push_of_size hc] at h
  have hbytes := congrArg (fun b : ByteArray => b.data.toList) h
  simp only [ByteArray.data_push, Array.toList_push] at hbytes
  rw [← hbytes]
  simp

end

theorem fromUTF8?_chomp (piece : List UInt8) :
    String.fromUTF8? ⟨(Text.chomp 13 10 piece).toArray⟩ = textOf piece := by
  have hlf : ('\n').utf8Size = 1 := rfl
  have hcr : ('\r').utf8Size = 1 := rfl
  unfold textOf
  by_cases hend : piece.getLast? = some 10
  · obtain ⟨body, rfl⟩ := List.getLast?_eq_some_iff.mp hend
    have hpush : String.fromUTF8? ⟨(body ++ [10]).toArray⟩ = _ := fromUTF8?_concat hlf body
    rw [Text.chomp_concat, hpush, Option.map_map]
    by_cases hreturn : body.getLast? = some 13
    · obtain ⟨front, rfl⟩ := List.getLast?_eq_some_iff.mp hreturn
      have hpush : String.fromUTF8? ⟨(front ++ [13]).toArray⟩ = _ := fromUTF8?_concat hcr front
      rw [if_pos hreturn, List.dropLast_concat, hpush, Option.map_map]
      cases String.fromUTF8? ⟨front.toArray⟩ with
      | none => rfl
      | some s =>
        have hs : ((s.push '\r').push '\n').toList = (s.toList ++ ['\r']) ++ ['\n'] := by
          rw [String.toList_push, String.toList_push]
        simp only [Option.map_some, Function.comp_apply, hs, Text.chomp_concat]
        simp
    · rw [if_neg hreturn]
      cases hs : String.fromUTF8? ⟨body.toArray⟩ with
      | none => rfl
      | some s =>
        have hne : s.toList.getLast? ≠ some '\r' := fun h => hreturn (getLast_of_toList hcr hs h)
        simp [Text.chomp_concat, hne]
  · rw [Text.chomp_of_ne hend]
    cases hs : String.fromUTF8? ⟨piece.toArray⟩ with
    | none => rfl
    | some s =>
      have hne : s.toList.getLast? ≠ some '\n' := fun h => hend (getLast_of_toList hlf hs h)
      simp [Text.chomp_of_ne hne]

theorem lines_ofBytes (bytes : ByteArray) :
    (ofBytes bytes).lines = (Text.cut 10 bytes.data.toList).map textOf := by
  simp only [ofBytes, Text.lines_eq_map_chomp, List.map_map]
  exact List.map_congr_left fun piece _ => fromUTF8?_chomp piece

end Input

end FrameMachine
