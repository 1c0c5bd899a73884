import FrameMachine.Proofs.EscapedText
import FrameMachine.Proofs.TextBytes

/-!
# Two scans for escapes

A literal in source code is checked by a walk over the bytes of its text with an index, and decoded by a search
for the next backslash in the text that remains, which is cut at byte offsets that must lie between two
characters. `byteScan` and `sliceScan` describe the two as they go, with the escapes that they pass. Both go over
the characters of the text as `scan_induction` does. So they find the same escapes at the same offsets, and differ
only where the decoder stops at a code that it forbids (`sliceScan_eq_cut`).
-/

namespace FrameMachine.Literal

open Numeral Text

/-! ## What a scan finds -/

/-- An escape in a text: the byte offset of its backslash, and the code that its digits name. -/
structure Escape where
  offset : Nat
  code : Nat
deriving DecidableEq

inductive ScanEnd where
  | finished
  /-- The backslash at the offset is not followed by three digits. -/
  | malformed (offset : Nat)
  /-- The escape names a code that may not be written so. -/
  | forbidden (e : Escape)
deriving DecidableEq

/-- The escapes that a scan has passed, in order, and what it has ended with. -/
structure Scan where
  escapes : List Escape
  ending : ScanEnd
deriving DecidableEq

namespace Scan

def stop (ending : ScanEnd) : Scan := ⟨[], ending⟩

def pass (e : Escape) (s : Scan) : Scan := { s with escapes := e :: s.escapes }

/-- The scan up to the first escape that names a forbidden code. -/
def cut (s : Scan) : Scan :=
  match s.escapes.find? fun e => !isEscapable e.code with
  | none => s
  | some e => ⟨s.escapes.takeWhile fun e => isEscapable e.code, .forbidden e⟩

theorem cut_stop (ending : ScanEnd) : (stop ending).cut = stop ending := rfl

theorem cut_pass {e : Escape} (h : isEscapable e.code = true) (s : Scan) : (s.pass e).cut = s.cut.pass e := by
  unfold cut pass
  rw [List.find?_cons_of_neg (by simp [h])]
  cases s.escapes.find? fun e => !isEscapable e.code with
  | none => rfl
  | some f => simp [h]

theorem cut_pass_forbidden {e : Escape} (h : isEscapable e.code ≠ true) (s : Scan) :
    (s.pass e).cut = stop (.forbidden e) := by
  unfold cut pass
  rw [List.find?_cons_of_pos (by simp [h])]
  simp [h, stop]

theorem cut_cases (s : Scan) :
    s.cut = s ∧ (∀ e ∈ s.escapes, isEscapable e.code = true) ∨
      ∃ e ∈ s.escapes, isEscapable e.code ≠ true ∧ s.cut.ending = .forbidden e := by
  unfold cut
  cases hfind : s.escapes.find? fun e => !isEscapable e.code with
  | none => exact Or.inl ⟨rfl, by simpa using hfind⟩
  | some e => exact Or.inr ⟨e, List.mem_of_find?_eq_some hfind, by simpa using List.find?_some hfind, rfl⟩

end Scan

/-! ## The scan of the bytes -/

/-- The code that three bytes name as decimal digits. -/
def byteCode? (bs : List UInt8) : Option Nat :=
  if bs.length = 3 ∧ bs.all isDigitByte = true then some (value 10 (bs.map fun b => b.toNat - 48)) else none

/-- Walks over the bytes from an index on. -/
def byteScan (bs : List UInt8) (i : Nat) : Scan :=
  if h : i < bs.length then
    if bs[i] = 92 then
      match byteCode? ((bs.drop (i + 1)).take 3) with
      | some code => (byteScan bs (i + 4)).pass ⟨i, code⟩
      | none => .stop (.malformed i)
    else byteScan bs (i + 1)
  else .stop .finished
termination_by bs.length - i

/-! ## The scan by slices -/

/-- The code that the first three bytes of a text name as decimal digits, and the text after them. -/
def sliceCode? (cs : List Char) : Option (Nat × List Char) := do
  let (digits, tail) ← splitBytes? 3 cs
  if (utf8 digits).all isDigitByte then
    let code ← read? 10 digits
    return (code, tail)
  else none

theorem sliceCode_eq_some_iff {cs tail : List Char} {code : Nat} :
    sliceCode? cs = some (code, tail) ↔
      ∃ ds, cs = ds ++ tail ∧ (utf8 ds).length = 3 ∧ (utf8 ds).all isDigitByte = true ∧
        read? 10 ds = some code := by
  unfold sliceCode?
  simp only [Option.bind_eq_bind, Option.bind_eq_some_iff, Prod.exists, splitBytes_eq_some_iff]
  constructor
  · rintro ⟨ds, tail', ⟨rfl, hlength⟩, h⟩
    split at h
    · rename_i hall
      obtain ⟨code', hcode, h⟩ := Option.bind_eq_some_iff.mp h
      obtain ⟨rfl, rfl⟩ := Prod.mk.inj (Option.some.inj h)
      exact ⟨ds, rfl, hlength, hall, hcode⟩
    · cases h
  · rintro ⟨ds, rfl, hlength, hall, hcode⟩
    exact ⟨ds, tail, ⟨rfl, hlength⟩, by simp [hall, hcode]⟩

theorem length_lt_of_sliceCode {rest after tail : List Char} {b : Char} {code : Nat}
    (hfind : rest.dropWhile (· ≠ '\\') = b :: after) (hcode : sliceCode? after = some (code, tail)) :
    tail.length < rest.length := by
  obtain ⟨ds, rfl, -⟩ := sliceCode_eq_some_iff.mp hcode
  have hafter := (List.dropWhile_sublist (· ≠ '\\') (l := rest)).length_le
  rw [hfind, List.length_cons, List.length_append] at hafter
  omega

/-- Finds the next backslash and goes on after the digits that follow it. The second component is the text
decoded so far. -/
def sliceScan (k : Nat) (rest : List Char) : Scan × List Char :=
  let before := rest.takeWhile (· ≠ '\\')
  let start := k + (utf8 before).length
  match hfind : rest.dropWhile (· ≠ '\\') with
  | [] => (.stop .finished, rest)
  | _ :: after =>
    match hcode : sliceCode? after with
    | none => (.stop (.malformed start), before)
    | some (code, tail) =>
      have := length_lt_of_sliceCode hfind hcode
      if isEscapable code then
        let (scan, out) := sliceScan (start + 4) tail
        (scan.pass ⟨start, code⟩, before ++ Char.ofNat code :: out)
      else (.stop (.forbidden ⟨start, code⟩), before)
termination_by rest.length

/-- What the scan does with the text before a backslash, the offset of the backslash and what follows it. -/
def sliceStep (before : List Char) (start : Nat) : Option (Nat × List Char) → Scan × List Char
  | none => (.stop (.malformed start), before)
  | some (code, tail) =>
    if isEscapable code then
      ((sliceScan (start + 4) tail).1.pass ⟨start, code⟩,
        before ++ Char.ofNat code :: (sliceScan (start + 4) tail).2)
    else (.stop (.forbidden ⟨start, code⟩), before)

section
variable {code : Nat} (before : List Char) (start : Nat) (tail : List Char)

theorem sliceStep_escape (h : isEscapable code = true) :
    sliceStep before start (some (code, tail)) =
      ((sliceScan (start + 4) tail).1.pass ⟨start, code⟩,
        before ++ Char.ofNat code :: (sliceScan (start + 4) tail).2) := if_pos h

theorem sliceStep_forbidden (h : isEscapable code ≠ true) :
    sliceStep before start (some (code, tail)) = (.stop (.forbidden ⟨start, code⟩), before) := if_neg h

end

theorem sliceStep_cons (c : Char) (before : List Char) (start : Nat) (found : Option (Nat × List Char)) :
    sliceStep (c :: before) start found =
      ((sliceStep before start found).1, c :: (sliceStep before start found).2) := by
  cases found with
  | none => rfl
  | some r =>
    simp only [sliceStep]
    split <;> rfl

theorem sliceScan_eq (k : Nat) (rest : List Char) :
    sliceScan k rest = match rest.dropWhile (· ≠ '\\') with
      | [] => (.stop .finished, rest)
      | _ :: after =>
        sliceStep (rest.takeWhile (· ≠ '\\')) (k + (utf8 (rest.takeWhile (· ≠ '\\'))).length)
          (sliceCode? after) := by
  rw [sliceScan]
  split
  · rename_i hfind
    simp only [hfind]
  · rename_i hfind
    simp only [hfind]
    split
    · rename_i hcode
      simp only [hcode, sliceStep]
    · rename_i hcode
      simp only [hcode, sliceStep]

theorem sliceScan_nil (k : Nat) : sliceScan k [] = (.stop .finished, []) := sliceScan_eq k []

theorem sliceScan_backslash (k : Nat) (cs : List Char) :
    sliceScan k ('\\' :: cs) = sliceStep [] k (sliceCode? cs) := sliceScan_eq k ('\\' :: cs)

theorem sliceScan_raw {c : Char} (hc : c ≠ '\\') (k : Nat) (cs : List Char) :
    sliceScan k (c :: cs) = ((sliceScan (k + c.utf8Size) cs).1, c :: (sliceScan (k + c.utf8Size) cs).2) := by
  have htake : (c :: cs).takeWhile (· ≠ '\\') = c :: cs.takeWhile (· ≠ '\\') := by simp [hc]
  have hdrop : (c :: cs).dropWhile (· ≠ '\\') = cs.dropWhile (· ≠ '\\') := by simp [hc]
  rw [sliceScan_eq, sliceScan_eq (k + c.utf8Size), htake, hdrop, length_utf8_cons, ← Nat.add_assoc]
  cases cs.dropWhile (· ≠ '\\') with
  | nil => rfl
  | cons b after => exact sliceStep_cons ..

/-! ## Codes -/

theorem read_digits {ds : List Char} (h : ds.all Char.isDigit = true) (hne : ds ≠ []) :
    read? 10 ds = some (value 10 (ds.map fun c => c.toNat - 48)) := by
  have hvalue : ∀ d < 10, d.digitChar.toNat - 48 = d := by decide
  have hdigits : digits? 10 ds = some (ds.map fun c => c.toNat - 48) := by
    rw [digits_eq_some_iff isBase_ten, List.forall₂_map_right_iff, List.forall₂_same]
    intro c hc
    obtain ⟨d, hd, rfl⟩ := exists_digitChar (List.all_eq_true.mp h c hc)
    rw [hvalue d hd]
    exact ⟨hd, Or.inl rfl⟩
  simp [read?, hne, hdigits]

theorem escapeCode_eq_some_iff_read {a b c : Char} {code : Nat} :
    escapeCode? a b c = some code ↔ [a, b, c].all Char.isDigit = true ∧ read? 10 [a, b, c] = some code := by
  have hall : [a, b, c].all Char.isDigit = (a.isDigit && b.isDigit && c.isDigit) := by simp [Bool.and_assoc]
  rw [hall, escapeCode?]
  split
  · rename_i hdigits
    simp only [hdigits, true_and]
  · rename_i hdigits
    simp only [hdigits, reduceCtorEq, false_and]

/-- The code of the three digits that a text starts with, and the text after them. -/
def leadingCode? : List Char → Option (Nat × List Char)
  | a :: b :: c :: rest => (escapeCode? a b c).map fun code => (code, rest)
  | _ => none

theorem leadingCode_eq_some_iff {cs tail : List Char} {code : Nat} :
    leadingCode? cs = some (code, tail) ↔
      ∃ ds, cs = ds ++ tail ∧ ds.length = 3 ∧ ds.all Char.isDigit = true ∧ read? 10 ds = some code := by
  constructor
  · intro h
    unfold leadingCode? at h
    split at h
    · rename_i a b c rest
      obtain ⟨code, hcode, heq⟩ := Option.map_eq_some_iff.mp h
      obtain ⟨rfl, rfl⟩ := Prod.mk.inj heq
      exact ⟨[a, b, c], rfl, rfl, escapeCode_eq_some_iff_read.mp hcode⟩
    · cases h
  · rintro ⟨ds, rfl, hlength, hcode⟩
    obtain ⟨a, b, c, rfl⟩ := List.length_eq_three.mp hlength
    simp [leadingCode?, escapeCode_eq_some_iff_read.mpr hcode]

theorem padded_of_leadingCode {cs tail : List Char} {code : Nat} (h : leadingCode? cs = some (code, tail)) :
    cs = padded 10 3 code ++ tail ∧ (utf8 ('\\' :: padded 10 3 code)).length = 4 := by
  obtain ⟨ds, rfl, hlength, hall, hread⟩ := leadingCode_eq_some_iff.mp h
  obtain ⟨a, b, c, rfl⟩ := List.length_eq_three.mp hlength
  have hcode := escapeCode_eq_some_iff.mp (escapeCode_eq_some_iff_read.mpr ⟨hall, hread⟩)
  rw [hcode.2, length_utf8_cons, length_utf8_digits hall]
  exact ⟨rfl, rfl⟩

theorem sliceCode_eq (cs : List Char) : sliceCode? cs = leadingCode? cs := by
  refine Option.ext fun ⟨code, tail⟩ => ?_
  rw [sliceCode_eq_some_iff, leadingCode_eq_some_iff]
  refine exists_congr fun ds => and_congr_right fun _ => ?_
  rw [all_isDigitByte_utf8, and_left_comm, @and_left_comm (ds.length = 3)]
  refine and_congr_right fun hall => ?_
  rw [length_utf8_digits hall]

theorem byteCode_utf8 {ds : List Char} (hlength : ds.length = 3) (hall : ds.all Char.isDigit = true) :
    byteCode? (utf8 ds) = read? 10 ds := by
  have hbytes : (utf8 ds).map (fun b => b.toNat - 48) = ds.map fun c => c.toNat - 48 := by
    rw [utf8_digits hall, List.map_map]
    refine List.map_congr_left fun c hc => ?_
    have hle := (isDigit_iff.mp (List.all_eq_true.mp hall c hc)).2
    rw [Function.comp_apply, UInt8.toNat_ofNat']
    omega
  have hthree : (utf8 ds).length = 3 := by rw [length_utf8_digits hall, hlength]
  rw [byteCode?, if_pos ⟨hthree, by rw [all_isDigitByte_utf8, hall]⟩, hbytes, read_digits hall]
  rintro rfl
  cases hlength

theorem byteCode_take (cs : List Char) : byteCode? ((utf8 cs).take 3) = (leadingCode? cs).map Prod.fst := by
  by_cases h : ∃ ds tail, cs = ds ++ tail ∧ ds.length = 3 ∧ ds.all Char.isDigit = true
  · obtain ⟨ds, tail, rfl, hlength, hall⟩ := h
    have htake : (utf8 (ds ++ tail)).take 3 = utf8 ds := by
      rw [utf8_append]
      exact List.take_left' (by rw [length_utf8_digits hall, hlength])
    have hcode := read_digits hall (by rintro rfl; cases hlength)
    rw [htake, byteCode_utf8 hlength hall, hcode, leadingCode_eq_some_iff.mpr ⟨ds, rfl, hlength, hall, hcode⟩]
    rfl
  · have hnone : leadingCode? cs = none := by
      rw [Option.eq_none_iff_forall_ne_some]
      rintro ⟨code, tail⟩ hcode
      obtain ⟨ds, hcs, hlength, hall, -⟩ := leadingCode_eq_some_iff.mp hcode
      exact h ⟨ds, tail, hcs, hlength, hall⟩
    rw [hnone, byteCode?, if_neg]
    · rfl
    · rintro ⟨hlength, hall⟩
      exact h (digits_of_take hlength hall)

/-! ## Bytes, character by character -/

section
variable {bs : List UInt8} {i : Nat}

theorem byteScan_nil (h : bs.drop i = []) : byteScan bs i = .stop .finished := by
  rw [byteScan, dif_neg (Nat.not_lt.mpr (List.drop_eq_nil_iff.mp h))]

theorem getElem_of_drop {b : UInt8} {rest : List UInt8} (h : bs.drop i = b :: rest) :
    ∃ hi : i < bs.length, bs[i] = b ∧ bs.drop (i + 1) = rest := by
  have hi : i < bs.length := by
    rw [← Nat.not_le, ← List.drop_eq_nil_iff, h]
    simp
  rw [List.drop_eq_getElem_cons hi] at h
  exact ⟨hi, (List.cons.inj h).1, (List.cons.inj h).2⟩

theorem byteScan_backslash {rest : List UInt8} (h : bs.drop i = 92 :: rest) :
    byteScan bs i = match byteCode? (rest.take 3) with
      | some code => (byteScan bs (i + 4)).pass ⟨i, code⟩
      | none => .stop (.malformed i) := by
  obtain ⟨hi, hb, hrest⟩ := getElem_of_drop h
  rw [byteScan, dif_pos hi, if_pos hb, hrest]

theorem byteScan_skip {xs rest : List UInt8} (h : bs.drop i = xs ++ rest) (hxs : ∀ b ∈ xs, b ≠ 92) :
    byteScan bs i = byteScan bs (i + xs.length) ∧ bs.drop (i + xs.length) = rest := by
  induction xs generalizing i with
  | nil => exact ⟨rfl, h⟩
  | cons b xs ih =>
    obtain ⟨hi, hb, hrest⟩ := getElem_of_drop h
    obtain ⟨hscan, hdrop⟩ := ih hrest fun b hb => hxs b (List.mem_cons_of_mem _ hb)
    have hindex : i + (b :: xs).length = i + 1 + xs.length := by rw [List.length_cons]; omega
    rw [hindex, byteScan, dif_pos hi, if_neg (by rw [hb]; exact hxs b List.mem_cons_self)]
    exact ⟨hscan, hdrop⟩

variable {cs : List Char}

theorem byteScan_raw {c : Char} (hc : c ≠ '\\') (h : bs.drop i = utf8 (c :: cs)) :
    byteScan bs i = byteScan bs (i + c.utf8Size) ∧ bs.drop (i + c.utf8Size) = utf8 cs := by
  rw [← String.length_utf8EncodeChar]
  exact byteScan_skip h fun b hb => mt (byte_eq_backslash hb).mp hc

theorem byteScan_of_none (h : bs.drop i = utf8 ('\\' :: cs)) (hcode : leadingCode? cs = none) :
    byteScan bs i = .stop (.malformed i) := by
  rw [@byteScan_backslash bs i (utf8 cs) h, byteCode_take, hcode]
  rfl

theorem byteScan_of_some (h : bs.drop i = utf8 ('\\' :: cs)) {code : Nat} {tail : List Char}
    (hcode : leadingCode? cs = some (code, tail)) :
    byteScan bs i = (byteScan bs (i + 4)).pass ⟨i, code⟩ ∧ bs.drop (i + 4) = utf8 tail := by
  constructor
  · rw [@byteScan_backslash bs i (utf8 cs) h, byteCode_take, hcode]
    rfl
  · obtain ⟨rfl, hfour⟩ := padded_of_leadingCode hcode
    rw [← List.cons_append, utf8_append] at h
    rw [← List.drop_drop, h, List.drop_left' hfour]

end

/-! ## Characters -/

section
variable {cs tail : List Char} {c : Char} {code : Nat}

theorem escapesWellFormed_raw (hc : c ≠ '\\') : escapesWellFormed (c :: cs) = escapesWellFormed cs := by
  rw [escapesWellFormed.eq_3 _ _ (fun _ _ _ _ h _ => hc h)]
  simp [hc]

theorem escapesWellFormed_backslash (cs : List Char) :
    escapesWellFormed ('\\' :: cs) = match leadingCode? cs with
      | some (_, tail) => escapesWellFormed tail
      | none => false := by
  rcases cs with _ | ⟨a, _ | ⟨b, _ | ⟨c, rest⟩⟩⟩
  · rfl
  · rfl
  · rfl
  · rw [escapesWellFormed, leadingCode?]
    by_cases hdigits : (a.isDigit && b.isDigit && c.isDigit) = true
    · rw [Bool.and_eq_true, Bool.and_eq_true] at hdigits
      obtain ⟨code, hcode⟩ := escapeCode_of_isDigit hdigits.1.1 hdigits.1.2 hdigits.2
      rw [hcode, hdigits.1.1, hdigits.1.2, hdigits.2]
      rfl
    · rw [Bool.eq_false_of_not_eq_true hdigits, escapeCode?, if_neg hdigits]
      rfl

theorem decodeChars_backslash (cs : List Char) :
    decodeChars ('\\' :: cs) = match leadingCode? cs with
      | some (code, tail) => if isEscapable code then (decodeChars tail).map (Char.ofNat code :: ·) else none
      | none => none := by
  rcases cs with _ | ⟨a, _ | ⟨b, _ | ⟨c, rest⟩⟩⟩
  · rfl
  · rfl
  · rfl
  · rw [decodeChars, leadingCode?]
    cases escapeCode? a b c <;> rfl

/-- A scan stops at the end of the text or at a backslash without digits, and goes on after anything else. -/
@[elab_as_elim]
theorem scan_induction {P : List Char → Prop} (nil : P []) (raw : ∀ c cs, c ≠ '\\' → P cs → P (c :: cs))
    (malformed : ∀ cs, leadingCode? cs = none → P ('\\' :: cs))
    (escape : ∀ cs code tail, leadingCode? cs = some (code, tail) → P tail → P ('\\' :: cs)) (cs : List Char) :
    P cs := by
  induction cs using decodeChars.induct with
  | case1 => exact nil
  | case2 a b c rest ih =>
    cases hcode : escapeCode? a b c with
    | none => exact malformed _ (by rw [leadingCode?, hcode]; rfl)
    | some code => exact escape _ code rest (by rw [leadingCode?, hcode]; rfl) ih
  | case3 rest hno =>
    refine malformed rest ?_
    unfold leadingCode?
    split
    · exact absurd rfl (hno _ _ _ _ rfl)
    · rfl
  | case4 c rest _ hc ih => exact raw c rest hc ih

end

/-! ## The scans compared -/

section
variable {bs : List UInt8}

theorem escapesWellFormed_iff_byteScan (cs : List Char) {i : Nat} (h : bs.drop i = utf8 cs) :
    escapesWellFormed cs = true ↔ (byteScan bs i).ending = .finished := by
  induction cs using scan_induction generalizing i with
  | nil =>
    rw [byteScan_nil h]
    exact iff_of_true rfl rfl
  | raw c cs hc ih =>
    obtain ⟨hscan, hrest⟩ := byteScan_raw hc h
    rw [escapesWellFormed_raw hc, hscan]
    exact ih hrest
  | malformed cs hcode =>
    rw [escapesWellFormed_backslash, hcode, byteScan_of_none h hcode]
    simp [Scan.stop]
  | escape cs code tail hcode ih =>
    obtain ⟨hscan, hrest⟩ := byteScan_of_some h hcode
    rw [escapesWellFormed_backslash, hcode, hscan]
    exact ih hrest

theorem sliceScan_eq_cut (cs : List Char) {i : Nat} (h : bs.drop i = utf8 cs) :
    (sliceScan i cs).1 = (byteScan bs i).cut := by
  induction cs using scan_induction generalizing i with
  | nil => rw [sliceScan_nil, byteScan_nil h, Scan.cut_stop]
  | raw c cs hc ih =>
    obtain ⟨hscan, hrest⟩ := byteScan_raw hc h
    rw [sliceScan_raw hc, hscan]
    exact ih hrest
  | malformed cs hcode =>
    rw [sliceScan_backslash, sliceCode_eq, hcode, byteScan_of_none h hcode, Scan.cut_stop]
    rfl
  | escape cs code tail hcode ih =>
    obtain ⟨hscan, hrest⟩ := byteScan_of_some h hcode
    rw [sliceScan_backslash, sliceCode_eq, hcode, hscan]
    by_cases hescape : isEscapable code = true
    · rw [sliceStep_escape _ _ _ hescape, Scan.cut_pass hescape, ih hrest]
    · rw [sliceStep_forbidden _ _ _ hescape, Scan.cut_pass_forbidden hescape]

theorem exists_escape (cs : List Char) {i : Nat} (h : bs.drop i = utf8 cs) {e : Escape}
    (he : e ∈ (byteScan bs i).escapes) :
    ∃ before after, cs = before ++ '\\' :: (padded 10 3 e.code ++ after) ∧ i + (utf8 before).length = e.offset := by
  induction cs using scan_induction generalizing i with
  | nil =>
    rw [byteScan_nil h] at he
    cases he
  | raw c cs hc ih =>
    obtain ⟨hscan, hrest⟩ := byteScan_raw hc h
    rw [hscan] at he
    obtain ⟨before, after, rfl, hoffset⟩ := ih hrest he
    exact ⟨c :: before, after, rfl, by rw [length_utf8_cons]; omega⟩
  | malformed cs hcode =>
    rw [byteScan_of_none h hcode] at he
    cases he
  | escape cs code tail hcode ih =>
    obtain ⟨hscan, hrest⟩ := byteScan_of_some h hcode
    obtain ⟨rfl, hfour⟩ := padded_of_leadingCode hcode
    rw [hscan] at he
    rcases List.mem_cons.mp he with rfl | he
    · exact ⟨[], tail, rfl, rfl⟩
    · obtain ⟨before, after, rfl, hoffset⟩ := ih hrest he
      refine ⟨'\\' :: padded 10 3 code ++ before, after, by simp, ?_⟩
      rw [utf8_append, List.length_append, hfour]
      omega

end

/-- The text that a scan has decoded, if it has come to the end. -/
def decoded? (r : Scan × List Char) : Option (List Char) := if r.1.ending = .finished then some r.2 else none

theorem decodeChars_eq_sliceScan (cs : List Char) (k : Nat) : decodeChars cs = decoded? (sliceScan k cs) := by
  induction cs using scan_induction generalizing k with
  | nil =>
    rw [sliceScan_nil]
    rfl
  | raw c cs hc ih =>
    rw [decodeChars_raw hc, ih (k + c.utf8Size), sliceScan_raw hc]
    unfold decoded?
    split <;> rfl
  | malformed cs hcode =>
    rw [decodeChars_backslash, sliceScan_backslash, sliceCode_eq, hcode]
    rfl
  | escape cs code tail hcode ih =>
    rw [decodeChars_backslash, sliceScan_backslash, sliceCode_eq, hcode]
    by_cases hescape : isEscapable code = true
    · simp only [sliceStep_escape _ _ _ hescape, hescape, ite_true, ih (k + 4), decoded?, Scan.pass]
      split <;> rfl
    · rw [sliceStep_forbidden _ _ _ hescape]
      exact if_neg hescape

def checkScan (t : String) : Scan := byteScan t.toUTF8.data.toList 0

def decodeScan (t : String) : Scan × List Char := sliceScan 0 t.toList

theorem isSome_decode_iff (t : String) : (decode? t).isSome = true ↔ (decodeScan t).1.ending = .finished := by
  rw [decode?, decodeChars_eq_sliceScan t.toList 0, Option.isSome_map, decoded?]
  split <;> simpa [decodeScan]

/-- The two scans meet the same escapes at the same offsets, up to the first forbidden one, and only a forbidden
code keeps a checked text from being decoded. -/
theorem escape_scans_agree (t : String) :
    (escapesWellFormed t.toList = true ↔ (checkScan t).ending = .finished) ∧
      decode? t = (decoded? (decodeScan t)).map String.ofList ∧
      ((decode? t).isSome = true ↔ escapesWellFormed t.toList = true ∧
        ∀ e ∈ (checkScan t).escapes, e.code ≤ 32 ∨ e.code = 35 ∨ e.code = 92) ∧
      (decodeScan t).1 = (checkScan t).cut ∧
      (∀ e ∈ (checkScan t).escapes, ∃ before after,
        t.toList = before ++ '\\' :: (padded 10 3 e.code ++ after) ∧ (utf8 before).length = e.offset) ∧
      (escapesWellFormed t.toList = true → decode? t = none → ∃ e ∈ (checkScan t).escapes,
        (decodeScan t).1.ending = .forbidden e ∧ ¬ (e.code ≤ 32 ∨ e.code = 35 ∨ e.code = 92)) := by
  have hbytes : t.toUTF8.data.toList.drop 0 = utf8 t.toList := utf8_toList t
  have hcheck : escapesWellFormed t.toList = true ↔ (checkScan t).ending = .finished :=
    escapesWellFormed_iff_byteScan t.toList hbytes
  have hcut : (decodeScan t).1 = (checkScan t).cut := sliceScan_eq_cut t.toList hbytes
  have hcases := (checkScan t).cut_cases
  rw [← hcut] at hcases
  refine ⟨hcheck, ?_, ?_, hcut, ?_, ?_⟩
  · rw [decode?, decodeChars_eq_sliceScan t.toList 0]
    rfl
  · simp only [isSome_decode_iff, hcheck, ← isEscapable_iff]
    rcases hcases with ⟨hsame, hall⟩ | ⟨e, he, hforbidden, hending⟩
    · rw [hsame]
      exact ⟨fun h => ⟨h, hall⟩, fun h => h.1⟩
    · rw [hending]
      simp only [reduceCtorEq, false_iff]
      exact fun h => hforbidden (h.2 e he)
  · intro e he
    obtain ⟨before, after, hcs, hoffset⟩ := exists_escape t.toList hbytes he
    exact ⟨before, after, hcs, by rwa [Nat.zero_add] at hoffset⟩
  · intro hwritten hnone
    rcases hcases with ⟨hsame, -⟩ | ⟨e, he, hforbidden, hending⟩
    · have hdecodes := (isSome_decode_iff t).mpr (by rw [hsame, hcheck.mp hwritten])
      rw [hnone] at hdecodes
      cases hdecodes
    · exact ⟨e, he, hending, by rwa [← isEscapable_iff]⟩

/-- The accented letter takes up two bytes, so the escape after it is at offset 2. Behind a backslash it starts
no escape. -/
theorem accent_scanned :
    (escapesWellFormed "é\\065\\032".toList = true ∧ decode? "é\\065\\032" = none ∧
        ⟨2, 65⟩ ∈ (checkScan "é\\065\\032").escapes ∧
        (decodeScan "é\\065\\032").1.ending = .forbidden ⟨2, 65⟩) ∧
      (checkScan "\\é1").ending ≠ .finished ∧ (decode? "\\é1").isSome = false := by
  obtain ⟨-, -, -, -, -, hfails⟩ := escape_scans_agree "é\\065\\032"
  obtain ⟨hcheck, -, hdecodes, -⟩ := escape_scans_agree "\\é1"
  have hwritten : escapesWellFormed "é\\065\\032".toList = true := by decide +kernel
  have hnone : decode? "é\\065\\032" = none := by decide +kernel
  have hscan : (decodeScan "é\\065\\032").1.ending = .forbidden ⟨2, 65⟩ := by decide +kernel
  have hunwritten : escapesWellFormed "\\é1".toList ≠ true := by decide +kernel
  obtain ⟨e, he, hending, -⟩ := hfails hwritten hnone
  obtain rfl := ScanEnd.forbidden.inj (hscan.symm.trans hending)
  refine ⟨⟨hwritten, hnone, he, hscan⟩, mt hcheck.mpr hunwritten, ?_⟩
  exact Bool.eq_false_of_not_eq_true fun h => hunwritten (hdecodes.mp h).1

end FrameMachine.Literal
