import FrameMachine.Frames.Store
import FrameMachine.Proofs.Comparison
import FrameMachine.Proofs.LiteralNotation

/-!
# The dump of the frames

The dump is a line for each frame, and a line is a list of words with spaces between them: the tag of the frame
and its entries. No word holds a space or the end of a line, since names are plain and literals escape both; so
the text determines the words (`rows_of_written`). From its word an entry is read back by cutting it at the first
`=` and reading the literal, which keeps everything but the bits of a NaN.
-/

namespace FrameMachine

open Numeral Text

/-! ## Words and lines -/

namespace Text

def Unbroken (cs : List Char) : Prop := ∀ c ∈ cs, c ≠ ' ' ∧ c ≠ '\r' ∧ c ≠ '\n'

instance (cs : List Char) : Decidable (Unbroken cs) :=
  List.decidableBAll (fun c => c ≠ ' ' ∧ c ≠ '\r' ∧ c ≠ '\n') cs

theorem unbroken_append {cs ds : List Char} (hcs : Unbroken cs) (hds : Unbroken ds) : Unbroken (cs ++ ds) := by
  intro c hc
  exact (List.mem_append.mp hc).elim (hcs c) (hds c)

theorem unbroken_cons {c : Char} {cs : List Char} (hc : c ≠ ' ' ∧ c ≠ '\r' ∧ c ≠ '\n') (hcs : Unbroken cs) :
    Unbroken (c :: cs) := by
  intro d hd
  rcases List.mem_cons.mp hd with rfl | hd
  · exact hc
  · exact hcs d hd

theorem Plain.unbroken {cs : List Char} (h : Plain cs) : Unbroken cs := by
  intro c hc
  have hblank := h.notBlank c hc
  refine ⟨?_, ?_, ?_⟩ <;>
    · rintro rfl
      cases hblank

def line (ws : List (List Char)) : List Char := [' '].intercalate ws

theorem line_cons (w : List Char) (ws : List (List Char)) : line (w :: ws) = w ++ ws.flatMap (' ' :: ·) := by
  induction ws generalizing w with
  | nil => simp [line]
  | cons v ws ih =>
    have hv := ih v
    unfold line at hv ⊢
    rw [List.intercalate_cons_cons, hv]
    simp

theorem mem_line {ws : List (List Char)} {c : Char} (h : c ∈ line ws) : c = ' ' ∨ ∃ w ∈ ws, c ∈ w := by
  cases ws with
  | nil => cases h
  | cons w ws =>
    rw [line_cons, List.mem_append, List.mem_flatMap] at h
    rcases h with h | ⟨v, hv, h⟩
    · exact Or.inr ⟨w, List.mem_cons_self, h⟩
    · rcases List.mem_cons.mp h with rfl | h
      · exact Or.inl rfl
      · exact Or.inr ⟨v, List.mem_cons_of_mem w hv, h⟩

def written (rows : List (List (List Char))) : List Char := (rows.map line).flatMap (· ++ ['\n'])

theorem written_append (rows rows' : List (List (List Char))) :
    written (rows ++ rows') = written rows ++ written rows' := by
  simp [written]

theorem written_cons (r : List (List Char)) (rows : List (List (List Char))) :
    written (r :: rows) = line r ++ ['\n'] ++ written rows := by
  simp [written]

theorem rows_of_written {rows : List (List (List Char))} (hne : [] ∉ rows)
    (h : ∀ r ∈ rows, ∀ w ∈ r, Unbroken w) : (textLines (written rows)).map (List.splitOn ' ') = rows := by
  have hlines : textLines (written rows) = rows.map line := by
    refine textLines_unlines fun l hl c hc => ?_
    obtain ⟨r, hr, rfl⟩ := List.mem_map.mp hl
    rcases mem_line hc with rfl | ⟨w, hw, hc⟩
    · decide
    · exact (h r hr w hw c hc).2
  have hwords : ∀ r ∈ rows, List.splitOn ' ' (line r) = r := by
    intro r hr
    refine List.splitOn_intercalate ' ' (fun w hw hspace => (h r hr w hw ' ' hspace).1 rfl) ?_
    rintro rfl
    exact hne hr
  calc (textLines (written rows)).map (List.splitOn ' ') = rows.map fun r => List.splitOn ' ' (line r) := by
        rw [hlines, List.map_map]
        rfl
    _ = rows.map id := List.map_congr_left hwords
    _ = rows := List.map_id rows

end Text

/-! ## Words of values and entries -/

namespace Literal

theorem unbroken_encodeChars (cs : List Char) : Unbroken (encodeChars cs) := by
  induction cs with
  | nil => simp [Unbroken, encodeChars]
  | cons c cs ih =>
    unfold encodeChars
    by_cases hescape : isEscapable c.toNat = true
    · obtain ⟨ds, hds, -⟩ := digits_padded isBase_ten 3 c.toNat
      have hdigits : Plain (padded 10 3 c.toNat) := plain_of_digits (by rw [hds]; rfl)
      rw [if_pos hescape]
      exact unbroken_append (unbroken_cons (by decide) hdigits.unbroken) ih
    · rw [if_neg hescape]
      refine unbroken_cons ⟨?_, ?_, ?_⟩ ih <;>
        · rintro rfl
          exact hescape (by decide)

end Literal

namespace Value

theorem unbroken_payload (v : Value) : Unbroken v.payload.toList := by
  by_cases ht : v.type = .string
  · cases v with
    | string s =>
      simp only [payload, Literal.encode, String.toList_ofList]
      exact Literal.unbroken_encodeChars s.toList
    | _ => cases ht
  · obtain ⟨w, hw, -⟩ := ofPayload_payload v
    exact (plain_of_ofPayload ht (by rw [hw]; rfl)).unbroken

theorem same_iff {v w : Value} : v.Same w ↔ v = w ∨ v.isNaN = true ∧ w.isNaN = true := by
  cases v with
  | float x => cases w <;> simp [Same, isNaN]
  | _ => simp [Same, isNaN]

instance (v w : Value) : Decidable (v.Same w) := decidable_of_iff _ same_iff.symm

theorem Same.of_common {u v w : Value} (hv : v.Same u) (hw : w.Same u) : v.Same w := by
  rw [same_iff] at *
  rcases hv with rfl | hv
  · exact hw.imp Eq.symm And.symm
  · rcases hw with rfl | hw
    · exact Or.inr hv
    · exact Or.inr ⟨hv.1, hw.1⟩

theorem payload_of_isNaN {v : Value} (h : v.isNaN = true) : v.type = .float ∧ v.payload = "nan" := by
  cases v with
  | float x =>
    have hx : x.isNaN = true := h
    exact ⟨rfl, by simp [payload, render, Literal.realText, Binary64.text, hx]⟩
  | _ => cases h

theorem literal_eq_iff {v w : Value} : v.literal = w.literal ↔ v.Same w := by
  constructor
  · intro h
    have hsplit := congrArg splitAtSign h
    rw [literal, literal, splitAtSign_append (sign_not_mem_type _),
      splitAtSign_append (sign_not_mem_type _)] at hsplit
    obtain ⟨hname, hpayload⟩ := Prod.mk.inj (Option.some.inj hsplit)
    have htype : v.type = w.type := by
      have hofName := congrArg DataType.ofName? hname
      rw [type_ofName, type_ofName] at hofName
      exact Option.some.inj hofName
    obtain ⟨u, hu, hsame⟩ := ofPayload_payload v
    obtain ⟨u', hu', hsame'⟩ := ofPayload_payload w
    rw [← htype, ← hpayload, hu] at hu'
    obtain rfl := Option.some.inj hu'
    exact hsame.of_common hsame'
  · intro h
    rcases same_iff.mp h with rfl | ⟨hv, hw⟩
    · rfl
    · obtain ⟨htype, hpayload⟩ := payload_of_isNaN hv
      obtain ⟨htype', hpayload'⟩ := payload_of_isNaN hw
      rw [literal, literal, htype, hpayload, htype', hpayload']

end Value

/-! ## Frames -/

theorem eq_iff_optionRel {α β : Type} {r : α → α → Prop} {f : Option α → β} {x y : Option α}
    (hnone : ∀ a, f (some a) ≠ f none)
    (hsome : ∀ a, x = some a → ∀ b, y = some b → (f (some a) = f (some b) ↔ r a b)) :
    f x = f y ↔ Option.Rel r x y := by
  cases x with
  | none =>
    cases y with
    | none => exact iff_of_true rfl .none
    | some b => exact iff_of_false (hnone b).symm (by rintro ⟨⟩)
  | some a =>
    cases y with
    | none => exact iff_of_false (hnone a) (by rintro ⟨⟩)
    | some b =>
      rw [hsome a rfl b rfl]
      constructor
      · exact .some
      · rintro (h | _)
        exact h

def valueText : Option Value → String
  | some v => v.literal
  | none => "<undefined>"

theorem valueText_eq_iff {v w : Option Value} : valueText v = valueText w ↔ Option.Rel Value.Same v w := by
  refine eq_iff_optionRel (fun v h => ?_) fun _ _ _ _ => Value.literal_eq_iff
  -- The literal of a value has a sign `@`, the mark of an undefined variable has none.
  have hsplit := congrArg splitAtSign h
  rw [valueText, Value.literal, splitAtSign_append (sign_not_mem_type _)] at hsplit
  cases hsplit

namespace Frame

/-- The frames declare the same names in the same order, and each name has the same value in both, or none. -/
def Same (f g : Frame) : Prop :=
  List.Forall₂ (fun e e' => e.1 = e'.1 ∧ Option.Rel Value.Same e.2 e'.2) f.entries g.entries

/-- All names are names of variables in source code. -/
def Named (f : Frame) : Prop := ∀ e ∈ f.entries, Source.isName e.1 = true

def word (e : String × Option Value) : List Char := e.1.toList ++ '=' :: (valueText e.2).toList

def words (f : Frame) : List (List Char) := f.entries.map word

theorem toList_text (f : Frame) : f.text.toList = f.words.flatMap (' ' :: ·) := by
  rw [text, toList_concat, List.flatMap_map, words, List.flatMap_map]
  refine List.flatMap_congr fun e _ => ?_
  obtain ⟨name, v⟩ := e
  cases v <;> simp [word, valueText]

theorem equals_not_mem_name {name : String} (h : Source.isName name = true) : '=' ∉ name.toList := by
  intro hmem
  unfold Source.isName at h
  split at h
  · cases h
  · rename_i c cs hs
    simp only [Bool.and_eq_true, List.all_eq_true] at h
    rw [hs] at hmem
    rcases List.mem_cons.mp hmem with rfl | hmem
    · exact absurd h.1 (by decide)
    · exact absurd (h.2 _ hmem) (by decide)

theorem takeWhile_word {e : String × Option Value} (he : Source.isName e.1 = true) :
    (word e).takeWhile (· ≠ '=') = e.1.toList := by
  have hpos : ∀ c ∈ e.1.toList, decide (c ≠ '=') = true := by
    intro c hc
    rw [decide_eq_true_eq]
    rintro rfl
    exact equals_not_mem_name he hc
  rw [word, List.takeWhile_append_of_pos hpos]
  simp

theorem word_eq_iff {e e' : String × Option Value} (he : Source.isName e.1 = true)
    (he' : Source.isName e'.1 = true) :
    word e = word e' ↔ e.1 = e'.1 ∧ Option.Rel Value.Same e.2 e'.2 := by
  constructor
  · intro h
    have hnames : e.1 = e'.1 := String.toList_injective (by rw [← takeWhile_word he, ← takeWhile_word he', h])
    rw [word, word, hnames] at h
    obtain ⟨-, hvalues⟩ := List.cons.inj (List.append_cancel_left h)
    exact ⟨hnames, valueText_eq_iff.mp (String.toList_injective hvalues)⟩
  · rintro ⟨hnames, hvalues⟩
    rw [word, word, hnames, valueText_eq_iff.mpr hvalues]

theorem words_eq_iff {f g : Frame} (hf : f.Named) (hg : g.Named) : f.words = g.words ↔ f.Same g := by
  unfold Named at hf hg
  unfold words Same
  generalize f.entries = l, g.entries = l' at hf hg ⊢
  induction l generalizing l' with
  | nil => cases l' <;> simp
  | cons e l ih =>
    cases l' with
    | nil => simp
    | cons e' l' =>
      rw [List.forall_mem_cons] at hf hg
      rw [List.map_cons, List.map_cons, List.cons.injEq, List.forall₂_cons, word_eq_iff hf.1 hg.1, ih l' hf.2 hg.2]

theorem unbroken_words {f : Frame} (h : f.Named) : ∀ w ∈ f.words, Unbroken w := by
  intro w hw
  obtain ⟨e, he, rfl⟩ := List.mem_map.mp hw
  have hname : Unbroken e.1.toList := (isWord_of_isName (h e he)).2.unbroken
  have hvalue : Unbroken (valueText e.2).toList := by
    cases e.2 with
    | none => decide
    | some v =>
      simp only [valueText, Value.literal, String.toList_append]
      exact unbroken_append (unbroken_append (plain_type v.type).unbroken (by decide)) v.unbroken_payload
  exact unbroken_append hname (unbroken_cons (by decide) hvalue)

end Frame

/-! ## The dump -/

namespace Frames

structure Named (s : Frames) : Prop where
  global : s.global.Named
  locals : ∀ f ∈ s.locals, f.Named
  temporary : ∀ f, s.temporary = some f → f.Named

/-- The stores have the same frames: at each depth of the stack, and a temporary frame both or neither. -/
structure Same (s t : Frames) : Prop where
  global : s.global.Same t.global
  locals : List.Forall₂ Frame.Same s.locals t.locals
  temporary : Option.Rel Frame.Same s.temporary t.temporary

def row (tag : String) (f : Frame) : List (List Char) := (tag ++ ":").toList :: f.words

def noRow (tag : String) : List (List Char) := [(tag ++ ":").toList, "<none>".toList]

def localRows : List Frame → List (List (List Char))
  | [] => []
  | f :: fs => row s!"LF[{fs.length}]" f :: localRows fs

def stackRows (fs : List Frame) : List (List (List Char)) :=
  if fs.isEmpty then [noRow "LF"] else localRows fs

def temporaryRow : Option Frame → List (List Char)
  | some f => row "TF" f
  | none => noRow "TF"

def rows (s : Frames) : List (List (List Char)) :=
  row "GF" s.global :: (stackRows s.locals ++ [temporaryRow s.temporary])

theorem toList_frameLine (tag : String) (f : Frame) : (frameLine tag f).toList = line (row tag f) ++ ['\n'] := by
  simp [frameLine, row, line_cons, Frame.toList_text]

theorem toList_localLines (fs : List Frame) : (localLines fs).flatMap String.toList = written (localRows fs) := by
  induction fs with
  | nil => rfl
  | cons f fs ih => rw [localLines, List.flatMap_cons, toList_frameLine, ih, localRows, written_cons]

theorem toList_text (s : Frames) : s.text.toList = written s.rows := by
  have hlocals : (if s.locals.isEmpty then ["LF: <none>\n"] else localLines s.locals).flatMap String.toList =
      written (stackRows s.locals) := by
    unfold stackRows
    split
    · decide
    · exact toList_localLines s.locals
  rw [text, toList_concat, List.flatMap_cons, List.flatMap_append, toList_frameLine, hlocals, rows, written_cons,
    written_append, List.flatMap_singleton]
  congr 2
  cases s.temporary with
  | none => decide
  | some f => simp [toList_frameLine, temporaryRow, written]

/-! ## Reading the dump -/

theorem mem_localRows {fs : List Frame} {r : List (List Char)} (h : r ∈ localRows fs) :
    ∃ f ∈ fs, ∃ n : Nat, r = row s!"LF[{n}]" f := by
  induction fs with
  | nil => cases h
  | cons f fs ih =>
    rcases List.mem_cons.mp h with rfl | h
    · exact ⟨f, List.mem_cons_self, fs.length, rfl⟩
    · obtain ⟨g, hg, hrow⟩ := ih h
      exact ⟨g, List.mem_cons_of_mem f hg, hrow⟩

theorem unbroken_depth (n : Nat) : Unbroken (s!"LF[{n}]" ++ ":").toList := by
  have hn : Unbroken n.repr.toList := by
    obtain ⟨ds, hds, -⟩ := digits_toDigits isBase_ten n
    rw [Nat.toList_repr]
    exact (plain_of_digits (by rw [hds]; rfl)).unbroken
  simp only [String.toList_append, toString]
  exact unbroken_append (unbroken_append (unbroken_append (by decide) hn) (by decide)) (by decide)

theorem mem_rows {s : Frames} {r : List (List Char)} (h : s.Named) (hr : r ∈ s.rows) :
    ∃ tag : String, Unbroken (tag ++ ":").toList ∧ (r = noRow tag ∨ ∃ f : Frame, f.Named ∧ r = row tag f) := by
  rcases List.mem_cons.mp hr with rfl | hr
  · exact ⟨"GF", by decide, Or.inr ⟨s.global, h.global, rfl⟩⟩
  rcases List.mem_append.mp hr with hr | hr
  · unfold stackRows at hr
    split at hr
    · exact ⟨"LF", by decide, Or.inl (List.mem_singleton.mp hr)⟩
    · obtain ⟨f, hf, n, rfl⟩ := mem_localRows hr
      exact ⟨s!"LF[{n}]", unbroken_depth n, Or.inr ⟨f, h.locals f hf, rfl⟩⟩
  · rw [List.mem_singleton] at hr
    refine ⟨"TF", by decide, ?_⟩
    cases ht : s.temporary with
    | none => exact Or.inl (by rw [hr, ht, temporaryRow])
    | some f => exact Or.inr ⟨f, h.temporary f ht, by rw [hr, ht, temporaryRow]⟩

theorem nil_not_mem_rows {s : Frames} (h : s.Named) : [] ∉ s.rows := by
  intro hr
  obtain ⟨tag, -, hrow | ⟨f, -, hrow⟩⟩ := mem_rows h hr
  · cases hrow
  · cases hrow

theorem unbroken_rows {s : Frames} (h : s.Named) : ∀ r ∈ s.rows, ∀ w ∈ r, Unbroken w := by
  intro r hr w hw
  obtain ⟨tag, htag, rfl | ⟨f, hf, rfl⟩⟩ := mem_rows h hr
  · rw [noRow, List.mem_cons, List.mem_singleton] at hw
    rcases hw with rfl | rfl
    · exact htag
    · decide
  · rcases List.mem_cons.mp hw with rfl | hw
    · exact htag
    · exact Frame.unbroken_words hf w hw

theorem text_eq_iff_rows {s t : Frames} (hs : s.Named) (ht : t.Named) : s.text = t.text ↔ s.rows = t.rows := by
  rw [← String.toList_inj, toList_text, toList_text]
  constructor
  · intro h
    rw [← rows_of_written (nil_not_mem_rows hs) (unbroken_rows hs), h,
      rows_of_written (nil_not_mem_rows ht) (unbroken_rows ht)]
  · exact congrArg written

theorem row_eq_iff {tag : String} {f g : Frame} (hf : f.Named) (hg : g.Named) :
    row tag f = row tag g ↔ f.Same g := by
  rw [row, row, List.cons.injEq, Frame.words_eq_iff hf hg, and_iff_right rfl]

theorem row_ne_noRow (tag : String) (f : Frame) : row tag f ≠ noRow tag := by
  -- The words of entries have a sign `=`, the mark of an absent frame has none.
  intro h
  have hwords : f.words = ["<none>".toList] := (List.cons.inj h).2
  have hmem : "<none>".toList ∈ f.words := by rw [hwords]; exact List.mem_singleton_self _
  obtain ⟨e, -, he⟩ := List.mem_map.mp hmem
  have hsign : '=' ∈ "<none>".toList := by rw [← he, Frame.word]; simp
  exact absurd hsign (by decide)

theorem localRows_eq_iff {fs gs : List Frame} (hf : ∀ f ∈ fs, f.Named) (hg : ∀ g ∈ gs, g.Named) :
    localRows fs = localRows gs ↔ List.Forall₂ Frame.Same fs gs := by
  induction fs generalizing gs with
  | nil => cases gs <;> simp [localRows]
  | cons f fs ih =>
    cases gs with
    | nil => simp [localRows]
    | cons g gs =>
      rw [List.forall_mem_cons] at hf hg
      rw [localRows, localRows, List.cons.injEq, List.forall₂_cons, ih hf.2 hg.2]
      refine and_congr_left fun hrest => ?_
      -- The tags agree because the stacks below are equally deep.
      rw [hrest.length_eq, row_eq_iff hf.1 hg.1]

theorem noRow_not_mem_localRows (fs : List Frame) : noRow "LF" ∉ localRows fs := by
  intro h
  obtain ⟨f, -, n, hrow⟩ := mem_localRows h
  have htag := (List.cons.inj hrow).1
  simp [toString] at htag

theorem stackRows_eq_iff {fs gs : List Frame} (hf : ∀ f ∈ fs, f.Named) (hg : ∀ g ∈ gs, g.Named) :
    stackRows fs = stackRows gs ↔ List.Forall₂ Frame.Same fs gs := by
  have hnone : ∀ gs : List Frame, [noRow "LF"] ≠ localRows gs := fun gs h =>
    noRow_not_mem_localRows gs (h ▸ List.mem_singleton_self _)
  cases fs with
  | nil =>
    cases gs with
    | nil => exact iff_of_true rfl .nil
    | cons g gs => exact iff_of_false (hnone (g :: gs)) (by simp)
  | cons f fs =>
    cases gs with
    | nil => exact iff_of_false (hnone (f :: fs)).symm (by simp)
    | cons g gs => exact localRows_eq_iff hf hg

theorem temporaryRow_eq_iff {f g : Option Frame} (hf : ∀ t, f = some t → t.Named) (hg : ∀ t, g = some t → t.Named) :
    temporaryRow f = temporaryRow g ↔ Option.Rel Frame.Same f g :=
  eq_iff_optionRel (row_ne_noRow "TF") fun t ht u hu => row_eq_iff (hf t ht) (hg u hu)

theorem rows_eq_iff {s t : Frames} (hs : s.Named) (ht : t.Named) : s.rows = t.rows ↔ s.Same t := by
  rw [rows, rows, List.cons.injEq, row_eq_iff hs.global ht.global]
  constructor
  · rintro ⟨hglobal, hrest⟩
    obtain ⟨hlocals, htemporary⟩ := List.append_inj' hrest rfl
    exact ⟨hglobal, (stackRows_eq_iff hs.locals ht.locals).mp hlocals,
      (temporaryRow_eq_iff hs.temporary ht.temporary).mp (List.cons.inj htemporary).1⟩
  · rintro ⟨hglobal, hlocals, htemporary⟩
    rw [(stackRows_eq_iff hs.locals ht.locals).mpr hlocals,
      (temporaryRow_eq_iff hs.temporary ht.temporary).mpr htemporary]
    exact ⟨hglobal, rfl⟩

/-- The dump tells all that is in the frames, and only that, up to the bits of a NaN. -/
theorem text_eq_iff_same (s t : Frames) (hs : s.Named) (ht : t.Named) : s.text = t.text ↔ s.Same t := by
  rw [text_eq_iff_rows hs ht, rows_eq_iff hs ht]

def holding (v : Value) : Frames := ⟨Frame.empty, [Frame.empty.insert "x" (some v)], some Frame.empty⟩

theorem named_holding (v : Value) : (holding v).Named where
  global := List.forall_mem_nil _
  locals := List.forall_mem_singleton.mpr (List.forall_mem_singleton.mpr (show Source.isName "x" = true by decide))
  temporary := fun _ h => Option.some.inj h ▸ List.forall_mem_nil _

/-- Two NaNs look alike; an escape and the text of that escape do not. -/
theorem escapes_distinct_in_dump :
    (holding (.float Binary64.nan)).text = (holding (.float ⟨0xfff0000000000001⟩)).text ∧
      (holding (.string "a b")).text ≠ (holding (.string "a\\032b")).text := by
  constructor
  · refine (text_eq_iff_same _ _ (named_holding _) (named_holding _)).mpr ?_
    exact ⟨.nil, .cons (.cons ⟨rfl, .some (by decide)⟩ .nil) .nil, .some .nil⟩
  · intro h
    obtain ⟨-, hlocals, -⟩ := (text_eq_iff_same _ _ (named_holding _) (named_holding _)).mp h
    obtain ⟨hentries, -⟩ := List.forall₂_cons.mp hlocals
    obtain ⟨⟨-, hvalue⟩, -⟩ := List.forall₂_cons.mp hentries
    cases hvalue with
    | some hsame => exact absurd hsame (by decide)

end Frames

end FrameMachine
