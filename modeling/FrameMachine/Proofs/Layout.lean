import FrameMachine.Proofs.SourceReading
import FrameMachine.Proofs.TextLines
import Mathlib.Logic.Relation

/-!
# The layout of source code

Lines without words, comments, the blanks around words, the ends of lines and the case of the first word of a line
can be changed (`Source.Edit`). What is left of a text without them is its outline: the words of each line that
has some, the first one in lower case. Every edit keeps the outline (`outline_of_edit`), and the outline decides
what is loaded, up to the line number in an error and the case of the opcode that it quotes (`read_outline`).
-/

namespace FrameMachine

/-! ## Case -/

namespace Text

theorem Plain.of_sameLetters {w w' : List Char} (hw : Plain w) (h : sameLetters w w' = true) : Plain w' := by
  have hlower : Plain (w.map Char.toLower) := by
    intro d hd
    obtain ⟨c, hc, rfl⟩ := List.mem_map.mp hd
    exact (isPlain_toLower_iff c).mpr (hw c hc)
  have hsymm : sameLetters w' w = true := by
    simp only [sameLetters, beq_iff_eq] at h ⊢
    exact h.symm
  exact plain_of_sameLetters hsymm hlower

def lower (word : String) : String := String.ofList (word.toList.map Char.toLower)

theorem map_toLower_lower (word : String) :
    (lower word).toList.map Char.toLower = word.toList.map Char.toLower := by
  rw [lower, String.toList_ofList, List.map_map]
  refine List.map_congr_left fun c _ => ?_
  -- A letter in lower case is none in upper case.
  rcases toLower_cases c.toLower with hsame | ⟨hupper, -⟩
  · exact hsame
  · rcases toLower_cases c with hsame | ⟨-, hlower⟩
    · exact congrArg Char.toLower hsame
    · omega

theorem sameLetters_of_lower {word word' : String} (h : lower word = lower word') :
    sameLetters word.toList word'.toList = true := by
  rw [sameLetters, ← map_toLower_lower word, h, map_toLower_lower]
  exact beq_self_eq_true _

end Text

theorem ofName_lower (word : String) : Opcode.ofName? (Text.lower word) = Opcode.ofName? word := by
  simp only [Opcode.ofName?, Text.sameLetters, Text.map_toLower_lower]

/-! ## Edits -/

namespace Source

/-- Changes of one line that keep its words, but for the case of the first one. -/
inductive LineEdit : List Char → List Char → Prop
  /-- Puts a comment at the end of the line. -/
  | comment (l c : List Char) : LineEdit l (l ++ '#' :: c)
  | gap {run run' : List Char} (l r : List Char) : run ≠ [] → run' ≠ [] → (∀ c ∈ run, Text.isBlank c = true) →
      (∀ c ∈ run', Text.isBlank c = true) → LineEdit (l ++ run ++ r) (l ++ run' ++ r)
  | indent {run run' : List Char} (r : List Char) : (∀ c ∈ run, Text.isBlank c = true) →
      (∀ c ∈ run', Text.isBlank c = true) → LineEdit (run ++ r) (run' ++ r)
  | trail {run run' : List Char} (l : List Char) : (∀ c ∈ run, Text.isBlank c = true) →
      (∀ c ∈ run', Text.isBlank c = true) → LineEdit (l ++ run) (l ++ run')
  /-- Changes the case of letters at the beginning of the first word. -/
  | letters {lead w w' : List Char} (r : List Char) : (∀ c ∈ lead, Text.isBlank c = true) → Text.Plain w →
      Text.sameLetters w w' = true → LineEdit (lead ++ w ++ r) (lead ++ w' ++ r)

/-- Changes of the layout of a text. -/
inductive Edit : List Char → List Char → Prop
  | line {m m' : List Char} (before after : List Char) : Text.Closed '\n' before →
      (after = [] ∨ after.head? = some '\n') → '\n' ∉ m → '\n' ∉ m' → LineEdit m m' →
      Edit (before ++ m ++ after) (before ++ m' ++ after)
  /-- Puts a line without words before a line or after the last one. -/
  | insert {l : List Char} (before after : List Char) : Text.Closed '\n' before → '\n' ∉ l → Vacant l →
      Edit (before ++ after) (before ++ l ++ '\n' :: after)
  /-- Ends the last line and puts a line without words after it. -/
  | append {l : List Char} (before : List Char) : '\n' ∉ l → Vacant l → Edit before (before ++ '\n' :: l)
  | carriageReturn (before after : List Char) : Edit (before ++ '\n' :: after) (before ++ '\r' :: '\n' :: after)

/-! ## Words of a line -/

/-- The words of a line before its comment. -/
def lineWords (l : List Char) : List (List Char) := Text.words (l.takeWhile (· ≠ '#'))

theorem lineWords_of_not {l : List Char} (h : '#' ∉ l) (r : List Char) :
    lineWords (l ++ r) = Text.words (l ++ r.takeWhile (· ≠ '#')) := by
  rw [lineWords, List.takeWhile_append_of_pos]
  intro c hc
  simpa using fun heq : c = '#' => h (heq ▸ hc)

theorem lineWords_hash {l : List Char} (h : '#' ∉ l) (r : List Char) :
    lineWords (l ++ '#' :: r) = Text.words l := by
  rw [lineWords_of_not h]
  simp

theorem lineWords_of_mem {l : List Char} (h : '#' ∈ l) (r : List Char) : lineWords (l ++ r) = lineWords l := by
  obtain ⟨s, t, rfl, hs⟩ := List.eq_append_cons_of_mem h
  rw [List.append_assoc, List.cons_append, lineWords_hash hs, lineWords_hash hs]

theorem hash_not_mem {run : List Char} (hrun : ∀ c ∈ run, Text.isBlank c = true) : '#' ∉ run :=
  fun h => absurd (hrun _ h) (by decide)

theorem lineWords_comment (l c : List Char) : lineWords (l ++ '#' :: c) = lineWords l := by
  by_cases hl : '#' ∈ l
  · exact lineWords_of_mem hl _
  · have hself := lineWords_of_not hl []
    rw [List.append_nil] at hself
    rw [lineWords_hash hl, hself]
    simp

section
variable {run : List Char} (hrun : ∀ c ∈ run, Text.isBlank c = true)
include hrun

theorem lineWords_indent (r : List Char) : lineWords (run ++ r) = lineWords r := by
  rw [lineWords_of_not (hash_not_mem hrun), Text.words_drop_blanks hrun]
  rfl

theorem lineWords_gap (hne : run ≠ []) {l : List Char} (hl : '#' ∉ l) (r : List Char) :
    lineWords (l ++ run ++ r) = Text.words l ++ lineWords r := by
  obtain ⟨c, run, rfl⟩ := List.exists_cons_of_ne_nil hne
  have hc : Text.isBlank c = true := hrun c (List.mem_cons_self ..)
  have htail : ∀ d ∈ run, Text.isBlank d = true := fun d hd => hrun d (List.mem_cons_of_mem _ hd)
  have hmem : '#' ∉ l ++ c :: run := by
    rw [List.mem_append]
    rintro (h | h)
    · exact hl h
    · exact hash_not_mem hrun h
  rw [lineWords_of_not hmem, List.append_assoc, List.cons_append, Text.words_split l hc,
    Text.words_drop_blanks htail]
  rfl

theorem lineWords_trail (l : List Char) : lineWords (l ++ run) = lineWords l := by
  by_cases hl : '#' ∈ l
  · exact lineWords_of_mem hl run
  · by_cases hne : run = []
    · rw [hne, List.append_nil]
    · have hgap := lineWords_gap hrun hne hl []
      have hself := lineWords_of_not hl []
      rw [List.append_nil] at hgap hself
      rw [hgap, hself]
      simp [lineWords, Text.words, Text.spanWord, Text.consWord]

end

/-! ## Outlines -/

end Source

namespace SourceLine

def outline (l : SourceLine) : SourceLine := l.respell (fun _ => 0) Text.lower

theorem isHeader_outline (l : SourceLine) : l.outline.isHeader = l.isHeader := by
  simp only [isHeader, outline, respell, Text.sameLetters, Text.map_toLower_lower]

end SourceLine

namespace Source

def lineOutline (l : List Char) : Option SourceLine := (SourceLine.ofChars? 0 l).map SourceLine.outline

/-- What is left of a text without its layout. -/
def outline (cs : List Char) : List SourceLine := (Text.cut '\n' cs).filterMap lineOutline

theorem lineOutline_ofChars (n : Nat) (l : List Char) :
    (SourceLine.ofChars? n l).map SourceLine.outline = lineOutline l := by
  unfold lineOutline SourceLine.ofChars?
  cases Text.words (l.takeWhile (· ≠ '#')) <;> rfl

theorem lineOutline_of_words {l w : List Char} {ws : List (List Char)} (h : lineWords l = w :: ws) :
    lineOutline l = some ⟨0, Text.lower (String.ofList w), ws.map String.ofList⟩ := by
  unfold lineWords at h
  rw [lineOutline, SourceLine.ofChars?, h]
  rfl

theorem lineOutline_congr {l l' : List Char} (h : lineWords l = lineWords l') : lineOutline l = lineOutline l' := by
  unfold lineWords at h
  unfold lineOutline SourceLine.ofChars?
  rw [h]

theorem lineOutline_of_vacant {l : List Char} (h : Vacant l) : lineOutline l = none := by
  rw [lineOutline, SourceLine.ofChars_eq_none_iff.mpr h]
  rfl

theorem lineOutline_trail (l : List Char) {run : List Char} (hrun : ∀ c ∈ run, Text.isBlank c = true) :
    lineOutline (l ++ run) = lineOutline l :=
  lineOutline_congr (lineWords_trail hrun l)

theorem lineOutline_newline (l : List Char) : lineOutline (l ++ ['\n']) = lineOutline l :=
  lineOutline_trail l (by simp [Text.isBlank])

theorem lineOutline_return (l : List Char) : lineOutline (l ++ ['\r']) = lineOutline l :=
  lineOutline_trail l (by simp [Text.isBlank])

theorem lineOutline_chomp (l : List Char) : lineOutline (Text.chomp '\r' '\n' l) = lineOutline l := by
  by_cases hend : l.getLast? = some '\n'
  · obtain ⟨m, rfl⟩ := List.getLast?_eq_some_iff.mp hend
    rw [Text.chomp_concat, lineOutline_newline]
    by_cases hreturn : m.getLast? = some '\r'
    · obtain ⟨k, rfl⟩ := List.getLast?_eq_some_iff.mp hreturn
      rw [if_pos hreturn, List.dropLast_concat, lineOutline_return]
    · rw [if_neg hreturn]
  · rw [Text.chomp_of_ne hend]

theorem map_outline_ofLines (n : Nat) (ls : List (List Char)) :
    (SourceLine.ofLines n ls).map SourceLine.outline = ls.filterMap lineOutline := by
  induction ls generalizing n with
  | nil => rfl
  | cons l ls ih =>
    rw [SourceLine.ofLines, List.map_append, ih, List.filterMap_cons, ← lineOutline_ofChars n l]
    cases SourceLine.ofChars? n l <;> rfl

theorem outline_eq (cs : List Char) :
    (SourceLine.ofLines 1 (Text.textLines cs)).map SourceLine.outline = outline cs := by
  rw [map_outline_ofLines, Text.textLines, Text.lines_eq_map_chomp, List.filterMap_map]
  exact congrArg (List.filterMap · _) (funext lineOutline_chomp)

/-! ## Edits keep the outline -/

theorem lineWords_plain {w : List Char} (hne : w ≠ []) (hw : Text.Plain w) (r : List Char) :
    lineWords (w ++ r) = (w ++ (Text.spanWord (r.takeWhile (· ≠ '#'))).1) ::
      (Text.spanWord (r.takeWhile (· ≠ '#'))).2 := by
  have hhash : '#' ∉ w := fun h => Text.ne_hash_of_isPlain (hw _ h) rfl
  rw [lineWords_of_not hhash, Text.words, Text.spanWord_append hw.notBlank]
  simp [Text.consWord, hne]

theorem lineOutline_letters {w w' : List Char} (hw : Text.Plain w) (h : Text.sameLetters w w' = true)
    (r : List Char) : lineOutline (w ++ r) = lineOutline (w' ++ r) := by
  have hw' := hw.of_sameLetters h
  have hmap : w.map Char.toLower = w'.map Char.toLower := by simpa only [Text.sameLetters, beq_iff_eq] using h
  by_cases hne : w = []
  · subst hne
    obtain rfl : w' = [] := List.map_eq_nil_iff.mp hmap.symm
    rfl
  · have hne' : w' ≠ [] := by
      rintro rfl
      exact hne (List.map_eq_nil_iff.mp hmap)
    rw [lineOutline_of_words (lineWords_plain hne hw r), lineOutline_of_words (lineWords_plain hne' hw' r)]
    simp [Text.lower, hmap]

theorem lineOutline_of_lineEdit {m m' : List Char} (h : LineEdit m m') : lineOutline m = lineOutline m' := by
  cases h with
  | comment _ c => exact (lineOutline_congr (lineWords_comment m c)).symm
  | gap l r hne hne' hrun hrun' =>
    apply lineOutline_congr
    by_cases hl : '#' ∈ l
    · rw [List.append_assoc, List.append_assoc, lineWords_of_mem hl, lineWords_of_mem hl]
    · rw [lineWords_gap hrun hne hl, lineWords_gap hrun' hne' hl]
  | indent r hrun hrun' => exact lineOutline_congr (by rw [lineWords_indent hrun, lineWords_indent hrun'])
  | trail l hrun hrun' => rw [lineOutline_trail l hrun, lineOutline_trail l hrun']
  | letters r hlead hw hsame =>
    rw [List.append_assoc, List.append_assoc, lineOutline_congr (lineWords_indent hlead _),
      lineOutline_congr (lineWords_indent hlead _)]
    exact lineOutline_letters hw hsame r

theorem outline_append {before : List Char} (h : Text.Closed '\n' before) (after : List Char) :
    outline (before ++ after) = outline before ++ outline after := by
  rw [outline, Text.cut_append h, List.filterMap_append]
  rfl

theorem outline_newline (after : List Char) : outline ('\n' :: after) = outline after := by
  have hline : lineOutline ['\n'] = none := lineOutline_newline []
  rw [outline, Text.cut, if_pos rfl, List.filterMap_cons, hline]
  rfl

theorem outline_ended {m : List Char} (hm : '\n' ∉ m) (after : List Char) :
    outline (m ++ '\n' :: after) = (lineOutline m).toList ++ outline after := by
  have hclosed : Text.Closed '\n' (m ++ ['\n']) := Or.inr (by simp)
  rw [List.append_cons, outline_append hclosed, outline, Text.cut_line hm, List.filterMap_cons, lineOutline_newline]
  cases lineOutline m <;> rfl

theorem outline_line {m : List Char} (hm : '\n' ∉ m) {after : List Char}
    (hafter : after = [] ∨ after.head? = some '\n') :
    outline (m ++ after) = (lineOutline m).toList ++ outline after := by
  rcases hafter with rfl | hafter
  · by_cases hne : m = []
    · subst hne
      rfl
    · rw [List.append_nil, outline, Text.cut_of_not_mem hne hm, List.filterMap_cons]
      cases lineOutline m <;> rfl
  · obtain ⟨rest, rfl⟩ := List.head?_eq_some_iff.mp hafter
    rw [outline_ended hm, outline_newline]

theorem outline_replace {before m m' after : List Char} (hbefore : Text.Closed '\n' before)
    (hafter : after = [] ∨ after.head? = some '\n') (hm : '\n' ∉ m) (hm' : '\n' ∉ m')
    (h : lineOutline m = lineOutline m') : outline (before ++ m ++ after) = outline (before ++ m' ++ after) := by
  rw [List.append_assoc, List.append_assoc, outline_append hbefore, outline_append hbefore, outline_line hm hafter,
    outline_line hm' hafter, h]

theorem outline_of_edit {cs cs' : List Char} (h : Edit cs cs') : outline cs = outline cs' := by
  cases h with
  | line before after hbefore hafter hm hm' hedit =>
    exact outline_replace hbefore hafter hm hm' (lineOutline_of_lineEdit hedit)
  | insert before after hbefore hl hvacant =>
    rw [List.append_assoc, outline_append hbefore, outline_append hbefore, outline_ended hl,
      lineOutline_of_vacant hvacant]
    rfl
  | append _ hl hvacant =>
    obtain ⟨front, m, rfl, hfront, hm⟩ := Text.exists_closed '\n' cs
    have hlast := outline_line hl (Or.inl rfl)
    have hline := outline_line hm (Or.inl rfl)
    rw [List.append_nil] at hlast hline
    rw [List.append_assoc, outline_append hfront, outline_append hfront, outline_ended hm, hline, hlast,
      lineOutline_of_vacant hvacant]
    rfl
  | carriageReturn before after =>
    obtain ⟨front, m, rfl, hfront, hm⟩ := Text.exists_closed '\n' before
    have hm' : '\n' ∉ m ++ ['\r'] := by simpa using hm
    have hreplace : outline (front ++ m ++ '\n' :: after) = outline (front ++ (m ++ ['\r']) ++ '\n' :: after) :=
      outline_replace hfront (Or.inr rfl) hm hm' (lineOutline_return m).symm
    simpa using hreplace

theorem outline_of_edits {cs cs' : List Char} (h : Relation.EqvGen Edit cs cs') : outline cs = outline cs' := by
  induction h with
  | rel _ _ hedit => exact outline_of_edit hedit
  | refl _ => rfl
  | symm _ _ _ ih => exact ih.symm
  | trans _ _ _ _ _ ih ih' => exact ih.trans ih'

end Source

/-! ## Loading from an outline -/

/-- Errors of one kind: the number of the line and the case of an opcode that is not known may differ. -/
inductive SourceError.Alike : SourceError → SourceError → Prop
  | missingHeader (n n' : Nat) : Alike (.missingHeader n) (.missingHeader n')
  | unknownOpcode (n n' : Nat) {word word' : String} : Text.sameLetters word.toList word'.toList = true →
      Alike (.unknownOpcode n word) (.unknownOpcode n' word')
  | wrongArgumentCount (n n' : Nat) (opcode : Opcode) (found : Nat) :
      Alike (.wrongArgumentCount n opcode found) (.wrongArgumentCount n' opcode found)
  | invalidArgument (n n' : Nat) (expected : Shape) (word : String) :
      Alike (.invalidArgument n expected word) (.invalidArgument n' expected word)
  | invalidProgram (defect : Defect) : Alike (.invalidProgram defect) (.invalidProgram defect)

/-- The error without what may differ between errors that are alike. -/
def SourceError.outline (e : SourceError) : SourceError := e.respell (fun _ => 0) Text.lower

theorem SourceError.alike_of_outline {e e' : SourceError} (h : e.outline = e'.outline) : e.Alike e' := by
  cases e <;> cases e' <;> simp only [outline, respell, reduceCtorEq, SourceError.unknownOpcode.injEq,
    SourceError.wrongArgumentCount.injEq, SourceError.invalidArgument.injEq, SourceError.invalidProgram.injEq,
    true_and] at h
  · exact .missingHeader _ _
  · exact .unknownOpcode _ _ (Text.sameLetters_of_lower h)
  · obtain ⟨rfl, rfl⟩ := h
    exact .wrongArgumentCount _ _ _ _
  · obtain ⟨rfl, rfl⟩ := h
    exact .invalidArgument _ _ _ _
  · subst h
    exact .invalidProgram _

namespace Source

/-- Reading from the outline alone. -/
def readOutline : List SourceLine → Except SourceError (List Instruction)
  | [] => .error (.missingHeader 0)
  | l :: ls => if l.isHeader then SourceLine.instructions 1 ls else .error (.missingHeader 0)

theorem read_outline (count : Nat) (ls : List SourceLine) :
    (read count ls).mapError SourceError.outline = readOutline (ls.map SourceLine.outline) := by
  cases ls with
  | nil => rfl
  | cons l ls =>
    simp only [read, List.map_cons, readOutline, SourceLine.isHeader_outline]
    by_cases hheader : l.isHeader = true
    · rw [if_pos hheader, if_pos hheader]
      exact (SourceLine.instructions_respell (fun _ => 0) ofName_lower 1 ls).symm
    · rw [if_neg hheader, if_neg hheader]
      rfl

end Source

theorem load_outline (t : String) :
    ((Program.load t).map (·.instructions)).mapError SourceError.outline =
      Source.readOutline (Source.outline t.toList) := by
  rw [load_instructions, Source.read_outline, Source.outline_eq]

theorem load_alike {t t' : String} (h : Source.outline t.toList = Source.outline t'.toList) :
    (∃ p, Program.load t = .ok p ∧ Program.load t' = .ok p) ∨
      ∃ e e', Program.load t = .error e ∧ Program.load t' = .error e' ∧ e.Alike e' := by
  have hload := load_outline t
  rw [h, ← load_outline t'] at hload
  cases ht : Program.load t with
  | ok p =>
    cases ht' : Program.load t' with
    | ok p' =>
      rw [ht, ht'] at hload
      obtain rfl := Program.eq_of_instructions (Except.ok.inj hload)
      exact Or.inl ⟨p, rfl, rfl⟩
    | error e' => rw [ht, ht'] at hload; cases hload
  | error e =>
    cases ht' : Program.load t' with
    | ok p' => rw [ht, ht'] at hload; cases hload
    | error e' =>
      rw [ht, ht'] at hload
      exact Or.inr ⟨e, e', rfl, rfl, SourceError.alike_of_outline (Except.error.inj hload)⟩

/-- After any number of edits, made or taken back, a text is loaded as the same program or is refused for the
same reason. -/
theorem load_of_edits (t t' : String) (h : Relation.EqvGen Source.Edit t.toList t'.toList) :
    ((∃ p, Program.load t = .ok p ∧ Program.load t' = .ok p) ∨
      ∃ e e', Program.load t = .error e ∧ Program.load t' = .error e' ∧ e.Alike e') ∧
    ∀ p p', Program.load t = .ok p → Program.load t' = .ok p' → p.listing = p'.listing := by
  have halike := load_alike (Source.outline_of_edits h)
  refine ⟨halike, ?_⟩
  intro p p' hp hp'
  rcases halike with ⟨q, hq, hq'⟩ | ⟨e, e', he, -⟩
  · obtain rfl := Except.ok.inj (hp.symm.trans hq)
    obtain rfl := Except.ok.inj (hp'.symm.trans hq')
    rfl
  · rw [hp] at he
    cases he

def spaced : String := ".IPPcode24\nWRITE string@a\n"

/-- The same words with other letters, a carriage return, Unicode blanks, and comments with and without a blank
before them. -/
def relaid : String := ".ippCODE24\r\n\u00a0# b\nWRITE\u2003string@a#c\n"

theorem relaid_edits : Relation.EqvGen Source.Edit spaced.toList relaid.toList := by
  have hstep : ∀ {cs cs' ds ds' : List Char}, Source.Edit ds ds' → cs = ds → cs' = ds' →
      Relation.EqvGen Source.Edit cs cs' := by
    rintro cs cs' _ _ h rfl rfl
    exact .rel _ _ h
  have hcase : Relation.EqvGen Source.Edit spaced.toList ".ippCODE24\nWRITE string@a\n".toList :=
    hstep (Source.Edit.line [] "\nWRITE string@a\n".toList (Or.inl rfl) (Or.inr (by decide)) (by decide) (by decide)
      (@Source.LineEdit.letters [] ".IPPcode24".toList ".ippCODE24".toList [] (by simp) (by decide) (by decide)))
      (by decide +kernel) (by decide +kernel)
  have hreturn : Relation.EqvGen Source.Edit ".ippCODE24\nWRITE string@a\n".toList
      ".ippCODE24\r\nWRITE string@a\n".toList :=
    hstep (Source.Edit.carriageReturn ".ippCODE24".toList "WRITE string@a\n".toList)
      (by decide +kernel) (by decide +kernel)
  have hinsert : Relation.EqvGen Source.Edit ".ippCODE24\r\nWRITE string@a\n".toList
      ".ippCODE24\r\n\u00a0# b\nWRITE string@a\n".toList :=
    hstep (@Source.Edit.insert "\u00a0# b".toList ".ippCODE24\r\n".toList "WRITE string@a\n".toList
      (Or.inr (by decide)) (by decide)
      (SourceLine.ofChars_eq_none_iff.mp (by decide : SourceLine.ofChars? 0 _ = none)))
      (by decide +kernel) (by decide +kernel)
  have hgap : Relation.EqvGen Source.Edit ".ippCODE24\r\n\u00a0# b\nWRITE string@a\n".toList
      ".ippCODE24\r\n\u00a0# b\nWRITE\u2003string@a\n".toList :=
    hstep (Source.Edit.line ".ippCODE24\r\n\u00a0# b\n".toList ['\n'] (Or.inr (by decide)) (Or.inr rfl)
      (by decide) (by decide) (@Source.LineEdit.gap [' '] ['\u2003'] "WRITE".toList "string@a".toList (by simp)
        (by simp) (List.forall_mem_singleton.mpr (by decide)) (List.forall_mem_singleton.mpr (by decide))))
      (by decide +kernel) (by decide +kernel)
  have hcomment : Relation.EqvGen Source.Edit ".ippCODE24\r\n\u00a0# b\nWRITE\u2003string@a\n".toList
      relaid.toList :=
    hstep (Source.Edit.line ".ippCODE24\r\n\u00a0# b\n".toList ['\n'] (Or.inr (by decide)) (Or.inr rfl)
      (by decide) (by decide) (Source.LineEdit.comment "WRITE\u2003string@a".toList ['c']))
      (by decide +kernel) (by decide +kernel)
  exact hcase.trans _ _ _ (hreturn.trans _ _ _ (hinsert.trans _ _ _ (hgap.trans _ _ _ hcomment)))

theorem relaid_loads : ∃ p, Program.load relaid = .ok p ∧ Program.load spaced = .ok p := by
  obtain ⟨p, hp, -⟩ := Option.map_eq_some_iff.mp
    (by decide +kernel : (Program.load spaced).toOption.map (·.length) = some 1)
  rcases (load_of_edits spaced relaid relaid_edits).1 with ⟨q, hq, hq'⟩ | ⟨e, e', he, -⟩
  · exact ⟨q, hq', hq⟩
  · rw [load_of_toOption hp] at he
    cases he

end FrameMachine
