import FrameMachine.Text.Blank
import FrameMachine.Text.Lines
import Mathlib.Data.List.TakeWhile

/-!
# Words and lines of written text

A word that is followed by a blank is read back as a word (`words_spaced`), a line that is followed by
a line feed as a line (`textLines_unlines`). Conversely, words that are read hold no blank.
-/

namespace FrameMachine.Text

/-- A character that may stand inside a word: neither a blank nor the start of a comment. -/
def isPlain (c : Char) : Bool := !isBlank c && c != '#'

/-- Text that can be part of a word. -/
def Plain (cs : List Char) : Prop := ∀ c ∈ cs, isPlain c = true

instance (cs : List Char) : Decidable (Plain cs) :=
  List.decidableBAll (fun c => isPlain c = true) cs

/-- What is read as one word wherever it stands between blanks. -/
def IsWord (w : List Char) : Prop := w ≠ [] ∧ Plain w

theorem isBlank_of_isPlain {c : Char} (h : isPlain c = true) : isBlank c = false := by
  simp only [isPlain, Bool.and_eq_true, Bool.not_eq_true'] at h
  exact h.1

theorem ne_hash_of_isPlain {c : Char} (h : isPlain c = true) : c ≠ '#' := by
  simp only [isPlain, Bool.and_eq_true, bne_iff_ne] at h
  exact h.2

theorem isPlain_of_not {c : Char} (hb : isBlank c = false) (hc : c ≠ '#') : isPlain c = true := by
  simp [isPlain, hb, hc]

theorem isPlain_of_toNat {c : Char} (h₁ : 35 < c.toNat) (h₂ : c.toNat ≤ 126) : isPlain c = true := by
  have hb : isBlank c = false := by
    simp only [isBlank, Bool.or_eq_false_iff, Bool.and_eq_false_iff, decide_eq_false_iff_not,
      beq_eq_false_iff_ne]
    omega
  refine isPlain_of_not hb ?_
  rintro rfl
  exact absurd h₁ (by decide)

@[simp] theorem plain_nil : Plain [] := by simp [Plain]

@[simp] theorem plain_cons {c : Char} {cs : List Char} :
    Plain (c :: cs) ↔ isPlain c = true ∧ Plain cs := by simp [Plain]

@[simp] theorem plain_append {as bs : List Char} : Plain (as ++ bs) ↔ Plain as ∧ Plain bs := by
  simp only [Plain, List.mem_append]
  constructor
  · intro h
    exact ⟨fun c hc => h c (Or.inl hc), fun c hc => h c (Or.inr hc)⟩
  · rintro ⟨ha, hb⟩ c (hc | hc)
    · exact ha c hc
    · exact hb c hc

theorem Plain.notBlank {w : List Char} (h : Plain w) : ∀ c ∈ w, isBlank c = false :=
  fun c hc => isBlank_of_isPlain (h c hc)

theorem of_dropWhile_eq_cons {p : Char → Bool} {l r : List Char} {c : Char}
    (h : l.dropWhile p = c :: r) : p c = false := by
  have := List.head?_dropWhile_not p l
  rw [h] at this
  simpa using this

/-! ## Words -/

theorem spanWord_append {w : List Char} (hw : ∀ c ∈ w, isBlank c = false) (cs : List Char) :
    spanWord (w ++ cs) = (w ++ (spanWord cs).1, (spanWord cs).2) := by
  induction w with
  | nil => rfl
  | cons c w ih =>
    have hc : isBlank c = false := hw c (List.mem_cons_self ..)
    have hrest := ih fun d hd => hw d (List.mem_cons_of_mem _ hd)
    simp [spanWord, hrest, hc]

theorem spanWord_blank {c : Char} (hc : isBlank c = true) (cs : List Char) :
    spanWord (c :: cs) = ([], words cs) := by
  simp [spanWord, hc, words]

theorem words_blank {c : Char} (hc : isBlank c = true) (cs : List Char) : words (c :: cs) = words cs := by
  rw [words, spanWord_blank hc]
  rfl

theorem words_eq_nil_iff {cs : List Char} : words cs = [] ↔ ∀ c ∈ cs, isBlank c = true := by
  induction cs with
  | nil => simp [words, spanWord, consWord]
  | cons c cs ih =>
    by_cases hc : isBlank c = true
    · rw [words_blank hc, ih]
      simp [hc]
    · simp [words, spanWord, consWord, hc]

theorem words_split (l : List Char) {c : Char} (hc : isBlank c = true) (r : List Char) :
    words (l ++ c :: r) = words l ++ words r := by
  have happend : ∀ w ws, consWord w (ws ++ words r) = consWord w ws ++ words r := by
    intro w ws
    cases w <;> simp [consWord]
  have hspan : spanWord (l ++ c :: r) = ((spanWord l).1, (spanWord l).2 ++ words r) := by
    induction l with
    | nil => simp [spanWord_blank hc, spanWord]
    | cons d l ih =>
      by_cases hd : isBlank d = true
      · simp [spanWord, ih, hd, happend]
      · simp [spanWord, ih, hd]
  rw [words, words, hspan, happend]

theorem words_drop_blanks {run : List Char} (hrun : ∀ c ∈ run, isBlank c = true) (r : List Char) :
    words (run ++ r) = words r := by
  induction run with
  | nil => rfl
  | cons c run ih =>
    rw [List.cons_append, words_blank (hrun c (List.mem_cons_self ..))]
    exact ih fun d hd => hrun d (List.mem_cons_of_mem _ hd)

theorem words_append {w : List Char} (hne : w ≠ []) (hw : ∀ c ∈ w, isBlank c = false)
    {cs : List Char} (hcs : (spanWord cs).1 = []) : words (w ++ cs) = w :: (spanWord cs).2 := by
  unfold words
  rw [spanWord_append hw, hcs, List.append_nil]
  simp [consWord, hne]

theorem words_spaced {w : List Char} (hw : IsWord w) {ws : List (List Char)}
    (hws : ∀ v ∈ ws, IsWord v) : words (w ++ ws.flatMap (' ' :: ·)) = w :: ws := by
  induction ws generalizing w with
  | nil => exact words_append hw.1 hw.2.notBlank rfl
  | cons v ws ih =>
    have hspan : spanWord ((v :: ws).flatMap (' ' :: ·)) = ([], v :: ws) := by
      rw [List.flatMap_cons, List.cons_append, spanWord_blank (by decide)]
      rw [ih (hws v (List.mem_cons_self ..)) fun u hu => hws u (List.mem_cons_of_mem _ hu)]
    rw [words_append hw.1 hw.2.notBlank (by rw [hspan]), hspan]

theorem mem_consWord {v w : List Char} {ws : List (List Char)} (h : v ∈ consWord w ws) :
    (v = w ∧ w ≠ []) ∨ v ∈ ws := by
  unfold consWord at h
  split at h
  · exact Or.inr h
  · rename_i hw
    rcases List.mem_cons.mp h with rfl | h
    · exact Or.inl ⟨rfl, by simpa using hw⟩
    · exact Or.inr h

theorem mem_spanWord (cs : List Char) :
    (∀ c ∈ (spanWord cs).1, c ∈ cs ∧ isBlank c = false) ∧
      ∀ w ∈ (spanWord cs).2, w ≠ [] ∧ ∀ c ∈ w, c ∈ cs ∧ isBlank c = false := by
  induction cs with
  | nil => simp [spanWord]
  | cons d cs ih =>
    obtain ⟨hfst, hsnd⟩ := ih
    have lift : ∀ {c : Char}, c ∈ cs ∧ isBlank c = false → c ∈ d :: cs ∧ isBlank c = false :=
      fun h => ⟨List.mem_cons_of_mem _ h.1, h.2⟩
    by_cases hd : isBlank d = true
    · rw [spanWord_blank hd]
      refine ⟨by simp, fun w hw => ?_⟩
      rcases mem_consWord hw with ⟨rfl, hne⟩ | hw
      · exact ⟨hne, fun c hc => lift (hfst c hc)⟩
      · exact ⟨(hsnd w hw).1, fun c hc => lift ((hsnd w hw).2 c hc)⟩
    · simp only [spanWord, hd, Bool.false_eq_true, ite_false]
      refine ⟨fun c hc => ?_, fun w hw => ⟨(hsnd w hw).1, fun c hc => lift ((hsnd w hw).2 c hc)⟩⟩
      rcases List.mem_cons.mp hc with rfl | hc
      · exact ⟨List.mem_cons_self .., by simpa using hd⟩
      · exact lift (hfst c hc)

theorem mem_words {cs w : List Char} (h : w ∈ words cs) :
    w ≠ [] ∧ ∀ c ∈ w, c ∈ cs ∧ isBlank c = false := by
  rcases mem_consWord h with ⟨rfl, hne⟩ | h
  · exact ⟨hne, (mem_spanWord cs).1⟩
  · exact (mem_spanWord cs).2 w h

theorem isWord_of_mem_words {cs w : List Char} (h : w ∈ words (cs.takeWhile (· ≠ '#'))) : IsWord w := by
  obtain ⟨hne, hw⟩ := mem_words h
  refine ⟨hne, fun c hc => ?_⟩
  obtain ⟨hmem, hb⟩ := hw c hc
  have hhash : c ≠ '#' := by simpa using List.mem_takeWhile_imp hmem
  exact isPlain_of_not hb hhash

/-! ## Lines -/

theorem lines_append {α : Type} [DecidableEq α] {cr lf : α} {l : List α} (h : ∀ a ∈ l, a ≠ cr ∧ a ≠ lf)
    (rest : List α) : lines cr lf (l ++ lf :: rest) = l :: lines cr lf rest := by
  induction l with
  | nil => cases rest <;> simp [lines]
  | cons a l ih =>
    obtain ⟨hcr, hlf⟩ := h a (List.mem_cons_self ..)
    have hrest := ih fun b hb => h b (List.mem_cons_of_mem _ hb)
    -- The recursion looks two symbols ahead, and there is one after `a` in any case.
    obtain ⟨b, tail, htail⟩ : ∃ b tail, l ++ lf :: rest = b :: tail := by
      cases l <;> simp
    rw [List.cons_append, htail, lines, ← htail, hrest]
    simp [hcr, hlf, consLine]

theorem textLines_unlines {ls : List (List Char)} (h : ∀ l ∈ ls, ∀ c ∈ l, c ≠ '\r' ∧ c ≠ '\n') :
    textLines (ls.flatMap (· ++ ['\n'])) = ls := by
  induction ls with
  | nil => rfl
  | cons l ls ih =>
    have hl := h l (List.mem_cons_self ..)
    have hls := ih fun k hk => h k (List.mem_cons_of_mem _ hk)
    unfold textLines at hls ⊢
    rw [List.flatMap_cons, List.append_assoc, List.singleton_append, lines_append hl, hls]

end FrameMachine.Text
