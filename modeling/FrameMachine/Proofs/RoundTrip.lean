import FrameMachine.Proofs.Arrange
import FrameMachine.Proofs.Loadable

/-!
# Loading a listing

The listing of a loadable program loads as that program (`load_of_loadable`), and whatever loads is
loadable (`loadable_of_load`); hence a program is given back by its own listing exactly if it is
loadable.
-/

namespace FrameMachine

open Text

/-! ## Lines of a listing -/

theorem toList_instruction (i : Instruction) :
    i.source.toList =
      i.opcode.mnemonic.toList ++ (i.arguments.map fun a => a.source.toList).flatMap (' ' :: ·) := by
  simp [Instruction.source, toList_concat, List.flatMap_map]

theorem toList_listing (p : Program) :
    p.listing.toList =
      (".IPPcode24".toList :: p.instructions.map fun i => i.source.toList).flatMap (· ++ ['\n']) := by
  simp [Program.listing, toList_concat, List.flatMap_map]

theorem isWord_mnemonic (op : Opcode) : IsWord op.mnemonic.toList := by
  cases op <;> exact ⟨by decide, by decide⟩

theorem ofName_mnemonic (op : Opcode) : Opcode.ofName? op.mnemonic = some op := by
  cases op <;> decide

theorem mem_source {i : Instruction} (h : i.Written) {c : Char} (hc : c ∈ i.source.toList) :
    isPlain c = true ∨ c = ' ' := by
  rw [toList_instruction, List.mem_append, List.mem_flatMap] at hc
  rcases hc with hc | ⟨w, hw, hc⟩
  · exact Or.inl ((isWord_mnemonic i.opcode).2 c hc)
  · obtain ⟨a, ha, rfl⟩ := List.mem_map.mp hw
    rcases List.mem_cons.mp hc with rfl | hc
    · exact Or.inr rfl
    · exact Or.inl ((isWord_source (h.argument ha)).2 c hc)

theorem ne_lineEnd_of_isPlain {c : Char} (h : isPlain c = true) : c ≠ '\r' ∧ c ≠ '\n' := by
  constructor
  · rintro rfl
    exact absurd h (by decide)
  · rintro rfl
    exact absurd h (by decide)

theorem ne_lineEnd_of_mem_source {i : Instruction} (h : i.Written) {c : Char}
    (hc : c ∈ i.source.toList) : c ≠ '\r' ∧ c ≠ '\n' := by
  rcases mem_source h hc with hc | rfl
  · exact ne_lineEnd_of_isPlain hc
  · decide

theorem ofChars_source {i : Instruction} (h : i.Written) (n : Nat) :
    SourceLine.ofChars? n i.source.toList =
      some ⟨n, i.opcode.mnemonic, i.arguments.map (·.source)⟩ := by
  have hcomment : i.source.toList.takeWhile (· ≠ '#') = i.source.toList := by
    rw [List.takeWhile_eq_self_iff]
    intro c hc
    rcases mem_source h hc with hc | rfl
    · exact decide_eq_true (ne_hash_of_isPlain hc)
    · decide
  have hargs : ∀ w ∈ i.arguments.map fun a => a.source.toList, IsWord w := by
    intro w hw
    obtain ⟨a, ha, rfl⟩ := List.mem_map.mp hw
    exact isWord_source (h.argument ha)
  unfold SourceLine.ofChars?
  rw [hcomment, toList_instruction, words_spaced (isWord_mnemonic i.opcode) hargs]
  simp

/-! ## Reading a listing -/

theorem readArguments_source {as : List Argument} {shapes : List Shape} (line : Nat) {p : Nat}
    (h : List.Forall₂ (fun a shape => a.Written ∧ a.kind.fits shape = true) as shapes)
    (hplaced : as.map (·.position) = List.range' p as.length) :
    SourceLine.readArguments line p shapes (as.map (·.source)) = .ok as := by
  induction h generalizing p with
  | nil => rfl
  | @cons a shape as shapes ha _ ih =>
    rw [List.map_cons, List.length_cons, List.range'_succ, List.cons.injEq] at hplaced
    obtain ⟨rfl, hrest⟩ := hplaced
    rw [List.map_cons, SourceLine.readArguments, readWord_source ha.2 ha.1, ih hrest]
    rfl

theorem instruction_source {i : Instruction} (h : i.Written)
    (hplaced : i.arguments.map (·.position) = List.range i.arguments.length) (n : Nat) :
    (SourceLine.mk n i.opcode.mnemonic (i.arguments.map (·.source))).instruction i.order = .ok i := by
  rw [List.range_eq_range'] at hplaced
  have hlength : (i.arguments.map (·.source)).length = i.opcode.arity := by
    rw [List.length_map]
    exact h.length_eq
  unfold SourceLine.instruction
  simp only [ofName_mnemonic, hlength, ne_eq, not_true_eq_false, ite_false, readArguments_source n h hplaced]
  show Except.ok (Instruction.make i.order i.opcode i.arguments) = _
  rw [make_of_placed hplaced]

/-- The order numbers of a list count up from the given one. -/
def NumberedFrom (k : Int) (is : List Instruction) : Prop :=
  ∀ (j : Nat) (i : Instruction), is[j]? = some i → i.order = k + j

theorem numberedFrom_cons {k : Int} {i : Instruction} {is : List Instruction} :
    NumberedFrom k (i :: is) ↔ i.order = k ∧ NumberedFrom (k + 1) is := by
  constructor
  · intro h
    refine ⟨by simpa using h 0 i rfl, fun j a ha => ?_⟩
    have := h (j + 1) a ha
    push_cast at this
    omega
  · rintro ⟨hi, his⟩ j a ha
    cases j with
    | zero => simp at ha; subst ha; simpa using hi
    | succ j =>
      have := his j a (by simpa using ha)
      push_cast
      omega

theorem instructions_lines {is : List Instruction} (hwritten : ∀ i ∈ is, i.Written)
    (hplaced : ∀ i ∈ is, i.arguments.map (·.position) = List.range i.arguments.length) {k : Int}
    (hnumbered : NumberedFrom k is) (n : Nat) :
    SourceLine.instructions k (SourceLine.ofLines n (is.map fun i => i.source.toList)) = .ok is := by
  induction is generalizing k n with
  | nil => rfl
  | cons i is ih =>
    obtain ⟨rfl, hrest⟩ := numberedFrom_cons.mp hnumbered
    have hi := List.mem_cons_self (a := i) (l := is)
    have htail := ih (fun a ha => hwritten a (List.mem_cons_of_mem _ ha))
      (fun a ha => hplaced a (List.mem_cons_of_mem _ ha)) hrest (n + 1)
    rw [List.map_cons, SourceLine.ofLines, ofChars_source (hwritten i hi), Option.toList_some,
      List.singleton_append, SourceLine.instructions, instruction_source (hwritten i hi) (hplaced i hi),
      htail]
    rfl

theorem load_of_loadable {p : Program} (h : p.Loadable) : Program.load p.listing = .ok p := by
  have hnumbered : NumberedFrom 1 p.instructions := by
    intro j i hi
    rw [h.numbered j i hi]
    omega
  have hlines : textLines p.listing.toList =
      ".IPPcode24".toList :: p.instructions.map fun i => i.source.toList := by
    rw [toList_listing, textLines_unlines]
    intro l hl c hc
    rcases List.mem_cons.mp hl with rfl | hl
    · exact ne_lineEnd_of_isPlain ((by decide : Plain ".IPPcode24".toList) c hc)
    · obtain ⟨i, hi, rfl⟩ := List.mem_map.mp hl
      exact ne_lineEnd_of_mem_source (h.written i hi) hc
  have hheader : SourceLine.ofChars? 1 ".IPPcode24".toList = some ⟨1, ".IPPcode24", []⟩ := by decide
  unfold Program.load
  simp only [hlines, SourceLine.ofLines, hheader, Option.toList_some, List.singleton_append]
  rw [if_pos (by decide), instructions_lines h.written p.placed hnumbered]
  simp only [Except.bind, bind, Program.ofInstructions_instructions]

/-! ## What loads is loadable -/

theorem isWord_of_ofLines {n : Nat} {ls : List (List Char)} {l : SourceLine}
    (h : l ∈ SourceLine.ofLines n ls) : ∀ w ∈ l.rest, IsWord w.toList := by
  induction ls generalizing n with
  | nil => cases h
  | cons cs ls ih =>
    rw [SourceLine.ofLines, List.mem_append, Option.mem_toList] at h
    rcases h with h | h
    · unfold SourceLine.ofChars? at h
      split at h
      · cases h
      · rename_i w ws hwords
        obtain rfl := Option.some.inj h
        intro v hv
        obtain ⟨u, hu, rfl⟩ := List.mem_map.mp hv
        rw [String.toList_ofList]
        exact isWord_of_mem_words (by rw [hwords]; exact List.mem_cons_of_mem _ hu)
    · exact ih h

theorem readArguments_sound {line : Nat} {shapes : List Shape} {ws : List String} {p : Nat}
    {as : List Argument} (hlength : ws.length = shapes.length) (hws : ∀ w ∈ ws, IsWord w.toList)
    (h : SourceLine.readArguments line p shapes ws = .ok as) :
    List.Forall₂ (fun a shape => a.Written ∧ a.kind.fits shape = true) as shapes ∧
      as.map (·.position) = List.range' p as.length := by
  induction shapes generalizing ws p as with
  | nil =>
    obtain rfl := Except.ok.inj h
    exact ⟨List.Forall₂.nil, rfl⟩
  | cons shape shapes ih =>
    cases ws with
    | nil => cases hlength
    | cons w ws =>
      have hrest : ∀ v ∈ ws, IsWord v.toList := fun v hv => hws v (List.mem_cons_of_mem _ hv)
      rw [SourceLine.readArguments] at h
      split at h
      · cases h
      · rename_i kind text hread
        cases htail : SourceLine.readArguments line (p + 1) shapes ws with
        | error e => rw [htail] at h; cases h
        | ok bs =>
          rw [htail] at h
          obtain rfl := Except.ok.inj h
          obtain ⟨hforall, hplaced⟩ := ih (Nat.succ.inj hlength) hrest htail
          obtain ⟨hfits, hwritten⟩ := written_of_readWord (hws w (List.mem_cons_self ..)) hread p
          refine ⟨List.Forall₂.cons ⟨hwritten, hfits⟩ hforall, ?_⟩
          rw [List.map_cons, List.length_cons, List.range'_succ, hplaced]

theorem instruction_sound {l : SourceLine} {order : Int} {i : Instruction}
    (hws : ∀ w ∈ l.rest, IsWord w.toList) (h : l.instruction order = .ok i) :
    i.order = order ∧ i.Written ∧ i.arguments.map (·.position) = List.range i.arguments.length := by
  unfold SourceLine.instruction at h
  split at h
  · cases h
  · rename_i op hop
    by_cases hlength : l.rest.length = op.arity
    · rw [if_neg (by simpa using hlength)] at h
      cases has : SourceLine.readArguments l.number 0 op.shapes l.rest with
      | error e => rw [has] at h; cases h
      | ok as =>
        rw [has] at h
        obtain ⟨hforall, hplaced⟩ := readArguments_sound hlength hws has
        have hi : Instruction.make order op as = i := Except.ok.inj h
        rw [make_of_placed hplaced] at hi
        subst hi
        exact ⟨rfl, hforall, by rw [List.range_eq_range']; exact hplaced⟩
    · rw [if_pos hlength] at h
      cases h

theorem instructions_sound {ls : List SourceLine} (hws : ∀ l ∈ ls, ∀ w ∈ l.rest, IsWord w.toList)
    {k : Int} {is : List Instruction} (h : SourceLine.instructions k ls = .ok is) :
    NumberedFrom k is ∧ ∀ i ∈ is, i.Written ∧
      i.arguments.map (·.position) = List.range i.arguments.length := by
  induction ls generalizing k is with
  | nil =>
    obtain rfl := Except.ok.inj h
    exact ⟨fun j i hi => (by cases hi), fun i hi => (by cases hi)⟩
  | cons l ls ih =>
    rw [SourceLine.instructions] at h
    cases hl : l.instruction k with
    | error e => rw [hl] at h; cases h
    | ok i =>
      cases hls : SourceLine.instructions (k + 1) ls with
      | error e => rw [hl, hls] at h; cases h
      | ok is' =>
        rw [hl, hls] at h
        obtain rfl := Except.ok.inj h
        obtain ⟨horder, hi⟩ := instruction_sound (hws l (List.mem_cons_self ..)) hl
        obtain ⟨hnumbered, his⟩ := ih (fun a ha => hws a (List.mem_cons_of_mem _ ha)) hls
        refine ⟨numberedFrom_cons.mpr ⟨horder, hnumbered⟩, fun a ha => ?_⟩
        rcases List.mem_cons.mp ha with rfl | ha
        · exact hi
        · exact his a ha

theorem NumberedFrom.le {k : Int} {is : List Instruction} (h : NumberedFrom k is) {i : Instruction}
    (hi : i ∈ is) : k ≤ i.order := by
  obtain ⟨j, hj⟩ := List.getElem?_of_mem hi
  have := h j i hj
  omega

theorem NumberedFrom.ordered {k : Int} {is : List Instruction} (h : NumberedFrom k is) :
    is.Pairwise (·.order < ·.order) := by
  induction is generalizing k with
  | nil => exact List.Pairwise.nil
  | cons i is ih =>
    obtain ⟨hi, his⟩ := numberedFrom_cons.mp h
    refine List.pairwise_cons.mpr ⟨fun a ha => ?_, ih his⟩
    have := his.le ha
    omega

theorem readArguments_error {line : Nat} {shapes : List Shape} {ws : List String} {p : Nat}
    {e : SourceError} (h : SourceLine.readArguments line p shapes ws = .error e) :
    ∃ shape w, e = .invalidArgument line shape w := by
  induction shapes generalizing ws p with
  | nil => cases h
  | cons shape shapes ih =>
    cases ws with
    | nil => cases h
    | cons w ws =>
      rw [SourceLine.readArguments] at h
      split at h
      · exact ⟨_, w, (Except.error.inj h).symm⟩
      · cases htail : SourceLine.readArguments line (p + 1) shapes ws with
        | error e' =>
          rw [htail] at h
          obtain rfl : e' = e := Except.error.inj h
          exact ih htail
        | ok bs => rw [htail] at h; cases h

theorem instruction_error {l : SourceLine} {order : Int} {e : SourceError}
    (h : l.instruction order = .error e) (d : Defect) : e ≠ .invalidProgram d := by
  unfold SourceLine.instruction at h
  split at h
  · obtain rfl := Except.error.inj h
    exact SourceError.noConfusion
  · rename_i op hop
    by_cases hlength : l.rest.length = op.arity
    · rw [if_neg (by simpa using hlength)] at h
      cases has : SourceLine.readArguments l.number 0 op.shapes l.rest with
      | error e' =>
        rw [has] at h
        obtain rfl : e' = e := Except.error.inj h
        obtain ⟨shape, w, rfl⟩ := readArguments_error has
        exact SourceError.noConfusion
      | ok as => rw [has] at h; cases h
    · rw [if_pos hlength] at h
      obtain rfl := Except.error.inj h
      exact SourceError.noConfusion

theorem instructions_error {ls : List SourceLine} {k : Int} {e : SourceError}
    (h : SourceLine.instructions k ls = .error e) (d : Defect) : e ≠ .invalidProgram d := by
  induction ls generalizing k with
  | nil => cases h
  | cons l ls ih =>
    rw [SourceLine.instructions] at h
    cases hl : l.instruction k with
    | error e' =>
      rw [hl] at h
      obtain rfl : e' = e := Except.error.inj h
      exact instruction_error hl d
    | ok i =>
      cases hls : SourceLine.instructions (k + 1) ls with
      | error e' =>
        rw [hl, hls] at h
        obtain rfl : e' = e := Except.error.inj h
        exact ih hls
      | ok is => rw [hl, hls] at h; cases h

theorem ofInstructions_lines {ls : List SourceLine} (hws : ∀ l ∈ ls, ∀ w ∈ l.rest, IsWord w.toList)
    {is : List Instruction} (h : SourceLine.instructions 1 ls = .ok is) :
    ∃ p, Program.ofInstructions is = .ok p ∧ p.instructions = is ∧ p.Loadable := by
  obtain ⟨hnumbered, his⟩ := instructions_sound hws h
  have hpositive : ∀ i ∈ is, 0 < i.order := by
    intro i hi
    have := hnumbered.le hi
    omega
  refine ⟨_, Program.ofInstructions_eq_ok hnumbered.ordered hpositive fun i hi => (his i hi).2, rfl, ?_⟩
  exact ⟨fun k i hi => by rw [hnumbered k i hi]; omega, fun i hi => (his i hi).1⟩

theorem load_cases (t : String) :
    (∃ p, Program.load t = .ok p ∧ p.Loadable) ∨
      ∃ e, Program.load t = .error e ∧ ∀ d, e ≠ .invalidProgram d := by
  simp only [Program.load]
  cases hlines : SourceLine.ofLines 1 (textLines t.toList) with
  | nil => exact Or.inr ⟨_, rfl, by simp⟩
  | cons l ls =>
    have hws : ∀ k ∈ ls, ∀ w ∈ k.rest, IsWord w.toList := fun k hk =>
      isWord_of_ofLines (hlines ▸ List.mem_cons_of_mem l hk)
    by_cases hheader : l.isHeader = true
    · simp only [hheader, ite_true]
      cases his : SourceLine.instructions 1 ls with
      | error e => exact Or.inr ⟨e, rfl, instructions_error his⟩
      | ok is =>
        obtain ⟨p, hp, -, hloadable⟩ := ofInstructions_lines hws his
        exact Or.inl ⟨p, by simp only [Except.bind, bind, hp], hloadable⟩
    · simp only [hheader, Bool.false_eq_true, ite_false]
      exact Or.inr ⟨_, rfl, by simp⟩

theorem loadable_of_load {t : String} {p : Program} (h : Program.load t = .ok p) : p.Loadable := by
  rcases load_cases t with ⟨q, hq, hloadable⟩ | ⟨e, he, -⟩
  · rw [h] at hq
    obtain rfl := Except.ok.inj hq
    exact hloadable
  · rw [h] at he
    cases he

/-- A listing gives its program back exactly if the program is loadable, and everything that loads is loadable.
-/
theorem load_listing_exact :
    (∀ p : Program, Program.load p.listing = .ok p ↔ p.Loadable) ∧
      (∀ (t : String) (p : Program), Program.load t = .ok p →
        p.Loadable ∧ Program.load p.listing = .ok p) ∧
      ∀ (t : String) (d : Defect), Program.load t ≠ .error (.invalidProgram d) := by
  refine ⟨fun p => ⟨loadable_of_load, load_of_loadable⟩, fun t p h => ?_, fun t d h => ?_⟩
  · exact ⟨loadable_of_load h, load_of_loadable (loadable_of_load h)⟩
  · rcases load_cases t with ⟨p, hp, -⟩ | ⟨e, he, hne⟩
    · rw [h] at hp
      cases hp
    · rw [h] at he
      exact hne d (Except.error.inj he).symm

theorem load_of_toOption {t : String} {p : Program} (h : (Program.load t).toOption = some p) :
    Program.load t = .ok p := by
  cases hload : Program.load t with
  | error e => rw [hload] at h; cases h
  | ok q => rw [hload] at h; exact congrArg _ (Option.some.inj h)

/-- Mixed case, blanks, a comment, and a string with an escape and an `@`. -/
def greetingSource : String :=
  ".ippcode24 # header\n\n  DefVar GF@name\n\tread GF@name string\nWRITE string@a\\035b@c\u00e9"

theorem greeting_listing_loads :
    ∃ p, Program.load greetingSource = .ok p ∧ p.length = 3 ∧ p.Loadable ∧
      Program.load p.listing = .ok p := by
  have hlength : (Program.load greetingSource).toOption.map (·.length) = some 3 := by decide +kernel
  obtain ⟨p, hp, hlength⟩ := Option.map_eq_some_iff.mp hlength
  have hload := load_of_toOption hp
  exact ⟨p, hload, hlength, load_listing_exact.2.1 greetingSource p hload⟩

end FrameMachine
