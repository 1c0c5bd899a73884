import FrameMachine.Proofs.RoundTrip

/-!
# Reading lines one by one

What a program is loaded from is the list of lines that hold words (`load_instructions`). The number of a line and
the case of its first word do not matter for the instruction, only for the error that names them
(`instructions_respell`), and instructions are numbered by the lines before them (`instructions_append`).
-/

namespace FrameMachine

/-! ## Other numbers and spellings -/

/-- The error with another line number, and another spelling of the opcode that is not known. -/
def SourceError.respell (f : Nat → Nat) (g : String → String) : SourceError → SourceError
  | missingHeader n => missingHeader (f n)
  | unknownOpcode n word => unknownOpcode (f n) (g word)
  | wrongArgumentCount n opcode found => wrongArgumentCount (f n) opcode found
  | invalidArgument n expected word => invalidArgument (f n) expected word
  | invalidProgram defect => invalidProgram defect

/-- The instruction that stands the given number of instructions later. -/
def Instruction.later (d : Nat) (i : Instruction) : Instruction := { i with order := i.order + d }

/-- A line without words: blanks, up to the comment if there is one. -/
def Source.Vacant (cs : List Char) : Prop := ∀ c ∈ cs.takeWhile (· ≠ '#'), Text.isBlank c = true

namespace SourceLine

def respell (f : Nat → Nat) (g : String → String) (l : SourceLine) : SourceLine := ⟨f l.number, g l.head, l.rest⟩

section
variable (f : Nat → Nat) {g : String → String} (hg : ∀ word, Opcode.ofName? (g word) = Opcode.ofName? word)

theorem readArguments_respell (g : String → String) (line p : Nat) (shapes : List Shape) (words : List String) :
    readArguments (f line) p shapes words = (readArguments line p shapes words).mapError (·.respell f g) := by
  induction shapes generalizing p words with
  | nil => rfl
  | cons shape shapes ih =>
    cases words with
    | nil => rfl
    | cons word words =>
      rw [readArguments, readArguments]
      cases Source.readWord word shape with
      | error expected => rfl
      | ok a =>
        simp only [ih]
        cases readArguments line (p + 1) shapes words <;> rfl

include hg

theorem instruction_respell (l : SourceLine) (order : Int) :
    (l.respell f g).instruction order = (l.instruction order).mapError (·.respell f g) := by
  unfold instruction
  simp only [respell, hg]
  cases Opcode.ofName? l.head with
  | none => rfl
  | some opcode =>
    by_cases hlength : l.rest.length = opcode.arity
    · simp only [hlength, ne_eq, not_true_eq_false, ite_false, readArguments_respell f g]
      cases readArguments l.number 0 opcode.shapes l.rest <;> rfl
    · simp only [hlength, ne_eq, not_false_eq_true, ite_true]
      rfl

theorem instructions_respell (k : Int) (ls : List SourceLine) :
    instructions k (ls.map (respell f g)) = (instructions k ls).mapError (·.respell f g) := by
  induction ls generalizing k with
  | nil => rfl
  | cons l ls ih =>
    rw [List.map_cons, instructions, instructions, instruction_respell f hg, ih]
    cases l.instruction k with
    | error e => rfl
    | ok i => cases instructions (k + 1) ls <;> rfl

end

/-! ## Lines after others -/

theorem instruction_later (l : SourceLine) (order : Int) (d : Nat) :
    l.instruction (order + d) = (l.instruction order).map (Instruction.later d) := by
  unfold instruction
  cases Opcode.ofName? l.head with
  | none => rfl
  | some opcode =>
    by_cases hlength : l.rest.length = opcode.arity
    · simp only [hlength, ne_eq, not_true_eq_false, ite_false]
      cases readArguments l.number 0 opcode.shapes l.rest <;> rfl
    · simp only [hlength, ne_eq, not_false_eq_true, ite_true]
      rfl

theorem instructions_later (k : Int) (d : Nat) (ls : List SourceLine) :
    instructions (k + d) ls = (instructions k ls).map (List.map (Instruction.later d)) := by
  induction ls generalizing k with
  | nil => rfl
  | cons l ls ih =>
    have hnext : k + d + 1 = k + 1 + d := by omega
    rw [instructions, instructions, instruction_later, hnext, ih]
    cases l.instruction k with
    | error e => rfl
    | ok i => cases instructions (k + 1) ls <;> rfl

theorem length_instructions {k : Int} {ls : List SourceLine} {is : List Instruction}
    (h : instructions k ls = .ok is) : is.length = ls.length := by
  induction ls generalizing k is with
  | nil =>
    obtain rfl := Except.ok.inj h
    rfl
  | cons l ls ih =>
    rw [instructions] at h
    cases hl : l.instruction k with
    | error e => rw [hl] at h; cases h
    | ok i =>
      cases hls : instructions (k + 1) ls with
      | error e => rw [hl, hls] at h; cases h
      | ok js =>
        rw [hl, hls] at h
        obtain rfl := Except.ok.inj h
        rw [List.length_cons, List.length_cons, ih hls]

theorem instructions_append (k : Int) (ls ms : List SourceLine) :
    instructions k (ls ++ ms) = do
      let is ← instructions k ls
      let js ← instructions (k + ls.length) ms
      return is ++ js := by
  induction ls generalizing k with
  | nil =>
    rw [List.nil_append, instructions, List.length_nil, Int.natCast_zero, Int.add_zero]
    cases instructions k ms <;> rfl
  | cons l ls ih =>
    have hnext : k + (l :: ls).length = k + 1 + ls.length := by
      rw [List.length_cons]
      omega
    rw [List.cons_append, instructions, instructions, ih, hnext]
    cases l.instruction k with
    | error e => rfl
    | ok i =>
      cases instructions (k + 1) ls with
      | error e => rfl
      | ok is => cases instructions (k + 1 + ls.length) ms <;> rfl

theorem ofLines_append (n : Nat) (ls ms : List (List Char)) :
    ofLines n (ls ++ ms) = ofLines n ls ++ ofLines (n + ls.length) ms := by
  induction ls generalizing n with
  | nil => rfl
  | cons l ls ih =>
    have hnext : n + (l :: ls).length = n + 1 + ls.length := by
      rw [List.length_cons]
      omega
    rw [List.cons_append, ofLines, ofLines, ih, hnext, List.append_assoc]

theorem ofChars_eq_none_iff {n : Nat} {cs : List Char} : ofChars? n cs = none ↔ Source.Vacant cs := by
  unfold Source.Vacant
  rw [← Text.words_eq_nil_iff]
  unfold ofChars?
  cases Text.words (cs.takeWhile (· ≠ '#')) <;> simp

theorem ofLines_eq_nil_iff {n : Nat} {ls : List (List Char)} : ofLines n ls = [] ↔ ∀ l ∈ ls, Source.Vacant l := by
  induction ls generalizing n with
  | nil => simp [ofLines]
  | cons l ls ih => simp [ofLines, ih, ofChars_eq_none_iff]

theorem ofChars_respell (f : Nat → Nat) (n : Nat) (cs : List Char) :
    ofChars? (f n) cs = (ofChars? n cs).map (respell f id) := by
  unfold ofChars?
  cases Text.words (cs.takeWhile (· ≠ '#')) <;> rfl

theorem ofLines_add (n d : Nat) (ls : List (List Char)) :
    ofLines (n + d) ls = (ofLines n ls).map (respell (· + d) id) := by
  induction ls generalizing n with
  | nil => rfl
  | cons l ls ih =>
    have hnext : n + d + 1 = n + 1 + d := by omega
    rw [ofLines, ofLines, hnext, ih, ofChars_respell (· + d) n, List.map_append]
    cases ofChars? n l <;> rfl

end SourceLine

/-! ## Loading -/

namespace Source

/-- The instructions of the lines that hold words, in a text with the given number of lines. -/
def read (count : Nat) : List SourceLine → Except SourceError (List Instruction)
  | [] => .error (.missingHeader (max count 1))
  | l :: ls => if l.isHeader then SourceLine.instructions 1 ls else .error (.missingHeader l.number)

end Source

theorem load_instructions (t : String) :
    (Program.load t).map (·.instructions) =
      Source.read (Text.textLines t.toList).length (SourceLine.ofLines 1 (Text.textLines t.toList)) := by
  simp only [Program.load]
  cases hlines : SourceLine.ofLines 1 (Text.textLines t.toList) with
  | nil => rfl
  | cons l ls =>
    have hws : ∀ k ∈ ls, ∀ w ∈ k.rest, Text.IsWord w.toList := fun k hk =>
      isWord_of_ofLines (hlines ▸ List.mem_cons_of_mem l hk)
    by_cases hheader : l.isHeader = true
    · simp only [Source.read, hheader, ite_true]
      cases his : SourceLine.instructions 1 ls with
      | error e => rfl
      | ok is =>
        obtain ⟨p, hp, rfl, -⟩ := ofInstructions_lines hws his
        simp only [bind, Except.bind, hp]
        rfl
    · simp only [Source.read, hheader, Bool.false_eq_true, ite_false]
      rfl

theorem Program.eq_of_instructions {p q : Program} (h : p.instructions = q.instructions) : p = q := by
  cases p
  cases q
  cases h
  rfl

theorem load_ok_iff {t : String} {p : Program} : Program.load t = .ok p ↔
    Source.read (Text.textLines t.toList).length (SourceLine.ofLines 1 (Text.textLines t.toList)) =
      .ok p.instructions := by
  rw [← load_instructions]
  cases Program.load t with
  | error e => simp [Except.map]
  | ok q => simpa [Except.map] using ⟨congrArg _, Program.eq_of_instructions⟩

theorem exists_load {t : String} {is : List Instruction}
    (h : Source.read (Text.textLines t.toList).length (SourceLine.ofLines 1 (Text.textLines t.toList)) = .ok is) :
    ∃ p, Program.load t = .ok p ∧ p.instructions = is := by
  rw [← load_instructions] at h
  cases hload : Program.load t with
  | error e => rw [hload] at h; cases h
  | ok p =>
    rw [hload] at h
    exact ⟨p, rfl, Except.ok.inj h⟩

theorem load_error_iff {t : String} {e : SourceError} : Program.load t = .error e ↔
    Source.read (Text.textLines t.toList).length (SourceLine.ofLines 1 (Text.textLines t.toList)) = .error e := by
  rw [← load_instructions]
  cases Program.load t <;> simp [Except.map]

end FrameMachine
