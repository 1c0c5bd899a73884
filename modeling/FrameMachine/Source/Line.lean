import FrameMachine.Program
import FrameMachine.Text.Blank

/-! # Lines of source code

A line holds words separated by blanks, up to a comment that starts with `#`. The first word names the
opcode and the others are its arguments, each of which must be written as the shape at its place asks. -/

namespace FrameMachine

inductive SourceError where
  | missingHeader (line : Nat)
  | unknownOpcode (line : Nat) (word : String)
  | wrongArgumentCount (line : Nat) (opcode : Opcode) (found : Nat)
  | invalidArgument (line : Nat) (expected : Shape) (word : String)
  | invalidProgram (defect : Defect)
deriving DecidableEq

def SourceError.message : SourceError → String
  | missingHeader line => s!"line {line}: expected header '.IPPcode24'"
  | unknownOpcode line word => s!"line {line}: unknown opcode '{word}'"
  | wrongArgumentCount line opcode found =>
    s!"line {line}: {opcode.mnemonic} expects {opcode.arity} argument(s), found {found}"
  | invalidArgument line expected word => s!"line {line}: invalid {expected.word} argument '{word}'"
  | invalidProgram defect => defect.message

/-! ## Words -/

namespace Source

def isNameStart (c : Char) : Bool := c.isAlpha || "_-$&%*!?".toList.contains c

/-- Names of labels and variables in source code. -/
def isName (s : String) : Bool :=
  match s.toList with
  | [] => false
  | c :: cs => isNameStart c && cs.all fun d => isNameStart d || d.isDigit

def readVariable (word : String) : Except Shape (Kind × String) :=
  match Variable.ofText? word with
  | some x => if isName x.name then .ok (.var, word) else .error .var
  | none => .error .var

/-- Whether a literal's text is accepted in source code. The codes of escapes are left unchecked: they
matter only when the instruction is executed. -/
def acceptsPayload (t : DataType) (text : String) : Bool :=
  if t = .string then Literal.escapesWellFormed text.toList else (Value.ofPayload? t text).isSome

/-- The kind and text of the argument that a word denotes at a place of the given shape; fails with the
shape that the word should have had. -/
def readWord (word : String) : Shape → Except Shape (Kind × String)
  | .var => readVariable word
  | .symb =>
    match splitAtSign word with
    | none => .error .symb
    | some (tag, text) =>
      if (Scope.ofName? tag).isSome then readVariable word
      else match DataType.ofName? tag with
        | none => .error .symb
        | some t => if acceptsPayload t text then .ok (.literal t, text) else .error .symb
  | .label => if isName word then .ok (.label, word) else .error .label
  | .type =>
    match DataType.ofName? word with
    | some t => if t.isReadable then .ok (.type, word) else .error .type
    | none => .error .type

end Source

/-! ## Lines -/

/-- A line that holds words: its number, its first word and the others. -/
structure SourceLine where
  number : Nat
  head : String
  rest : List String
deriving DecidableEq

namespace SourceLine

def ofChars? (number : Nat) (cs : List Char) : Option SourceLine :=
  match Text.words (cs.takeWhile (· ≠ '#')) with
  | [] => none
  | w :: ws => some ⟨number, String.ofList w, ws.map String.ofList⟩

/-- The lines of a text that hold words, the first line having the given number. -/
def ofLines : Nat → List (List Char) → List SourceLine
  | _, [] => []
  | n, l :: ls => (ofChars? n l).toList ++ ofLines (n + 1) ls

def isHeader (l : SourceLine) : Bool :=
  Text.sameLetters l.head.toList ".IPPcode24".toList && l.rest.isEmpty

/-- The arguments that words denote at the places of the given shapes, counted from `p`. -/
def readArguments (line : Nat) : Nat → List Shape → List String → Except SourceError (List Argument)
  | p, shape :: shapes, word :: words => do
    match Source.readWord word shape with
    | .error expected => throw (.invalidArgument line expected word)
    | .ok (kind, text) =>
      let rest ← readArguments line (p + 1) shapes words
      return ⟨p, kind, text⟩ :: rest
  | _, _, _ => .ok []

/-- The instruction of a line, with the given order number. -/
def instruction (l : SourceLine) (order : Int) : Except SourceError Instruction := do
  match Opcode.ofName? l.head with
  | none => throw (.unknownOpcode l.number l.head)
  | some opcode =>
    if l.rest.length ≠ opcode.arity then
      throw (.wrongArgumentCount l.number opcode l.rest.length)
    let arguments ← readArguments l.number 0 opcode.shapes l.rest
    return Instruction.make order opcode arguments

/-- The instructions of lines, with increasing order numbers from the given one. -/
def instructions : Int → List SourceLine → Except SourceError (List Instruction)
  | _, [] => .ok []
  | order, l :: ls => do
    let i ← l.instruction order
    let is ← instructions (order + 1) ls
    return i :: is

end SourceLine

end FrameMachine
