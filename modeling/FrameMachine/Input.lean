import FrameMachine.Text.Blank
import FrameMachine.Text.Lines
import FrameMachine.Value

/-! # Input

The input is a sequence of lines; every request for a value takes the next one. A line whose bytes are
not UTF-8 has no text. -/

namespace FrameMachine

structure Input where
  lines : List (Option String)
deriving DecidableEq

namespace Input

def empty : Input := ⟨[]⟩

def ofText (s : String) : Input := ⟨(Text.textLines s.toList).map fun l => some (String.ofList l)⟩

def ofBytes (bytes : ByteArray) : Input :=
  ⟨(Text.lines 13 10 bytes.data.toList).map fun l => String.fromUTF8? ⟨l.toArray⟩⟩

/-- The value of a type that a line denotes. Numbers and truth values may stand between blanks, every
text other than `true` is false, and strings are taken as they are. -/
def parse (t : DataType) (line : String) : Option Value :=
  let trimmed := String.ofList (Text.trim line.toList)
  match t with
  | .int => (Literal.integer? trimmed).map .int
  | .float => (Literal.real? trimmed).map .float
  | .bool => some (.bool (Text.sameLetters trimmed.toList "true".toList))
  | .string => some (.string line)
  | .nil => none

/-- Reads a value of a type and takes its line. No line is taken for a type without readable values. -/
def read (t : DataType) (input : Input) : Option Value × Input :=
  if t.isReadable then
    match input.lines with
    | [] => (none, input)
    | l :: ls => (l.bind (parse t), ⟨ls⟩)
  else (none, input)

end Input

end FrameMachine
