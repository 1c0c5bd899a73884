import FrameMachine.Source.Line
import FrameMachine.Text.Lines

/-! # Source code of programs

`Program.load` reads source code, `Program.listing` writes it in its canonical form: the header and one
instruction a line. -/

namespace FrameMachine

def Program.load (text : String) : Except SourceError Program :=
  let lines := Text.textLines text.toList
  match SourceLine.ofLines 1 lines with
  | [] => .error (.missingHeader (max lines.length 1))
  | l :: ls =>
    if l.isHeader then do
      let is ← SourceLine.instructions 1 ls
      match Program.ofInstructions is with
      | .ok p => .ok p
      | .error d => .error (.invalidProgram d)
    else .error (.missingHeader l.number)

def Program.listing (p : Program) : String :=
  ".IPPcode24\n" ++ Text.concat (p.instructions.map fun i => i.source ++ "\n")

end FrameMachine
