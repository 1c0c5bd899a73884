import FrameMachine.CommandLine

/-! # The program

Reads the files that the command names and, for a run without an input file, the standard input; the
response is then a matter of `Command.respond`. -/

namespace FrameMachine

/-- What a name stands for in the file system. -/
def readEntry (name : String) : IO Entry := do
  match ← (IO.FS.readBinFile name).toBaseIO with
  | .ok bytes => return .file bytes
  | .error (.noFileOrDirectory ..) => return .missing
  | .error (.inappropriateType ..) => return .directory
  | .error e => return .unreadable e.toString

/-- Whether a command reads the standard input. -/
def Command.readsStdin : Command → Bool
  | .run _ input => input.isNone
  | _ => false

/-- Doubles the number of steps until there is a response. -/
partial def respondEventually (fuel : Nat) (respond : Nat → Option Response) : IO Response := do
  match respond fuel with
  | some r => return r
  | none => respondEventually (2 * fuel) respond

end FrameMachine

open FrameMachine in
def main (args : List String) : IO UInt32 := do
  let command := Command.ofArguments args
  let entries ← command.files.mapM fun name => return (name, ← readEntry name)
  let input ← IO.getStdin
  let stdin ← if command.readsStdin then input.readBinToEnd else pure ByteArray.empty
  let find := fun name => (entries.lookup name).getD .missing
  let response ← respondEventually 100000 fun fuel => command.respond fuel find stdin
  IO.print response.out
  IO.eprint response.err
  return UInt32.ofNat response.code
