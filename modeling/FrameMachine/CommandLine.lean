import FrameMachine.Machine.Run
import FrameMachine.Source.Load

/-! # The command line

A command is read from the arguments; its response depends on the files it names and on the standard
input. -/

namespace FrameMachine

/-- What a name stands for in the file system. -/
inductive Entry where
  | file (bytes : ByteArray)
  | directory
  | unreadable (reason : String)

def Entry.missing : Entry := .unreadable "No such file or directory (os error 2)"

inductive Command where
  | help
  | noCommand
  | unknown (name : String)
  | misused (name usage : String)
  | run (source : String) (input : Option String)
  | check (source : String)
  | disassemble (source : String)
deriving DecidableEq

structure Response where
  code : Nat
  out : String
  err : String
deriving DecidableEq

def usage : String :=
  "Usage: ippvm <command> [args]\n\n" ++
  "Commands:\n" ++
  "  run <source> [--input <file>]   Load and execute a program\n" ++
  "  check <source>                  Load a program and collect its labels\n" ++
  "  disassemble <source>            Print the canonical listing\n\n" ++
  "Set RUST_LOG (e.g. RUST_LOG=ippvm_vm=trace) for diagnostics on stderr.\n"

namespace Command

def ofArguments : List String → Command
  | [] => noCommand
  | name :: rest =>
    if name = "run" then
      match rest with
      | [source] => run source none
      | [source, flag, path] => if flag = "--input" then run source (some path) else runMisused
      | _ => runMisused
    else if name = "check" then
      match rest with
      | [source] => check source
      | _ => misused "check" "check <source>"
    else if name = "disassemble" then
      match rest with
      | [source] => disassemble source
      | _ => misused "disassemble" "disassemble <source>"
    else if name = "--help" || name = "-h" || name = "help" then help
    else unknown name
where
  runMisused : Command := misused "run" "run <source> [--input <file>]"

/-- The names of the files that a command reads. -/
def files : Command → List String
  | run source input => source :: input.toList
  | check source => [source]
  | disassemble source => [source]
  | _ => []

end Command

namespace Response

def cannotRead (name reason : String) : Response :=
  ⟨11, "", s!"error: cannot read '{name}': {reason}\n"⟩

/-- The response to a run that ended. -/
def ofRun (output : Output) : Outcome → Response
  | .ok ending => ⟨ending.code, output.text .out, output.text .err⟩
  | .error f => ⟨f.exitCode, output.text .out, output.text .err ++ s!"runtime error: {f.message}\n"⟩

/-- The response to a check of a program's labels. -/
def ofCheck (source : String) (p : Program) : Response :=
  match Labels.collect p with
  | .error f => ⟨f.exitCode, "", s!"error: {f.message}\n"⟩
  | .ok labels => ⟨0, s!"OK: {source} ({p.length} instructions, {labels.size} labels)\n", ""⟩

end Response

/-- The program in a source file, or the response that says why there is none. -/
def loadFile (entries : String → Entry) (source : String) : Except Response Program :=
  match entries source with
  | .unreadable reason => .error (Response.cannotRead source reason)
  | .directory => .error (Response.cannotRead source "Is a directory (os error 21)")
  | .file bytes =>
    match String.fromUTF8? bytes with
    | none => .error (Response.cannotRead source "stream did not contain valid UTF-8")
    | some text =>
      match Program.load text with
      | .error e => .error ⟨32, "", s!"error: {source}: {e.message}\n"⟩
      | .ok p => .ok p

/-- The input for a run: a named file, or the standard input. Nothing can be read from a directory. -/
def openInput (entries : String → Entry) (stdin : ByteArray) :
    Option String → Except Response Input
  | none => .ok (Input.ofBytes stdin)
  | some path =>
    match entries path with
    | .unreadable reason => .error (Response.cannotRead path reason)
    | .directory => .ok Input.empty
    | .file bytes => .ok (Input.ofBytes bytes)

/-- The response to a command; there is none if a run takes more than the given number of steps. -/
def Command.respond (fuel : Nat) (entries : String → Entry) (stdin : ByteArray) :
    Command → Option Response
  | help => some ⟨0, "", usage⟩
  | noCommand => some ⟨10, "", usage⟩
  | unknown name => some ⟨10, "", s!"error: unknown command '{name}'\n\n" ++ usage⟩
  | misused name usage =>
    some ⟨10, "", s!"error: {name} requires a source file\nUsage: ippvm {usage}\n"⟩
  | run source input =>
    match loadFile entries source with
    | .error r => some r
    | .ok p =>
      match openInput entries stdin input with
      | .error r => some r
      | .ok lines =>
        let (m, outcome) := p.run fuel lines Device.reliable
        outcome.map (Response.ofRun m.output)
  | check source =>
    match loadFile entries source with
    | .error r => some r
    | .ok p => some (Response.ofCheck source p)
  | disassemble source =>
    match loadFile entries source with
    | .error r => some r
    | .ok p => some ⟨0, p.listing, ""⟩

end FrameMachine
