import FrameMachine.Machine.Perform

/-! # Running a program

`step` executes the next instruction. A run repeats it until the program ends or fails, or until the
given number of steps is used up; the machine can be run again from where it stopped, which after a
failure or an exit is the following instruction. -/

namespace FrameMachine

inductive Ending where
  | completed
  | exit (status : Fin 10)
deriving DecidableEq

def Ending.code : Ending → Nat
  | completed => 0
  | exit status => status

/-- How a run ended, successfully or not. -/
abbrev Outcome := Except Failure Ending

namespace Machine

/-- Executes the next instruction. There is an outcome if the run ends with it. -/
def step (p : Program) (m : Machine) : Machine × Option Outcome :=
  match p.get? m.pc with
  | none => (m, some (.ok .completed))
  | some i =>
    match Action.execute p i (m.advance i) with
    | .ok none next => (next, none)
    | .ok (some status) next => (next, some (.ok (.exit status)))
    | .error f next => (next, some (.error ⟨next.currentIndex, f⟩))

/-- Takes steps until there is an outcome, at most the given number of them. -/
def run (p : Program) : Nat → Machine → Machine × Option Outcome
  | 0, m => (m, none)
  | fuel + 1, m =>
    match m.step p with
    | (next, none) => run p fuel next
    | (next, some outcome) => (next, some outcome)

/-- Collects the labels of the program and runs it. -/
def execute (p : Program) (fuel : Nat) (m : Machine) : Machine × Option Outcome :=
  match Labels.collect p with
  | .error f => (m, some (.error f))
  | .ok labels => run p fuel { m with labels := labels }

end Machine

/-- Runs a program from the start and flushes its output. A failure of the run is reported before a
failure to flush. -/
def Program.run (p : Program) (fuel : Nat) (input : Input) (device : Device) :
    Machine × Option Outcome :=
  match (Machine.start input device).execute p fuel with
  | (m, none) => (m, none)
  | (m, some outcome) =>
    let (output, reason) := m.output.flush
    let flushed : Outcome := match outcome, reason with
      | .ok _, some r => .error ⟨p.length, .output r⟩
      | outcome, _ => outcome
    ({ m with output := output }, some flushed)

end FrameMachine
