import FrameMachine.Frames.Store
import FrameMachine.Input
import FrameMachine.Labels
import FrameMachine.Output

/-! # The state of a running program -/

namespace FrameMachine

structure Machine where
  frames : Frames
  labels : Labels
  /-- The indices to return to, the latest first. -/
  calls : List Nat
  /-- The value stack, its top first. -/
  values : List Value
  /-- The index of the next instruction. -/
  pc : Nat
  /-- The index of the instruction being executed. -/
  current : Option Nat
  /-- The index of the instruction executed before it. -/
  last : Option Nat
  /-- How many instructions other than labels have been executed. The count has no limit; one of 64 bits is
  the same in runs of fewer than `2 ^ 64` steps. -/
  executed : Nat
  input : Input
  output : Output

namespace Machine

def start (input : Input) (device : Device) : Machine where
  frames := Frames.empty
  labels := Labels.empty
  calls := []
  values := []
  pc := 0
  current := none
  last := none
  executed := 0
  input := input
  output := Output.start device

/-- The machine that is about to execute an instruction. -/
def advance (m : Machine) (i : Instruction) : Machine :=
  { m with
    last := m.current
    current := some m.pc
    pc := m.pc + 1
    executed := if i.opcode = .label then m.executed else m.executed + 1 }

/-- The index that a failure or a report names. -/
def currentIndex (m : Machine) : Nat := m.current.getD 0

/-! ## Report -/

/-- An instruction with its index and order number. -/
def describe (p : Program) (index : Nat) : Option String :=
  (p.get? index).map fun i => s!"[{index}] order {i.order}: {i.source}"

/-- The report on the state that `BREAK` writes, for an instruction of the given order number. -/
def report (m : Machine) (p : Program) (order : Int) : String :=
  let calls := Text.join ", " (m.calls.reverse.map toString)
  Text.concat [
    s!"BREAK at [{m.currentIndex}] order {order}\n",
    s!"executed: {m.executed}\n",
    "last: " ++ (m.last.bind (describe p)).getD "<none>" ++ "\n",
    "next: " ++ (describe p m.pc).getD "<end>" ++ "\n",
    s!"call stack: [{calls}], value stack depth: {m.values.length}\n",
    m.frames.text]

end Machine

end FrameMachine
