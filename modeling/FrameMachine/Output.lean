import FrameMachine.Text.Join

/-! # Output

Texts are written to one of two streams of a device, which may refuse a write. Every attempt is kept,
so that the writes that took place can be told afterwards. -/

namespace FrameMachine

inductive Stream where
  | out
  | err
deriving DecidableEq

structure Write where
  stream : Stream
  text : String
deriving DecidableEq

structure Attempt where
  write : Write
  accepted : Bool
deriving DecidableEq

/-- A device decides about a write from the attempts before it, the latest first, and gives the reason
of a refusal. -/
structure Device where
  refusal : List Attempt → Write → Option String
  flushRefusal : Option String

namespace Device

/-- Accepts everything. -/
def reliable : Device := ⟨fun _ _ => none, none⟩

def closedReason : Stream → String
  | .out => "stdout closed"
  | .err => "stderr closed"

/-- Accepts as many writes to each stream as its limit allows. -/
def limited (limit : Stream → Option Nat) (flushRefusal : Option String) : Device where
  refusal attempts w :=
    match limit w.stream with
    | none => none
    | some n =>
      if (attempts.filter (·.write.stream = w.stream)).length < n then none
      else some (closedReason w.stream)
  flushRefusal := flushRefusal

end Device

structure Output where
  device : Device
  /-- All attempts to write, the latest first. -/
  attempts : List Attempt
  flushes : Nat

namespace Output

def start (device : Device) : Output := ⟨device, [], 0⟩

/-- Attempts a write; the second component is the reason if it is refused. -/
def write (o : Output) (w : Write) : Output × Option String :=
  let reason := o.device.refusal o.attempts w
  ({ o with attempts := ⟨w, reason.isNone⟩ :: o.attempts }, reason)

def flush (o : Output) : Output × Option String :=
  ({ o with flushes := o.flushes + 1 }, o.device.flushRefusal)

/-- The writes that took place, the earliest first. -/
def writes (o : Output) : List Write := ((o.attempts.filter (·.accepted)).map (·.write)).reverse

/-- All that was written to a stream. -/
def text (o : Output) (s : Stream) : String :=
  Text.concat ((o.writes.filter (·.stream = s)).map (·.text))

end Output

end FrameMachine
