import FrameMachine.Machine.Basic

/-! # Performing operations

What an operation does is an action on the machine that may fail. An action that fails leaves the
changes it has made, so each operation checks all that it needs before it changes anything. -/

namespace FrameMachine

/-- An action on the machine. -/
abbrev Action := EStateM Fault Machine

namespace Action

def ofExcept {α : Type} : Except Fault α → Action α
  | .ok a => pure a
  | .error f => throw f

/-! ## Parts of operations -/

def lookup (x : Variable) : Action (Option Value) := do
  ofExcept ((← get).frames.lookup x)

def requireVisible (x : Variable) : Action Unit := do
  let _ ← lookup x

def valueOf : Symbol → Action Value
  | .literal v => pure v
  | .var x => do
    match ← lookup x with
    | some v => pure v
    | none => throw (.uninitializedVariable x)

def valuesOf : List Symbol → Action (List Value)
  | [] => pure []
  | a :: as => do
    let v ← valueOf a
    let vs ← valuesOf as
    return v :: vs

/-- The value of a symbol for `TYPE`, to which a variable without a value may be given. -/
def valueOf? : Symbol → Action (Option Value)
  | .literal v => pure (some v)
  | .var x => lookup x

def setFrames (s : Frames) : Action Unit := modify fun m => { m with frames := s }

def assign (x : Variable) (v : Value) : Action Unit := do
  setFrames (← ofExcept ((← get).frames.assign x v))

def jumpTo (index : Nat) : Action Unit := modify fun m => { m with pc := index }

def target (label : String) : Action Nat := do
  match (← get).labels.find? label with
  | some index => pure index
  | none => throw (.undefinedLabel label)

def pushCall : Action Unit := modify fun m => { m with calls := m.pc :: m.calls }

def popCall : Action Nat := do
  match (← get).calls with
  | [] => throw .emptyCallStack
  | index :: rest =>
    modify fun m => { m with calls := rest }
    return index

def pushValue (v : Value) : Action Unit := modify fun m => { m with values := v :: m.values }

def popValue : Action Value := do
  match (← get).values with
  | [] => throw .emptyValueStack
  | v :: rest =>
    modify fun m => { m with values := rest }
    return v

/-- Reads a value; what cannot be read is nil. -/
def readValue (t : DataType) : Action Value := do
  let (v, rest) := (← get).input.read t
  modify fun m => { m with input := rest }
  return v.getD .nil

def write (stream : Stream) (text : String) : Action Unit := do
  let (o, reason) := (← get).output.write ⟨stream, text⟩
  modify fun m => { m with output := o }
  match reason with
  | none => pure ()
  | some r => throw (.output r)

/-! ## Operations -/

/-- Performs the operation of an instruction of a program. The result is the exit status if the
operation ends the program. -/
def perform (p : Program) (i : Instruction) : Operation → Action (Option (Fin 10))
  | .move x a => do
    requireVisible x
    assign x (← valueOf a)
    return none
  | .typeOf x a => do
    requireVisible x
    assign x (typeName (← valueOf? a))
    return none
  | .createFrame => do
    setFrames (← get).frames.create
    return none
  | .pushFrame => do
    setFrames (← ofExcept (← get).frames.push)
    return none
  | .popFrame => do
    setFrames (← ofExcept (← get).frames.pop)
    return none
  | .declare x => do
    setFrames (← ofExcept ((← get).frames.declare x))
    return none
  | .call label => do
    let index ← target label
    pushCall
    jumpTo index
    return none
  | .return => do
    jumpTo (← popCall)
    return none
  | .label _ => return none
  | .jump label => do
    jumpTo (← target label)
    return none
  | .jumpIf wanted label a b => do
    let index ← target label
    let v ← valueOf a
    let w ← valueOf b
    let equal ← ofExcept (testEqual i.opcode v w)
    if equal = wanted then
      jumpTo index
    return none
  | .exit a => do
    let v ← valueOf a
    return some (← ofExcept (exitStatus v))
  | .push a => do
    pushValue (← valueOf a)
    return none
  | .pop x => do
    requireVisible x
    assign x (← popValue)
    return none
  | .compute op x as => do
    requireVisible x
    let vs ← valuesOf as
    assign x (← ofExcept (evaluate op vs))
    return none
  | .setChar x a b => do
    let vs ← valuesOf [.var x, a, b]
    assign x (← ofExcept (evaluate .setchar vs))
    return none
  | .read x t => do
    requireVisible x
    assign x (← readValue t)
    return none
  | .write a => do
    write .out (← valueOf a).render
    return none
  | .debugWrite a => do
    write .err (← valueOf a).render
    return none
  | .break => do
    write .err ((← get).report p i.order)
    return none

/-- Executes an instruction. Labels have been collected before, and do nothing. -/
def execute (p : Program) (i : Instruction) : Action (Option (Fin 10)) := do
  if i.opcode = .label then
    return none
  else
    perform p i (← ofExcept i.operation)

end Action

end FrameMachine
