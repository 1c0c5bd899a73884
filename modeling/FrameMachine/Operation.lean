import FrameMachine.Evaluate
import FrameMachine.Program

/-! # Operations

An operation is an instruction whose arguments have been checked against the opcode's shapes and read.
What can go wrong here depends on the instruction alone. -/

namespace FrameMachine

inductive Symbol where
  | var (x : Variable)
  | literal (v : Value)
deriving DecidableEq

def Operand.symbol? : Operand → Option Symbol
  | .var x => some (.var x)
  | .literal v => some (.literal v)
  | _ => none

inductive Operation where
  | move (target : Variable) (source : Symbol)
  | typeOf (target : Variable) (source : Symbol)
  | createFrame
  | pushFrame
  | popFrame
  | declare (x : Variable)
  | call (label : String)
  | return
  | label (name : String)
  | jump (label : String)
  /-- Jumps if the equality of the two symbols is `wanted`. -/
  | jumpIf (wanted : Bool) (label : String) (a b : Symbol)
  | exit (status : Symbol)
  | push (source : Symbol)
  | pop (target : Variable)
  /-- Assigns the result of an opcode on the values of symbols. -/
  | compute (opcode : Opcode) (target : Variable) (sources : List Symbol)
  /-- Replaces a character in the text that the variable holds. -/
  | setChar (target : Variable) (index source : Symbol)
  | read (target : Variable) (t : DataType)
  | write (source : Symbol)
  | debugWrite (source : Symbol)
  | break
deriving DecidableEq

namespace Operation

/-! ## Operands by shape -/

def nullary (op : Operation) : List Operand → Option Operation
  | [] => some op
  | _ => none

def onVariable (f : Variable → Operation) : List Operand → Option Operation
  | [.var x] => some (f x)
  | _ => none

def onLabel (f : String → Operation) : List Operand → Option Operation
  | [.label l] => some (f l)
  | _ => none

def onSymbol (f : Symbol → Operation) : List Operand → Option Operation
  | [a] => a.symbol?.map f
  | _ => none

def onVariableSymbol (f : Variable → Symbol → Operation) : List Operand → Option Operation
  | [.var x, a] => a.symbol?.map (f x)
  | _ => none

def onVariableType (f : Variable → DataType → Operation) : List Operand → Option Operation
  | [.var x, .type t] => some (f x t)
  | _ => none

def onVariableSymbols (f : Variable → Symbol → Symbol → Operation) :
    List Operand → Option Operation
  | [.var x, a, b] => do return f x (← a.symbol?) (← b.symbol?)
  | _ => none

def onLabelSymbols (f : String → Symbol → Symbol → Operation) : List Operand → Option Operation
  | [.label l, a, b] => do return f l (← a.symbol?) (← b.symbol?)
  | _ => none

/-- The operation of an opcode on operands of the opcode's shapes. -/
def ofOperands? (op : Opcode) (os : List Operand) : Option Operation :=
  match op with
  | .move => onVariableSymbol move os
  | .createframe => nullary createFrame os
  | .pushframe => nullary pushFrame os
  | .popframe => nullary popFrame os
  | .defvar => onVariable declare os
  | .call => onLabel call os
  | .return => nullary .return os
  | .pushs => onSymbol push os
  | .pops => onVariable pop os
  | .not | .int2char | .strlen => onVariableSymbol (fun x a => compute op x [a]) os
  | .add | .sub | .mul | .idiv | .lt | .gt | .eq | .and | .or | .stri2int | .concat | .getchar =>
    onVariableSymbols (fun x a b => compute op x [a, b]) os
  | .read => onVariableType read os
  | .write => onSymbol write os
  | .setchar => onVariableSymbols setChar os
  | .type => onVariableSymbol typeOf os
  | .label => onLabel label os
  | .jump => onLabel jump os
  | .jumpifeq => onLabelSymbols (jumpIf true) os
  | .jumpifneq => onLabelSymbols (jumpIf false) os
  | .exit => onSymbol exit os
  | .dprint => onSymbol debugWrite os
  | .break => nullary .break os

end Operation

/-! ## Reading an instruction -/

namespace Instruction

/-- The first argument, counted from `p`, that does not fit the shape at its place. -/
def misfit? (opcode : Opcode) : Nat → List Argument → List Shape → Option Fault
  | p, a :: as, s :: ss =>
    if a.kind.fits s then misfit? opcode (p + 1) as ss else some (.wrongOperand opcode p s a.kind)
  | _, _, _ => none

def checkShapes (i : Instruction) : Except Fault Unit :=
  if i.arguments.length ≠ i.opcode.arity then .error (.wrongArity i.opcode i.arguments.length)
  else match misfit? i.opcode 0 i.arguments i.opcode.shapes with
    | some f => .error f
    | none => .ok ()

/-- The fault that a defective argument causes. -/
def faultOfDefect : Defect → Fault
  | .invalidEscape text => .invalidEscape text
  | d => .malformed d

def readOperands : List Argument → Except Fault (List Operand)
  | [] => .ok []
  | a :: as =>
    match a.operand with
    | .error d => .error (faultOfDefect d)
    | .ok o => (readOperands as).map (o :: ·)

/-- The operation of an instruction, or the fault that executing it causes in every state. -/
def operation (i : Instruction) : Except Fault Operation := do
  i.checkShapes
  let os ← readOperands i.arguments
  match Operation.ofOperands? i.opcode os with
  | some (.read x t) => return .read x (← requireReadable t)
  | some op => return op
  | none => throw (.internal "operands do not have the shapes of the opcode")

end Instruction

end FrameMachine
