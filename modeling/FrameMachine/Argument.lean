import FrameMachine.Opcode
import FrameMachine.Value

/-! # Arguments and the operands they denote

An argument is what an instruction carries: a declared kind and a text. Its operand is what the text
means for that kind; reading it may fail with a `Defect`. -/

namespace FrameMachine

/-- The frame that a variable is addressed in. -/
inductive Scope where
  | gf
  | lf
  | tf
deriving DecidableEq

def Scope.name : Scope → String
  | .gf => "GF"
  | .lf => "LF"
  | .tf => "TF"

def Scope.ofName? (s : String) : Option Scope :=
  [Scope.gf, .lf, .tf].find? (·.name = s)

/-- The part of a text before the first `@` and the part after it. -/
def splitAtSign (s : String) : Option (String × String) :=
  match s.toList.dropWhile (· ≠ '@') with
  | [] => none
  | _ :: rest => some (String.ofList (s.toList.takeWhile (· ≠ '@')), String.ofList rest)

/-- A reference to a variable. -/
structure Variable where
  scope : Scope
  name : String
deriving DecidableEq

namespace Variable

def text (x : Variable) : String := x.scope.name ++ "@" ++ x.name

def ofText? (s : String) : Option Variable := do
  let (scope, name) ← splitAtSign s
  let scope ← Scope.ofName? scope
  if name.isEmpty then none else some ⟨scope, name⟩

end Variable

/-! ## Defects -/

/-- The declared kind of an argument. -/
inductive Kind where
  | var
  | label
  | type
  | literal (t : DataType)
deriving DecidableEq

namespace Kind

def all : List Kind := [var, label, type] ++ DataType.all.map literal

def name : Kind → String
  | var => "var"
  | label => "label"
  | type => "type"
  | literal t => t.name

def ofName? (s : String) : Option Kind := all.find? (·.name = s)

def isLiteral : Kind → Bool
  | literal _ => true
  | _ => false

/-- Whether an argument of this kind may stand at an operand position of the given shape. -/
def fits (k : Kind) : Shape → Bool
  | .var => k = var
  | .symb => k = var || k.isLiteral
  | .label => k = label
  | .type => k = type

end Kind

/-- What is wrong with an instruction or with a list of instructions. -/
inductive Defect where
  | unknownOpcode (name : String)
  | invalidOrder (order : Int)
  | duplicateOrder (order : Int)
  | argumentGap (order : Int) (position : Nat)
  | invalidLiteral (kind : Kind) (text : String)
  | invalidVariable (text : String)
  | invalidEscape (text : String)
  | invalidTypeName (text : String)
deriving DecidableEq

def Defect.message : Defect → String
  | unknownOpcode name => s!"unknown opcode '{name}'"
  | invalidOrder order => s!"invalid instruction order {order} (must be positive)"
  | duplicateOrder order => s!"duplicate instruction order {order}"
  | argumentGap order position => s!"instruction {order}: argument {position} is missing or repeated"
  | invalidLiteral kind text => s!"invalid {kind.name} literal '{text}'"
  | invalidVariable text => s!"invalid variable '{text}'"
  | invalidEscape text => s!"invalid escape sequence in string literal '{text}'"
  | invalidTypeName text => s!"invalid type name '{text}'"

/-! ## Arguments -/

structure Argument where
  position : Nat
  kind : Kind
  text : String
deriving DecidableEq

inductive Operand where
  | var (x : Variable)
  | literal (v : Value)
  | label (name : String)
  | type (t : DataType)
deriving DecidableEq

namespace Argument

/-- The argument as it is written in source code. -/
def source (a : Argument) : String :=
  match a.kind with
  | .literal t => t.name ++ "@" ++ a.text
  | _ => a.text

def operand (a : Argument) : Except Defect Operand :=
  match a.kind with
  | .var =>
    match Variable.ofText? a.text with
    | some x => .ok (.var x)
    | none => .error (.invalidVariable a.text)
  | .label => if a.text.isEmpty then .error (.invalidLiteral .label a.text) else .ok (.label a.text)
  | .type =>
    match DataType.ofName? a.text with
    | some t => .ok (.type t)
    | none => .error (.invalidTypeName a.text)
  | .literal t =>
    match Value.ofPayload? t a.text with
    | some v => .ok (.literal v)
    | none => .error (if t = .string then .invalidEscape a.text else .invalidLiteral (.literal t) a.text)

end Argument

end FrameMachine
