import FrameMachine.Literal.Escape
import FrameMachine.Literal.Number

/-! # Data types and values -/

namespace FrameMachine

inductive DataType where
  | int
  | float
  | string
  | bool
  | nil
deriving DecidableEq

namespace DataType

def all : List DataType := [int, float, string, bool, nil]

def name : DataType → String
  | int => "int"
  | float => "float"
  | string => "string"
  | bool => "bool"
  | nil => "nil"

def ofName? (s : String) : Option DataType := all.find? (·.name = s)

/-- Whether values of the type can be read from the input. -/
def isReadable (t : DataType) : Bool := t ≠ nil

end DataType

inductive Value where
  | int (n : Int64)
  | float (x : Binary64)
  | string (s : String)
  | bool (b : Bool)
  | nil
deriving DecidableEq

def Literal.truth? (s : String) : Option Bool :=
  if s = "true" then some true else if s = "false" then some false else none

def Literal.truthText (b : Bool) : String := if b then "true" else "false"

namespace Value

def type : Value → DataType
  | int _ => .int
  | float _ => .float
  | string _ => .string
  | bool _ => .bool
  | nil => .nil

/-- The text of a value as it is written to an output stream. -/
def render : Value → String
  | int n => Literal.integerText n
  | float x => Literal.realText x
  | string s => s
  | bool b => Literal.truthText b
  | nil => ""

/-- The text of a value in source code, without its type. -/
def payload : Value → String
  | string s => Literal.encode s
  | nil => "nil"
  | v => v.render

/-- The text of a value in source code. -/
def literal (v : Value) : String := v.type.name ++ "@" ++ v.payload

/-- The value of a type that a literal's text denotes. -/
def ofPayload? (t : DataType) (s : String) : Option Value :=
  match t with
  | .int => (Literal.integer? s).map int
  | .float => (Literal.real? s).map float
  | .string => (Literal.decode? s).map string
  | .bool => (Literal.truth? s).map bool
  | .nil => if s = "nil" then some nil else none

end Value

end FrameMachine
