import FrameMachine.Argument
import FrameMachine.Text.Join

/-! # Faults

A fault is the cause for which an instruction fails; a failure is a fault and the index of the
instruction. Each fault belongs to a category, and each category has an exit code. -/

namespace FrameMachine

inductive Fault where
  | malformed (defect : Defect)
  | wrongArity (opcode : Opcode) (found : Nat)
  | wrongOperand (opcode : Opcode) (position : Nat) (expected : Shape) (found : Kind)
  | unreadableType (t : DataType)
  | undefinedLabel (label : String)
  | labelRedefined (label : String) (first : Nat)
  | variableRedeclared (x : Variable)
  | typeMismatch (opcode : Opcode) (found : List DataType)
  | undeclaredVariable (x : Variable)
  | uninitializedVariable (x : Variable)
  | frameNotAvailable (scope : Scope)
  | emptyCallStack
  | emptyValueStack
  | divisionByZero
  | exitCodeOutOfRange (code : Int64)
  | indexOutOfRange (index : Int64) (length : Nat)
  | invalidCodePoint (code : Int64)
  | invalidEscape (text : String)
  | emptyReplacement
  | output (reason : String)
  | internal (reason : String)
deriving DecidableEq

inductive Category where
  | structural
  | semantic
  | operandType
  | undefinedVariable
  | frameAccess
  | missingValue
  | operandValue
  | stringOperation
  | internal
deriving DecidableEq

def Category.exitCode : Category → Nat
  | structural => 32
  | semantic => 52
  | operandType => 53
  | undefinedVariable => 54
  | frameAccess => 55
  | missingValue => 56
  | operandValue => 57
  | stringOperation => 58
  | internal => 99

def Fault.category : Fault → Category
  | malformed _ | wrongArity .. | wrongOperand .. | unreadableType _ => .structural
  | undefinedLabel _ | labelRedefined .. | variableRedeclared _ => .semantic
  | typeMismatch .. => .operandType
  | undeclaredVariable _ | uninitializedVariable _ => .undefinedVariable
  | frameNotAvailable _ => .frameAccess
  | emptyCallStack | emptyValueStack => .missingValue
  | divisionByZero | exitCodeOutOfRange _ => .operandValue
  | indexOutOfRange .. | invalidCodePoint _ | invalidEscape _ | emptyReplacement => .stringOperation
  | output _ | internal _ => .internal

structure Failure where
  index : Nat
  fault : Fault
deriving DecidableEq

namespace Failure

def exitCode (f : Failure) : Nat := f.fault.category.exitCode

def message (f : Failure) : String :=
  let i := f.index
  match f.fault with
  | .malformed defect => s!"instruction {i}: {defect.message}"
  | .wrongArity opcode found =>
    s!"{opcode.mnemonic} expects {opcode.arity} argument(s), found {found} at instruction {i}"
  | .wrongOperand opcode position expected found =>
    s!"{opcode.mnemonic} argument {position} must be {expected.name}, found {found.name} " ++
      s!"at instruction {i}"
  | .unreadableType t => s!"cannot read a value of type {t.name} at instruction {i}"
  | .undefinedLabel label => s!"undefined label '{label}' at instruction {i}"
  | .labelRedefined label first =>
    s!"label '{label}' redefined at instruction {i} (first defined at {first})"
  | .variableRedeclared x => s!"variable {x.text} redeclared at instruction {i}"
  | .typeMismatch opcode found =>
    let types := Text.join ", " (found.map DataType.name)
    s!"{opcode.mnemonic} cannot take operands of type {types} at instruction {i}"
  | .undeclaredVariable x => s!"variable {x.text} is not declared at instruction {i}"
  | .uninitializedVariable x => s!"variable {x.text} has no value at instruction {i}"
  | .frameNotAvailable scope => s!"frame {scope.name} does not exist at instruction {i}"
  | .emptyCallStack => s!"RETURN with empty call stack at instruction {i}"
  | .emptyValueStack => s!"POPS with empty value stack at instruction {i}"
  | .divisionByZero => s!"division by zero at instruction {i}"
  | .exitCodeOutOfRange code =>
    s!"exit code {Literal.integerText code} outside 0..=9 at instruction {i}"
  | .indexOutOfRange index length =>
    s!"string index {Literal.integerText index} out of range (length {length}) at instruction {i}"
  | .invalidCodePoint code =>
    s!"{Literal.integerText code} is not a Unicode code point at instruction {i}"
  | .invalidEscape text => s!"invalid escape sequence in '{text}' at instruction {i}"
  | .emptyReplacement => s!"SETCHAR with empty source string at instruction {i}"
  | .output reason => s!"output failed at instruction {i}: {reason}"
  | .internal reason => s!"internal error at instruction {i}: {reason}"

end Failure

end FrameMachine
