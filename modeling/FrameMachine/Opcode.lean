import FrameMachine.Text.Case

/-! # Opcodes and the shapes of their operands -/

namespace FrameMachine

/-- What an operand position takes: a variable, a symbol (variable or literal), a label or the name of
a type. -/
inductive Shape where
  | var
  | symb
  | label
  | type
deriving DecidableEq

def Shape.all : List Shape := [.var, .symb, .label, .type]

def Shape.name : Shape → String
  | .var => "Var"
  | .symb => "Symb"
  | .label => "Label"
  | .type => "Type"

/-- The name of a shape in messages about source text. -/
def Shape.word : Shape → String
  | .var => "var"
  | .symb => "symb"
  | .label => "label"
  | .type => "type"

inductive Opcode where
  | move
  | createframe
  | pushframe
  | popframe
  | defvar
  | call
  | return
  | pushs
  | pops
  | add
  | sub
  | mul
  | idiv
  | lt
  | gt
  | eq
  | and
  | or
  | not
  | int2char
  | stri2int
  | read
  | write
  | concat
  | strlen
  | getchar
  | setchar
  | type
  | label
  | jump
  | jumpifeq
  | jumpifneq
  | exit
  | dprint
  | break
deriving DecidableEq

namespace Opcode

def all : List Opcode :=
  [move, createframe, pushframe, popframe, defvar, call, .return, pushs, pops, add, sub, mul, idiv, lt,
    gt, eq, and, or, not, int2char, stri2int, read, write, concat, strlen, getchar, setchar, type, label,
    jump, jumpifeq, jumpifneq, exit, dprint, .break]

def mnemonic : Opcode → String
  | move => "MOVE"
  | createframe => "CREATEFRAME"
  | pushframe => "PUSHFRAME"
  | popframe => "POPFRAME"
  | defvar => "DEFVAR"
  | call => "CALL"
  | .return => "RETURN"
  | pushs => "PUSHS"
  | pops => "POPS"
  | add => "ADD"
  | sub => "SUB"
  | mul => "MUL"
  | idiv => "IDIV"
  | lt => "LT"
  | gt => "GT"
  | eq => "EQ"
  | and => "AND"
  | or => "OR"
  | not => "NOT"
  | int2char => "INT2CHAR"
  | stri2int => "STRI2INT"
  | read => "READ"
  | write => "WRITE"
  | concat => "CONCAT"
  | strlen => "STRLEN"
  | getchar => "GETCHAR"
  | setchar => "SETCHAR"
  | type => "TYPE"
  | label => "LABEL"
  | jump => "JUMP"
  | jumpifeq => "JUMPIFEQ"
  | jumpifneq => "JUMPIFNEQ"
  | exit => "EXIT"
  | dprint => "DPRINT"
  | .break => "BREAK"

/-- The shapes of the operands, in order. -/
def shapes : Opcode → List Shape
  | createframe | pushframe | popframe | .return | .break => []
  | defvar | pops => [.var]
  | call | label | jump => [.label]
  | pushs | write | exit | dprint => [.symb]
  | move | not | int2char | strlen | type => [.var, .symb]
  | read => [.var, .type]
  | add | sub | mul | idiv | lt | gt | eq | and | or | stri2int | concat | getchar | setchar =>
    [.var, .symb, .symb]
  | jumpifeq | jumpifneq => [.label, .symb, .symb]

def arity (op : Opcode) : Nat := op.shapes.length

/-- The opcode with a mnemonic, in any case. -/
def ofName? (s : String) : Option Opcode :=
  all.find? fun op => Text.sameLetters op.mnemonic.toList s.toList

end Opcode

end FrameMachine
