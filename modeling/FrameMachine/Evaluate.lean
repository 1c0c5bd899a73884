import FrameMachine.Fault

/-! # Evaluation of operand values

`evaluate` gives the result of an opcode that computes a value. The types of the operands must be a row
of the opcode's table, which the definition of `result?` spells out; every other list of operands is a
type mismatch. -/

namespace FrameMachine

namespace Value

/-- How a value compares with another one of the same type, if the type has an order. A NaN is not ordered. -/
def compare? : Value → Value → Option (Option Ordering)
  | int a, int b => some (some (compare a b))
  | float x, float y => some (x.compare? y)
  | string s, string t => some (some (compare s t))
  | bool a, bool b => some (some (compare a b))
  | _, _ => none

/-- Whether two values of one type that has an order are in the wanted one. -/
def ordered? (wanted : Ordering) (a b : Value) : Option Bool := (a.compare? b).map fun o => o = some wanted

/-- Whether two values are equal, for values of one type and for nil, which equals only itself. -/
def equal? : Value → Value → Option Bool
  | nil, b => some (b = nil)
  | a, nil => some (a = nil)
  | int a, int b => some (a = b)
  | float x, float y => some (x.compare? y = some .eq)
  | string s, string t => some (s = t)
  | bool a, bool b => some (a = b)
  | _, _ => none

end Value

/-- The index of a character, if it is one of the text's. -/
def charIndex (cs : List Char) (i : Int64) : Except Fault Nat :=
  if 0 ≤ i.toInt ∧ i.toInt < cs.length then .ok i.toInt.toNat
  else .error (.indexOutOfRange i cs.length)

def charAt (s : String) (i : Int64) : Except Fault Char := do
  let k ← charIndex s.toList i
  match s.toList[k]? with
  | some c => .ok c
  | none => .error (.internal "character index checked but missing")

def charOfCode (n : Int64) : Except Fault Char :=
  if 0 ≤ n.toInt ∧ n.toInt.toNat.isValidChar then .ok (Char.ofNat n.toInt.toNat)
  else .error (.invalidCodePoint n)

/-- The text with the character at an index replaced by the first character of another text. -/
def replaceChar (s : String) (i : Int64) (source : String) : Except Fault String :=
  match source.toList with
  | [] => .error .emptyReplacement
  | c :: _ => do
    let k ← charIndex s.toList i
    return String.ofList (s.toList.set k c)

def integers? (f : Int64 → Int64 → Except Fault Value) : List Value → Option (Except Fault Value)
  | [.int a, .int b] => some (f a b)
  | _ => none

def comparison? (f : Value → Value → Option Bool) : List Value → Option (Except Fault Value)
  | [a, b] => (f a b).map fun r => .ok (.bool r)
  | _ => none

def truths? (f : Bool → Bool → Bool) : List Value → Option (Except Fault Value)
  | [.bool a, .bool b] => some (.ok (.bool (f a b)))
  | _ => none

def character? (f : Char → Value) : List Value → Option (Except Fault Value)
  | [.string s, .int i] => some ((charAt s i).map f)
  | _ => none

/-- The result of an opcode; `none` when the types of the operands are not a row of its table. -/
def result? (op : Opcode) (vs : List Value) : Option (Except Fault Value) :=
  match op with
  | .add => integers? (fun a b => .ok (.int (a + b))) vs
  | .sub => integers? (fun a b => .ok (.int (a - b))) vs
  | .mul => integers? (fun a b => .ok (.int (a * b))) vs
  | .idiv => integers? (fun a b => if b = 0 then .error .divisionByZero else .ok (.int (a / b))) vs
  | .lt => comparison? (Value.ordered? .lt) vs
  | .gt => comparison? (Value.ordered? .gt) vs
  | .eq => comparison? Value.equal? vs
  | .and => truths? and vs
  | .or => truths? or vs
  | .not =>
    match vs with
    | [.bool a] => some (.ok (.bool !a))
    | _ => none
  | .concat =>
    match vs with
    | [.string s, .string t] => some (.ok (.string (s ++ t)))
    | _ => none
  | .strlen =>
    match vs with
    | [.string s] => some (.ok (.int (Int64.ofNat s.toList.length)))
    | _ => none
  | .getchar => character? (fun c => .string (String.ofList [c])) vs
  | .stri2int => character? (fun c => .int (Int64.ofNat c.toNat)) vs
  | .int2char =>
    match vs with
    | [.int n] => some ((charOfCode n).map fun c => .string (String.ofList [c]))
    | _ => none
  | .setchar =>
    match vs with
    | [.string s, .int i, .string source] => some ((replaceChar s i source).map .string)
    | _ => none
  | _ => none

def evaluate (op : Opcode) (vs : List Value) : Except Fault Value :=
  match result? op vs with
  | some r => r
  | none => .error (.typeMismatch op (vs.map Value.type))

/-- Equality as an opcode tests it. -/
def testEqual (op : Opcode) (a b : Value) : Except Fault Bool :=
  match a.equal? b with
  | some r => .ok r
  | none => .error (.typeMismatch op [a.type, b.type])

/-- The exit status that a value stands for. -/
def exitStatus : Value → Except Fault (Fin 10)
  | .int n =>
    if h : 0 ≤ n.toInt ∧ n.toInt ≤ 9 then .ok ⟨n.toInt.toNat, by omega⟩
    else .error (.exitCodeOutOfRange n)
  | v => .error (.typeMismatch .exit [v.type])

/-- The name of a value's type as a value; a variable without a value has the empty name. -/
def typeName : Option Value → Value
  | some v => .string v.type.name
  | none => .string ""

def requireReadable (t : DataType) : Except Fault DataType :=
  if t.isReadable then .ok t else .error (.unreadableType t)

end FrameMachine
