import FrameMachine.Numeral

/-! # Escapes in string literals

A string literal writes the character with code `DDD` as `\DDD`, three decimal digits. The codes that
may be written so are those of the ASCII control characters and the space, of `#` and of `\`; these
characters are always written so by `encode`. -/

namespace FrameMachine.Literal

def isEscapable (code : Nat) : Bool := code ≤ 32 || code == 35 || code == 92

/-- The code that three decimal digits name. -/
def escapeCode? (a b c : Char) : Option Nat :=
  if a.isDigit && b.isDigit && c.isDigit then Numeral.read? 10 [a, b, c] else none

/-- Replaces each escape by the character it names; fails if a backslash starts none. -/
def decodeChars : List Char → Option (List Char)
  | [] => some []
  | '\\' :: a :: b :: c :: rest => do
    let code ← escapeCode? a b c
    if isEscapable code then (decodeChars rest).map (Char.ofNat code :: ·) else none
  | ch :: rest => if ch = '\\' then none else (decodeChars rest).map (ch :: ·)

/-- Writes each escapable character as an escape. -/
def encodeChars : List Char → List Char
  | [] => []
  | ch :: rest =>
    if isEscapable ch.toNat then '\\' :: Numeral.padded 10 3 ch.toNat ++ encodeChars rest
    else ch :: encodeChars rest

/-- Whether every backslash is followed by three decimal digits, whatever code they name. -/
def escapesWellFormed : List Char → Bool
  | [] => true
  | '\\' :: a :: b :: c :: rest => a.isDigit && b.isDigit && c.isDigit && escapesWellFormed rest
  | ch :: rest => ch != '\\' && escapesWellFormed rest

def decode? (s : String) : Option String := (decodeChars s.toList).map String.ofList

def encode (s : String) : String := String.ofList (encodeChars s.toList)

end FrameMachine.Literal
