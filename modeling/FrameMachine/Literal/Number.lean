import FrameMachine.Binary64.Decimal
import FrameMachine.Binary64.Hexadecimal

/-! # Number literals -/

namespace FrameMachine.Literal

open Numeral

/-- The magnitude of an integer literal: decimal, or hexadecimal after `0x`, or octal after `0o`. -/
def magnitude? : List Char → Option Nat
  | '0' :: 'x' :: ds => read? 16 ds
  | '0' :: 'X' :: ds => read? 16 ds
  | '0' :: 'o' :: ds => read? 8 ds
  | '0' :: 'O' :: ds => read? 8 ds
  | ds => read? 10 ds

/-- An integer literal: an optional sign and a magnitude, within the signed 64-bit range. -/
def integer? (s : String) : Option Int64 := do
  let (negative, rest) := splitSign s.toList
  let n := signed negative (← magnitude? rest)
  if fitsWord n then some (Int64.ofInt n) else none

/-- The unsigned part of a real literal: hexadecimal after `0x`, otherwise decimal. -/
def unsignedReal? : List Char → Option Binary64
  | '0' :: 'x' :: cs => Binary64.hexadecimal? cs
  | '0' :: 'X' :: cs => Binary64.hexadecimal? cs
  | cs => Binary64.decimal? cs

/-- A real literal: an optional sign and an unsigned number. -/
def real? (s : String) : Option Binary64 :=
  let (negative, rest) := splitSign s.toList
  (unsignedReal? rest).map fun x => if negative then x.neg else x

/-- The written form of an integer. -/
def integerText (n : Int64) : String :=
  let ds := Nat.toDigits 10 n.toInt.natAbs
  String.ofList (if n.toInt < 0 then '-' :: ds else ds)

/-- The written form of a real number. -/
def realText (x : Binary64) : String := String.ofList x.text

end FrameMachine.Literal
