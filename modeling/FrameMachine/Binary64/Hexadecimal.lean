import FrameMachine.Binary64.Nearest
import FrameMachine.Numeral

/-! # Hexadecimal notation of binary64 numbers

Written form: the leading digit `1` (or `0` below the normal range), the thirteen fraction digits
without trailing zeros, and a binary exponent with its sign, as in `0x1.8p+1`. Read form: any hexadecimal
digits around at most one point, and an optional exponent. -/

namespace FrameMachine.Binary64

open Numeral

/-! ## Writing -/

/-- An integer with its sign always written. -/
def signedDecimal (e : Int) : List Char :=
  (if e < 0 then '-' else '+') :: Nat.toDigits 10 e.natAbs

/-- The fraction digits, without the zeros at their end. -/
def fractionDigits (x : Binary64) : List Char :=
  ((padded 16 13 x.fraction).reverse.dropWhile (· == '0')).reverse

/-- The written form of a number that is not a NaN, without its sign. -/
def unsignedText (x : Binary64) : List Char :=
  if x.isInfinite then ['i', 'n', 'f']
  else if x.magnitude = 0 then ['0', 'x', '0', 'p', '+', '0']
  else
    let lead := if x.exponentField = 0 then '0' else '1'
    let ds := x.fractionDigits
    let point := if ds.isEmpty then [] else '.' :: ds
    ['0', 'x', lead] ++ point ++ 'p' :: signedDecimal (x.unitExponent + 52)

/-- The written form of a number. -/
def text (x : Binary64) : List Char :=
  if x.isNaN then ['n', 'a', 'n']
  else if x.isNegative then '-' :: x.unsignedText
  else x.unsignedText

/-! ## Reading -/

/-- The exponent after its mark: an optional sign and decimal digits, within a signed 64-bit word. -/
def exponent? (cs : List Char) : Option Int := do
  let (negative, ds) := splitSign cs
  let n ← read? 10 ds
  if fitsWord n then some (signed negative n) else none

/-- What has been read of the digits of a number: a word of the first that count, the exponent of its last
bit, and whether a digit that it leaves out is not zero. -/
structure Mantissa where
  word : UInt64
  exponent : Int
  inexact : Bool
deriving DecidableEq

namespace Mantissa

def zero : Mantissa := ⟨0, 0, false⟩

/-- Reads a further digit, which stands after the point if `isPlace`. A word without room for it is scaled
instead. -/
def digit (isPlace : Bool) (m : Mantissa) (d : Nat) : Mantissa :=
  if m.word >>> 60 = 0 then
    { m with
      word := m.word <<< 4 ||| UInt64.ofNat d
      exponent := if isPlace then m.exponent - 4 else m.exponent }
  else
    { m with
      exponent := if isPlace then m.exponent else m.exponent + 4
      inexact := m.inexact || d != 0 }

/-- Reads the digits before the point and those after it. -/
def ofDigits (whole places : List Nat) : Mantissa :=
  places.foldl (digit true) (whole.foldl (digit false) zero)

/-- The word with its last bit set if it is inexact, which keeps it on the right side of every rounding
boundary. -/
def rounding (m : Mantissa) : UInt64 := if m.inexact then m.word ||| 1 else m.word

end Mantissa

/-- Reads digits around at most one point, scaled by `2 ^ e`. The mantissa is rounded and then scaled, which
rounds once more when the result is subnormal. -/
def scaledDigits? (body : List Char) (e : Int) : Option Binary64 :=
  let whole := body.takeWhile (· != '.')
  let places := (body.dropWhile (· != '.')).drop 1
  if whole.isEmpty && places.isEmpty then none
  else do
    let m := Mantissa.ofDigits (← digits? 16 whole) (← digits? 16 places)
    let scaling := e + m.exponent
    if fitsWord scaling then some ((ofNat m.rounding.toNat).scaleInSteps (max (-4000) (min scaling 4000))) else none

/-- The exponent of a number from its mark on. -/
def markedExponent? : List Char → Option Int
  | [] => some 0
  | _ :: cs => exponent? cs

/-- Reads what follows `0x`. -/
def hexadecimal? (cs : List Char) : Option Binary64 := do
  let isMark := fun c : Char => c == 'p' || c == 'P'
  let e ← markedExponent? (cs.dropWhile (!isMark ·))
  scaledDigits? (cs.takeWhile (!isMark ·)) e

end FrameMachine.Binary64
