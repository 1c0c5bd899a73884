import FrameMachine.Binary64.Nearest
import FrameMachine.Numeral
import FrameMachine.Text.Case

/-! # Decimal notation of binary64 numbers

Digits around at most one point, at least one of them, and an optional decimal exponent; or one of the
names `inf`, `infinity` and `nan` in any case. The number read is the nearest one. -/

namespace FrameMachine.Binary64

open Numeral

/-- The exponent part: nothing, or a mark, an optional sign and digits. -/
def decimalExponent? : List Char → Option Int
  | [] => some 0
  | c :: cs =>
    if c == 'e' || c == 'E' then
      let (negative, ds) := splitSign cs
      (read? 10 ds).map (signed negative)
    else none

/-- Reads an unsigned numeral. -/
def decimalNumeral? (cs : List Char) : Option Binary64 := do
  let whole := cs.takeWhile Char.isDigit
  let rest := cs.dropWhile Char.isDigit
  let (places, tail) := match rest with
    | '.' :: after => (after.takeWhile Char.isDigit, after.dropWhile Char.isDigit)
    | _ => ([], rest)
  let m ← read? 10 (whole ++ places)
  let e ← decimalExponent? tail
  some (ofMagnitude false (nearestDecimal m (e - places.length)))

/-- Reads an unsigned number or the name of one. -/
def decimal? (cs : List Char) : Option Binary64 :=
  if Text.sameLetters cs "inf".toList || Text.sameLetters cs "infinity".toList then some infinity
  else if Text.sameLetters cs "nan".toList then some nan
  else decimalNumeral? cs

end FrameMachine.Binary64
