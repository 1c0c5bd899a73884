import FrameMachine.Binary64.Basic

/-! # The nearest binary64 number

A positive quotient is measured in the unit of its binade, rounded to a whole number of units with
halves going to the even one, and written as a magnitude. Small quotients are measured in the least
unit, so that they become subnormal or zero; too large ones become infinite. -/

namespace FrameMachine.Binary64

/-- The natural number nearest to `n / d`, the even one of two. -/
def roundDiv (n d : Nat) : Nat :=
  let q := n / d
  let r := n % d
  if 2 * r < d ∨ (2 * r = d ∧ q % 2 = 0) then q else q + 1

/-- The exponent `k` with `2 ^ k ≤ n / d < 2 ^ (k + 1)`, for positive `n` and `d`. -/
def binade (n d : Nat) : Int :=
  let k : Int := n.log2 - d.log2
  if n * Nat.pow 2 (-k).toNat < d * Nat.pow 2 k.toNat then k - 1 else k

/-- The magnitude of the number nearest to `n / d`, for positive `d`. -/
def nearest (n d : Nat) : Nat :=
  if n = 0 then 0
  else
    let unit := max (binade n d - 52) (-1074)
    let m := roundDiv (n * Nat.pow 2 (-unit).toNat) (d * Nat.pow 2 unit.toNat)
    min ((unit + 1074).toNat * exponentWeight + m) infinite

/-- The magnitude of the number nearest to `m * 2 ^ e`. Exponents far outside the range of the
format are settled without the power. -/
def nearestScaled (m : Nat) (e : Int) : Nat :=
  if m = 0 then 0
  else if m.log2 + e < -1075 then 0
  else if 1024 ≤ m.log2 + e then infinite
  else nearest (m * Nat.pow 2 e.toNat) (Nat.pow 2 (-e).toNat)

/-- The magnitude of the number nearest to `m * 10 ^ e`, likewise. -/
def nearestDecimal (m : Nat) (e : Int) : Nat :=
  let places : Int := (Nat.toDigits 10 m).length
  if m = 0 then 0
  else if places + e < -324 then 0
  else if 310 < places + e then infinite
  else nearest (m * Nat.pow 10 e.toNat) (Nat.pow 10 (-e).toNat)

/-- The number nearest to a natural number. -/
def ofNat (n : Nat) : Binary64 := ofMagnitude false (nearest n 1)

/-- The number nearest to `x * 2 ^ e`. -/
def scale (x : Binary64) (e : Int) : Binary64 :=
  if infinite ≤ x.magnitude then x
  else ofMagnitude x.isNegative (nearestScaled x.significand (x.unitExponent + e))

/-- The number scaled by `2 ^ e` in steps of at most `2 ^ 1000`, so that every factor is a number of the
format. -/
def scaleInSteps (x : Binary64) (e : Int) : Binary64 :=
  let step : Int := if e < 0 then -1000 else 1000
  let steps := (e.natAbs - 1) / 1000
  (Nat.repeat (·.scale step) steps x).scale (e - step * steps)

end FrameMachine.Binary64
