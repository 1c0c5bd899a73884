/-! # Binary64 numbers

A number is its 64-bit word: a sign bit, eleven bits of exponent and 52 bits of fraction. The word
without its sign bit, read as a natural number, is the `magnitude`: on numbers that are not NaN it
grows with the absolute value, so comparison is comparison of signed magnitudes. -/

namespace FrameMachine

structure Binary64 where
  word : UInt64
deriving DecidableEq

namespace Binary64

/-- The weight of the sign bit, `2 ^ 63`. -/
def signWeight : Nat := 9223372036854775808

/-- The weight of the lowest bit of the exponent, `2 ^ 52`. -/
def exponentWeight : Nat := 4503599627370496

def isNegative (x : Binary64) : Bool := signWeight ≤ x.word.toNat

def magnitude (x : Binary64) : Nat := x.word.toNat % signWeight

/-- The magnitude of the infinities; every larger magnitude is that of a NaN. -/
def infinite : Nat := 2047 * exponentWeight

def ofMagnitude (negative : Bool) (m : Nat) : Binary64 :=
  ⟨UInt64.ofNat (if negative then signWeight + m else m)⟩

def isNaN (x : Binary64) : Bool := infinite < x.magnitude

def isInfinite (x : Binary64) : Bool := x.magnitude = infinite

def exponentField (x : Binary64) : Nat := x.magnitude / exponentWeight

def fraction (x : Binary64) : Nat := x.magnitude % exponentWeight

/-- A finite number is its significand times two to its unit exponent, up to its sign. -/
def significand (x : Binary64) : Nat :=
  if x.exponentField = 0 then x.fraction else exponentWeight + x.fraction

/-- The binary exponent of the significand's last bit. -/
def unitExponent (x : Binary64) : Int :=
  if x.exponentField = 0 then -1074 else x.exponentField - 1075

def nan : Binary64 := ofMagnitude false (infinite + exponentWeight / 2)

def infinity : Binary64 := ofMagnitude false infinite

/-- The number with the opposite sign bit. -/
def neg (x : Binary64) : Binary64 := ofMagnitude (!x.isNegative) x.magnitude

/-- The magnitude with its sign; both zeros have rank zero. -/
def rank (x : Binary64) : Int := if x.isNegative then -(x.magnitude : Int) else x.magnitude

/-- Numeric comparison; a NaN is not comparable with anything. -/
def compare? (x y : Binary64) : Option Ordering :=
  if x.isNaN || y.isNaN then none else some (compare x.rank y.rank)

theorem magnitude_lt (x : Binary64) : x.magnitude < signWeight := Nat.mod_lt _ (by decide)

theorem word_toNat (x : Binary64) :
    x.word.toNat = if x.isNegative then signWeight + x.magnitude else x.magnitude := by
  have := x.word.toNat_lt
  by_cases h : signWeight ≤ x.word.toNat
  · simp only [isNegative, h, decide_true, ite_true, magnitude]
    unfold signWeight at *
    omega
  · simp only [isNegative, h, decide_false, Bool.false_eq_true, ite_false, magnitude]
    exact (Nat.mod_eq_of_lt (Nat.not_le.1 h)).symm

theorem ofMagnitude_magnitude (x : Binary64) : ofMagnitude x.isNegative x.magnitude = x := by
  rcases x with ⟨w⟩
  simp only [ofMagnitude, ← word_toNat, UInt64.ofNat_toNat]

end Binary64

end FrameMachine
