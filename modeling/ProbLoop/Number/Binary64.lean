import ProbLoop.Number.Power

/-!
# Machine numbers

The double-precision number nearest to a rational, ties going to the even neighbour, and integer
powers of machine numbers. Numbers that are too large become infinite.
-/

set_option autoImplicit false

namespace ProbLoop.Number

/-- The quotient rounded to the nearest integer, ties to even. -/
def roundDiv (a b : Nat) : Nat :=
  let q := a / b
  let r := a % b
  if b < 2 * r ∨ (2 * r = b ∧ q % 2 = 1) then q + 1 else q

/-- The exponent of the largest power of two that is at most `a / b`. -/
def floorLog (a b : Nat) : Int :=
  let guess : Int := (a.log2 : Int) - (b.log2 : Int)
  let fits := if 0 ≤ guess then b <<< guess.toNat ≤ a else b ≤ a <<< (-guess).toNat
  if fits then guess else guess - 1

/-- Bits of the double nearest to the positive fraction `a / b`. The last place is a power of two
that leaves 53 digits, and at least `2 ^ (-1074)`. -/
def positiveBits (a b : Nat) : Nat :=
  let place := max (floorLog a b - 52) (-1074)
  let digits :=
    if 0 ≤ place then roundDiv a (b <<< place.toNat) else roundDiv (a <<< (-place).toNat) b
  if digits < 1 <<< 52 then digits
  else min (((place + 1075).toNat <<< 52) + (digits - (1 <<< 52))) (2047 <<< 52)

/-- Bits of the double nearest to a rational. -/
def nearestBits (q : Rat) : Nat :=
  if q.num = 0 then 0
  else
    let size := positiveBits q.num.natAbs q.den
    if q.num < 0 then (1 <<< 63) + size else size

def nearestFloat (q : Rat) : Float :=
  Float.ofBits (UInt64.ofNat (nearestBits q))

/-- A power with an integer exponent. The reciprocal of a negative one is taken last. -/
def powFloat (x : Float) (k : Int) : Float :=
  let size := powerInto (· * ·) 1.0 x k.natAbs
  if k < 0 then 1.0 / size else size

/-- An exponent as a signed 32-bit number. -/
def signedExponent (k : Nat) : Int :=
  Int.bmod k (1 <<< 32)

/-- The nearest signed 32-bit integer, ties away from zero. -/
def nearestInt (x : Float) : Int :=
  x.round.toInt32.toInt

end ProbLoop.Number
