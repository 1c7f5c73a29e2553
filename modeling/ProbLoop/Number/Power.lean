import ProbLoop.Number.Basic

/-!
# Powers by repeated squaring

One loop serves every product that is associative: rationals, expressions and the machine
numbers of `Binary64`. The base is squared once for each binary digit of the exponent.
-/

set_option autoImplicit false

namespace ProbLoop

/-- The product of `acc` and the `k`-th power of `base`. -/
def powerInto {α : Type} (mul : α → α → α) (acc base : α) (k : Nat) : α :=
  if k = 0 then acc
  else
    let grown := if k % 2 = 1 then mul acc base else acc
    if k / 2 = 0 then grown else powerInto mul grown (mul base base) (k / 2)
termination_by k
decreasing_by omega

namespace Number

def pow (base : Rat) (k : Nat) : Rat :=
  powerInto (· * ·) 1 base k

/-- The size of an integer exponent is kept in 32 bits. -/
def exponentSize (k : Int) : Nat :=
  k.natAbs % (1 <<< 32)

/-- A power with an integer exponent; the base of a negative power is inverted first. -/
def powInt (base : Rat) (k : Int) : Rat :=
  if 0 ≤ k then pow base (exponentSize k) else pow base⁻¹ (exponentSize k)

/-- Zero has no negative power. -/
def powInt? (base : Rat) (k : Int) : Option Rat :=
  if base = 0 ∧ k < 0 then none else some (powInt base k)

end Number

end ProbLoop
