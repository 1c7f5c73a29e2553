import ProbLoop.Polynomial.Basic

/-!
# Real roots

Roots are never computed. A Sturm sequence counts the distinct real roots to the right of a rational
point, which is enough to find the first integer behind which a polynomial keeps its sign.
-/

set_option autoImplicit false

namespace ProbLoop.Polynomial

/-- Divides out `n - root` as often as `root` is a root, at most `fuel` times. -/
def deflateUpTo (root : Rat) : Nat → Polynomial → Polynomial
  | 0, p => p
  | fuel + 1, p =>
    if !p.isConstant && p.eval root == 0 then deflateUpTo root fuel (p.divideOut root) else p

/-- Divides out `n - root` as often as `root` is a root, which is at most the degree. -/
def deflate (p : Polynomial) (root : Rat) : Polynomial :=
  deflateUpTo root p.coefficients.length p

/-- The remainder sequence of two polynomials, every remainder with its sign changed. A remainder
is shorter than what it is divided by. -/
def remaindersFrom (a b : Polynomial) : List Polynomial :=
  if b.isZero then [a]
  else
    let next := (a.rem b).neg
    if next.coefficients.length < b.coefficients.length then a :: remaindersFrom b next else [a, b]
termination_by b.coefficients.length

def sturmSequence (p : Polynomial) : List Polynomial :=
  remaindersFrom p p.derivative

def changesFrom (previous : Sign) : List Sign → Nat
  | [] => 0
  | s :: rest =>
    if s = .zero then changesFrom previous rest
    else if previous = .zero ∨ previous = s then changesFrom s rest
    else 1 + changesFrom s rest

/-- The number of sign changes between successive signs, zeros left out. -/
def signChanges (signs : List Sign) : Nat :=
  changesFrom .zero signs

/-- The number of distinct real roots greater than `x`. -/
def rootsAbove (p : Polynomial) (x : Rat) : Nat :=
  let reduced := p.deflate x
  if reduced.isConstant then 0
  else
    let sequence := reduced.sturmSequence
    signChanges (sequence.map fun q => Sign.of (q.eval x))
      - signChanges (sequence.map fun q => Sign.of q.leading)

/-- A number that is at least the magnitude of every real root. -/
def cauchyBound (p : Polynomial) : Rat :=
  match p.coefficients.reverse with
  | [] => 0
  | lead :: rest => 1 + (Number.maximum? (rest.map fun c => Number.abs (c / lead))).getD 0

/-- The largest integer that is looked at as a bound of the roots. -/
def maxRootBound : Nat := (1 <<< 64) - 1

/-- Halves an interval of integers that has roots above its low end and none above its high one. -/
def searchRoots (p : Polynomial) (low high : Nat) : Nat :=
  if 1 < high - low then
    let mid := low + (high - low) / 2
    if p.rootsAbove mid = 0 then searchRoots p low mid else searchRoots p mid high
  else high
termination_by high - low

/-- The smallest natural number above which there is no real root. -/
def rootCeiling (p : Polynomial) : Nat :=
  if p.rootsAbove 0 = 0 then 0
  else searchRoots p 0 (min p.cauchyBound.ceil.toNat maxRootBound)

/-- The first integer behind all real roots, kept in 64 bits, and the sign there. -/
def eventualSign (p : Polynomial) : Nat × Sign :=
  let m := (p.rootCeiling + 1) % (maxRootBound + 1)
  (m, Sign.of (p.eval m))

end ProbLoop.Polynomial
