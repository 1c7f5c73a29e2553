import ProbLoop.Expr.Basic

/-!
# Polynomials in the counter

Univariate polynomials with rational coefficients, kept as the list of their coefficients from the
constant one up. The last coefficient is not zero.
-/

set_option autoImplicit false

namespace ProbLoop

structure Polynomial where
  coefficients : List Rat
  deriving DecidableEq, Repr, Inhabited

namespace Polynomial

/-- Drops the zeros at the end. -/
def trim : List Rat → List Rat
  | [] => []
  | c :: rest =>
    match trim rest with
    | [] => if c = 0 then [] else [c]
    | kept => c :: kept

def ofList (coefficients : List Rat) : Polynomial := ⟨trim coefficients⟩

/-- Adds the term of degree `k` to a list of coefficients. -/
def addAt (c : Rat) : Nat → List Rat → List Rat
  | 0, [] => [c]
  | 0, d :: rest => (c + d) :: rest
  | k + 1, [] => 0 :: addAt c k []
  | k + 1, d :: rest => d :: addAt c k rest

/-- Holds of a monomial that is a power of the counter. -/
def isCounterPower (m : Monomial) : Bool :=
  !m.isExponential && m.symbols.all Symbol.isCounter

/-- An expression that is a polynomial in the counter. -/
def ofExpr? (e : Expr) : Option Polynomial :=
  if e.terms.all (fun t => isCounterPower t.1) then
    some (ofList (e.terms.foldl (fun acc t => addAt t.2 t.1.counterDegree acc) []))
  else none

def isZero (p : Polynomial) : Bool := p.coefficients.isEmpty

def degree? (p : Polynomial) : Option Nat :=
  match p.coefficients with
  | [] => none
  | _ :: rest => some rest.length

def isConstant (p : Polynomial) : Bool := p.coefficients.length ≤ 1

def leading (p : Polynomial) : Rat := p.coefficients.getLast?.getD 0

def eval (p : Polynomial) (x : Rat) : Rat :=
  p.coefficients.foldr (fun c acc => acc * x + c) 0

def derivative (p : Polynomial) : Polynomial :=
  ofList (p.coefficients.zipIdx.tail.map fun c => c.1 * (c.2 : Rat))

def neg (p : Polynomial) : Polynomial := ofList (p.coefficients.map (-·))

/-- Subtracts a multiple of one coefficient list from the front of another, which is not shorter. -/
def subtractFront (factor : Rat) : List Rat → List Rat → List Rat
  | [], rest => rest
  | _ :: _, [] => []
  | d :: divisor, a :: rest => (a - factor * d) :: subtractFront factor divisor rest

theorem length_subtractFront (factor : Rat) : ∀ divisor rest : List Rat,
    divisor.length ≤ rest.length → (subtractFront factor divisor rest).length = rest.length
  | [], rest, _ => by simp [subtractFront]
  | _ :: _, [], h => by simp at h
  | _ :: divisor, _ :: rest, h => by
    simp [subtractFront, length_subtractFront factor divisor rest (by simpa using h)]

/-- Long division on coefficients from the leading one down: what is left of `rest` when multiples
of the divisor `lead :: divisor` are subtracted. -/
def reduce (lead : Rat) (divisor : List Rat) : List Rat → List Rat
  | [] => []
  | a :: rest =>
    if h : rest.length < divisor.length then a :: rest
    else
      have := length_subtractFront (a / lead) divisor rest (by omega)
      reduce lead divisor (subtractFront (a / lead) divisor rest)
termination_by dividend => dividend.length
decreasing_by simp [this]

/-- The remainder of a division; division by zero leaves everything. -/
def rem (p q : Polynomial) : Polynomial :=
  match q.coefficients.reverse with
  | [] => p
  | lead :: divisor => ofList (reduce lead divisor p.coefficients.reverse).reverse

/-- The quotient of a polynomial by `n - root`, from its coefficients from the leading one down; the
last value of the scheme is the remainder and is dropped. -/
def quotientFrom (root carry : Rat) : List Rat → List Rat
  | [] => []
  | [_] => []
  | c :: rest => (c + carry * root) :: quotientFrom root (c + carry * root) rest

def divideOut (p : Polynomial) (root : Rat) : Polynomial :=
  ofList (quotientFrom root 0 p.coefficients.reverse).reverse

end Polynomial

end ProbLoop
