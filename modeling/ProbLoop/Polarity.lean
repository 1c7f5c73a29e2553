import ProbLoop.Polynomial.Roots

/-!
# Polarities

A polarity is a cautious estimate of a sign: whether a value may be positive, and whether it may be
negative.
-/

set_option autoImplicit false

namespace ProbLoop

structure Polarity where
  maybePositive : Bool
  maybeNegative : Bool
  deriving DecidableEq, Repr, Inhabited

namespace Polarity

def both : Polarity := ⟨true, true⟩

def neither : Polarity := ⟨false, false⟩

def of (q : Rat) : Polarity := ⟨decide (0 < q), decide (q < 0)⟩

/-- The polarity of the negated value. -/
def flip (p : Polarity) : Polarity := ⟨p.maybeNegative, p.maybePositive⟩

def or (p q : Polarity) : Polarity :=
  ⟨p.maybePositive || q.maybePositive, p.maybeNegative || q.maybeNegative⟩

/-- The polarity of a product. -/
def times (p q : Polarity) : Polarity :=
  ⟨(p.maybePositive && q.maybePositive) || (p.maybeNegative && q.maybeNegative),
    (p.maybePositive && q.maybeNegative) || (p.maybeNegative && q.maybePositive)⟩

/-- A value is allowed by a polarity. -/
def Allows (p : Polarity) (q : Rat) : Prop :=
  (0 < q → p.maybePositive = true) ∧ (q < 0 → p.maybeNegative = true)

end Polarity

/-- Every term is positive at every positive counter, or every term is the negation of such. -/
def Expr.isDefinite (e : Expr) (positive : Bool) : Bool :=
  e.terms.all fun t => t.1.isPositiveDefinite && decide (0 < t.2) == positive

/-- The signs that an expression may have at counters from one on. Polynomials in the counter are
decided by their roots, and other expressions by the signs of their terms. -/
def Expr.polarity (e : Expr) : Polarity :=
  match e.constant? with
  | some c => Polarity.of c
  | none =>
    match Polynomial.ofExpr? e with
    | some p => if 0 < p.rootCeiling then .both else Polarity.of (p.eval 1)
    | none =>
      if e.isDefinite true then ⟨true, false⟩
      else if e.isDefinite false then ⟨false, true⟩
      else .both

end ProbLoop
