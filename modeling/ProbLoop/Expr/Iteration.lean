import ProbLoop.Expr.Basic

/-!
# Moving along the iterations

An expression in the counter `n` can be read at `n + k` instead of `n`, or at a fixed iteration.
-/

set_option autoImplicit false

namespace ProbLoop.Expr

/-- A term of `f (n + k)` for a term of `f (n)`: the base contributes the factor `base ^ k`. -/
def shiftTerm (k : Int) (t : Monomial × Rat) : Expr :=
  let rest := (t.1.without .counter).withBase 1
  let moved := term rest (t.2 * Number.powInt t.1.base k) * exponential t.1.base
  moved * (counter + const k).pow t.1.counterDegree

/-- The expression `f (n + k)` for the expression `f (n)`. -/
def shift (e : Expr) (k : Int) : Expr :=
  if k = 0 || !e.dependsOnCounter then e else sum (e.terms.map (shiftTerm k))

/-- One term at the iteration `k`. -/
def termAtIteration (k : Nat) (t : Monomial × Rat) : Monomial × Rat :=
  ((t.1.without .counter).withBase 1,
    t.2 * (Number.pow k t.1.counterDegree * Number.pow t.1.base k))

/-- The value at the iteration `n = k`. -/
def atIteration (e : Expr) (k : Nat) : Expr :=
  ofTerms (e.terms.map (termAtIteration k))

end ProbLoop.Expr
