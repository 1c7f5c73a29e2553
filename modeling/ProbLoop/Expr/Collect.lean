import ProbLoop.Expr.Basic

/-!
# Expressions as polynomials over chosen symbols

The terms of an expression can be grouped by their powers of some of its symbols. What multiplies
each of these monomials is again an expression, over the remaining symbols and the counter.
-/

set_option autoImplicit false

namespace ProbLoop.Expr

/-- Adds a term to the coefficient of one monomial. -/
def collectTerm (keep : Symbol → Bool) (t : Monomial × Rat) (groups : List (Monomial × Expr)) :
    List (Monomial × Expr) :=
  Assoc.alter Monomial.cmp (t.1.kept keep)
    (fun old => some ⟨insertTerm (t.1.rest keep) t.2 (old.getD zero).terms⟩) groups

/-- The coefficients of the monomials over the symbols that satisfy `keep`, in monomial order. -/
def collect (keep : Symbol → Bool) (e : Expr) : List (Monomial × Expr) :=
  (e.terms.foldr (collectTerm keep) []).filter (fun g => !g.2.isZero)

/-- The coefficient of one monomial over the symbols that satisfy `keep`. -/
def collected (keep : Symbol → Bool) (e : Expr) (m : Monomial) : Expr :=
  (Assoc.find? m (e.collect keep)).getD zero

/-- Writes an expression as `a * s + rest` with a rational `a` and a `rest` that does not mention
the symbol `s`. -/
def linearIn? (e : Expr) (s : Symbol) : Option (Rat × Expr) :=
  let unit := Monomial.ofSymbol s 1
  let rest := e.terms.filter (fun t => t.1 != unit)
  if rest.any (fun t => t.1.mentions s) then none
  else (Assoc.find? unit e.terms).map fun a => (a, ⟨rest⟩)

end ProbLoop.Expr
