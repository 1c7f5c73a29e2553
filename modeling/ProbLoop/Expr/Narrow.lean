import ProbLoop.Expr.Basic

/-!
# Exponents in 32 bits

An expression that is read on its own keeps its exponents in 32 bits. An exponent that grows out of them
loses its high bits, and a power whose exponent has become zero in this way stays in its monomial.
-/

set_option autoImplicit false

namespace ProbLoop

def Monomial.narrow (m : Monomial) : Monomial :=
  ⟨m.powers.map fun p => (p.1, p.2 % (1 <<< 32)), m.base⟩

namespace Expr

/-- Monomials that have become equal are taken together. -/
def narrow (e : Expr) : Expr :=
  ofTerms (e.terms.map fun t => (t.1.narrow, t.2))

/-- The product with exponents in 32 bits. -/
def mulNarrow (a b : Expr) : Expr :=
  narrow (a * b)

end Expr

end ProbLoop
