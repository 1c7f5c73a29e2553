import ProbLoop.Expr.Basic

/-!
# Values of expressions

The exact value of an expression at an iteration, for given values of all symbols but the counter.
-/

set_option autoImplicit false

namespace ProbLoop

/-- Values of the symbols other than the counter. -/
abbrev Valuation := Symbol → Rat

/-- Every positive constant has a positive value. -/
def Valuation.Admissible (v : Valuation) : Prop :=
  ∀ name, 0 < v (.positive name)

def Symbol.value (n : Nat) (v : Valuation) : Symbol → Rat
  | .counter => n
  | s => v s

def Monomial.value (n : Nat) (v : Valuation) (m : Monomial) : Rat :=
  m.powers.foldr (fun p acc => p.1.value n v ^ p.2 * acc) 1 * m.base ^ n

def Expr.value (n : Nat) (v : Valuation) (e : Expr) : Rat :=
  e.terms.foldr (fun t acc => t.2 * t.1.value n v + acc) 0

end ProbLoop
