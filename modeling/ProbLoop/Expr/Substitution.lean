import ProbLoop.Expr.Basic

/-!
# Substitution

Symbols are replaced by expressions, one at a time or several at once. Exponentials are left alone,
so the counter is replaced in powers only; `Expr.shift` and `Expr.atIteration` move along the
iterations.
-/

set_option autoImplicit false

namespace ProbLoop.Expr

/-- One term with `s` replaced by `value`. -/
def substTerm (s : Symbol) (value : Expr) (t : Monomial × Rat) : Expr :=
  let k := t.1.powerOf s
  let rest := term (t.1.without s) t.2
  if k = 0 then rest else rest * value.pow k

def subst (e : Expr) (s : Symbol) (value : Expr) : Expr :=
  if e.mentions s then sum (e.terms.map (substTerm s value)) else e

/-- One term with every symbol that has a value replaced by it. -/
def substAllTerm (values : Symbol → Option Expr) (t : Monomial × Rat) : Expr :=
  let rest : Monomial := ⟨t.1.powers.filter (fun p => (values p.1).isNone), t.1.base⟩
  let product := t.1.powers.foldl
    (fun acc p => match values p.1 with
      | none => acc
      | some value => acc * value.pow p.2) one
  term rest t.2 * product

/-- Replaces all symbols that have a value at once. -/
def substAll (e : Expr) (values : Symbol → Option Expr) : Expr :=
  sum (e.terms.map (substAllTerm values))

end ProbLoop.Expr
