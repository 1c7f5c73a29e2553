import ProbLoop.Error
import ProbLoop.Expr.Collect
import ProbLoop.Expr.Substitution
import ProbLoop.Program.Basic

/-!
# One iteration

An expression about the values after an iteration is unfolded into expressions about the values
before it: either into its cases, one for every combination of branches, or into its mean. Variables
are unfolded in reverse update order, so that a variable on which an update draws is unfolded after
the updated one.
-/

set_option autoImplicit false

namespace ProbLoop

/-- What an expression may evaluate to, and how likely that is. -/
structure Case where
  value : Expr
  probability : Rat
  deriving DecidableEq, Repr

def Case.text (c : Case) : String :=
  c.value.text ++ " @ " ++ Number.text c.probability

namespace Case

/-- Adds a case to cases with distinct values. -/
def addTo (c : Case) : List Case → List Case
  | [] => [c]
  | d :: rest =>
    if d.value = c.value then ⟨d.value, d.probability + c.probability⟩ :: rest
    else d :: addTo c rest

/-- Joins cases with equal values, in the order in which the values first occur. -/
def join (cases : List Case) : List Case :=
  cases.foldl (fun acc c => c.addTo acc) []

/-- The cases of one case when a variable takes one of the values of its update. -/
def unfold (s : Symbol) (branches : List (Expr × Rat)) (c : Case) : List Case :=
  if c.value.mentions s then
    branches.map fun b => ⟨c.value.subst s b.1, c.probability * b.2⟩
  else [c]

end Case

namespace Program

/-- Unfolds one variable; random draws are not unfolded. -/
def unfoldVar (d : Declaration) (cases : List Case) : List Case :=
  match d.update with
  | .random _ => cases
  | .branches bs => Case.join (cases.flatMap (Case.unfold d.symbol bs))

/-- The cases of an expression after one iteration, in terms of the values before it and of the
random draws of the iteration. -/
def cases (p : Program) (e : Expr) : List Case :=
  p.declarations.reverse.foldl (fun cs d => unfoldVar d cs) [⟨e, 1⟩]

/-- One term of an expression when powers of a variable are replaced by moments of its update. -/
def meanTerm (d : Declaration) (t : Monomial × Rat) : Expr :=
  let k := t.1.powerOf d.symbol
  let rest := Expr.term (t.1.without d.symbol) t.2
  if k = 0 then rest else rest * d.update.moment k

/-- Takes the mean over the update of one variable. -/
def meanVar (d : Declaration) (e : Expr) : Expr :=
  if e.mentions d.symbol then Expr.sum (e.terms.map (meanTerm d)) else e

/-- The mean of an expression after one iteration, in terms of the values before it. -/
def expectedNext (p : Program) (e : Expr) : Expr :=
  p.declarations.reverse.foldl (fun acc d => meanVar d acc) e

end Program

/-- One way in which a monomial `m` changes: it becomes `factor * m + rest`. -/
structure Branch where
  monomial : Monomial
  factor : Rat
  rest : Expr
  probability : Rat
  deriving DecidableEq, Repr

namespace Branch

/-- Splits a case of a monomial, if what multiplies the monomial there is a number. -/
def ofCase (m : Monomial) (c : Case) : Except Error Branch :=
  let coefficient := c.value.collected Symbol.isVar m
  match coefficient.constant? with
  | none => .error (.undecided (.caseCoefficient coefficient m c.value))
  | some q => .ok ⟨m, q, c.value - Expr.term m q, c.probability⟩

end Branch

/-- The ways in which a monomial changes in one iteration. -/
def Program.branches (p : Program) (m : Monomial) : Except Error (List Branch) :=
  (p.cases (Expr.term m 1)).mapM (Branch.ofCase m)

end ProbLoop
