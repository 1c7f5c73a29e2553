import ProbLoop.Expr.Iteration
import ProbLoop.Memo
import ProbLoop.Program.Dependency
import ProbLoop.Program.Descent
import ProbLoop.Program.Initial
import ProbLoop.Program.OneStep
import ProbLoop.Recurrence

/-!
# Moments

The mean of a monomial after `n` iterations is a function of `n`. Its mean after one iteration is a
number times the monomial plus a combination of monomials that come before it in the descent, so the
mean satisfies a recurrence whose inhomogeneous part is known.
-/

set_option autoImplicit false

namespace ProbLoop

/-- The closed forms that have been computed. -/
abbrev ClosedForms := Memo Monomial Expr

def closedFormSlot : Slot ClosedForms Monomial Expr := ⟨id, fun _ t => t⟩

namespace Program

/-- Adds up the closed forms of the monomials of a list, each times its coefficient. -/
def combine {σ : Type} (closed : Monomial → Attempt σ Expr) :
    Expr → List (Monomial × Expr) → Attempt σ Expr
  | acc, [] => return acc
  | acc, (m, c) :: rest => do
    let value ← closed m
    combine closed (acc + c * value) rest

/-- What a monomial is multiplied by in the recurrence of its mean. -/
def recurrenceFactor (m : Monomial) (groups : List (Monomial × Expr)) : Except Error Rat :=
  match Assoc.find? m groups with
  | none => .ok 0
  | some c =>
    match c.constant? with
    | none => .error (.undecided (.recurrenceCoefficient m c))
    | some q => .ok q

/-- The mean of a monomial after `n` iterations, for `n ≥ 1`. -/
def closedForm (p : Program) (m : Monomial) : Attempt ClosedForms Expr :=
  if m.isOne then return Expr.one
  else
    closedFormSlot.remember m (.unexpected (.closedFormCycle m)) fun _ => do
      let groups := (p.expectedNext (Expr.term m 1)).collect Symbol.isVar
      let before := groups.takeWhile (·.1 != m)
      let behind := (groups.dropWhile (·.1 != m)).drop 1
      let closed := fun other =>
        if _below : (p.rank other).Below (p.rank m) then p.closedForm other
        else throw (.unexpected (.closedFormCycle other))
      let first ← combine closed Expr.zero before
      let factor ← Attempt.ofExcept (recurrenceFactor m groups)
      let inhomogeneous ← combine closed first behind
      return Recurrence.solve factor (inhomogeneous.shift (-1)) (p.initialMoment m)
termination_by p.rank m
decreasing_by assumption

/-- The mean of an expression over the variables after `n` iterations. -/
def expected (p : Program) (e : Expr) : Attempt ClosedForms Expr :=
  combine p.closedForm Expr.zero (e.collect Symbol.isVar)

/-- The mean change of the guard in the iteration after the `n`-th. -/
def guardChange (p : Program) : Attempt ClosedForms Expr := do
  let mean ← p.expected p.guard
  return mean.shift 1 - mean

/-- The closed forms of the deterministic variables of a list. -/
def deterministicValues (p : Program) : List Symbol → Attempt ClosedForms (List (Symbol × Expr))
  | [] => return []
  | s :: rest => do
    if s.isVar && !p.isProbabilistic s then
      let value ← p.closedForm (Monomial.ofSymbol s 1)
      return (s, value) :: (← p.deterministicValues rest)
    else p.deterministicValues rest

/-- Replaces every deterministic variable by its closed form. -/
def substDeterministic (p : Program) (e : Expr) : Attempt ClosedForms Expr := do
  let values ← p.deterministicValues e.freeSymbols
  return e.substAll fun s => Assoc.find? s values

/-- The mean change of the guard in one iteration, in terms of the values before it, with the
deterministic variables replaced by their closed forms. -/
def martingale (p : Program) : Attempt ClosedForms Expr :=
  p.substDeterministic (p.expectedNext p.guard - p.guard)

end Program

end ProbLoop
