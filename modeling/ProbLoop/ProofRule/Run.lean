import ProbLoop.Invariance
import ProbLoop.ProofRule.Conclusion

/-!
# Running the proof rules

A rule refines a verdict, or leaves it as it is if its premises do not hold. A question that is left
open fails the rule and nothing else.
-/

set_option autoImplicit false

namespace ProbLoop.ProofRule

open Analysis

/-- An upper bound is, in the long run, below some negative constant. -/
def isBelowZero (upper : Expr) : Bool :=
  upper.dominates (.const (-1)) .down

/-- The loop is never entered if its guard cannot be positive initially. -/
def runInitialState (p : Program) (v : Verdict) : Attempt Analysis Verdict :=
  if v.allKnown || (p.initialPolarity p.guard).maybePositive then return v
  else return v.conclude .yes .yes (Conclusion.neverEntered p.guard (p.initialValue p.guard))

/-- The guard decreases in the mean by at least a constant, wherever the run is. -/
def runRanking (p : Program) (drift : Drift) (v : Verdict) : Attempt Analysis Verdict := do
  if v.past.isKnown then return v
  else
    let b ← p.envelopeOf drift.martingale
    if isBelowZero b.upper then
      return v.conclude .yes .yes (Conclusion.ranked p.guard drift.martingale b.upper)
    else return v

/-- Looks for a case whose envelope is below zero in the long run. -/
def firstBelowZero (p : Program) (measure : Case → Expr) :
    List Case → Attempt Analysis (Option (Case × Expr))
  | [] => return none
  | c :: rest => do
    let b ← p.envelopeOf (measure c)
    if isBelowZero b.upper then return some (c, b.upper) else firstBelowZero p measure rest

/-- The guard does not increase in the mean, and some branch decreases it by at least a constant. -/
def runSupermartingale (p : Program) (drift : Drift) (v : Verdict) :
    Attempt Analysis Verdict := do
  if v.ast.isKnown then return v
  else if (← p.isInvariant drift.martingale) = .yes then
    match ← firstBelowZero p (fun c => c.value - p.guard) (p.cases p.guard) with
    | none => return v
    | some (c, bound) =>
      return (v.setAst .yes).2.addWitness
        (Conclusion.decreasing p.guard drift.martingale c bound)
  else return v

/-- Some branch of the guard is negative in the long run, so each iteration exits the loop with a
fixed positive probability. -/
def runGeometric (p : Program) (v : Verdict) : Attempt Analysis Verdict := do
  if v.past.isKnown then return v
  else
    match ← firstBelowZero p (·.value) (p.cases p.guard) with
    | none => return v
    | some (c, bound) => return v.conclude .yes .yes (Conclusion.exits c.value bound)

/-- What the repulsing rule concludes from a bound of the changes of the guard and from the amount
by which the negated guard decreases in the mean. If the decrease does not vanish and dominates the
changes, the loop diverges with positive probability. If it vanishes, the mean number of iterations
is still infinite. -/
def concludeRepulsing (p : Program) (change differences epsilons : Expr) (v : Verdict) : Verdict :=
  let bounds := fun (f g : Expr) => f.dominates g .up
  if !bounds Expr.one epsilons || !bounds Expr.one differences then v
  else if !bounds Expr.zero epsilons && bounds epsilons differences then
    v.conclude .no .no (Conclusion.diverges (-p.guard) change epsilons differences)
  else if bounds Expr.zero epsilons then
    (v.setPast .no).2.addWitness (Conclusion.lingers (-p.guard) change)
  else v

/-- The negated guard does not increase in the mean and its changes are bounded, and some branch
keeps the loop running. -/
def runRepulsing (p : Program) (drift : Drift) (v : Verdict) : Attempt Analysis Verdict := do
  let change := -drift.martingale
  if v.allKnown then return v
  else if (← p.isInvariant change) = .yes then
    let changes ← (p.cases p.guard).mapM fun c => p.envelopeOf (c.value - p.guard)
    if changes.all (·.polarity.maybeNegative) then return v
    else
      let sizes ← drawing (changes.mapM fun b => do return (← b.absoluteUpper).1)
      let differences ← drawing (Expr.dominating sizes)
      let b ← p.envelopeOf change
      return concludeRepulsing p change differences (-b.upper) v
  else return v

/-- Runs a rule, whether it applies or not. -/
def run (rule : ProofRule) (p : Program) (drift : Drift) (v : Verdict) :
    Attempt Analysis Verdict :=
  match rule with
  | initialState => runInitialState p v
  | ranking => runRanking p drift v
  | supermartingale => runSupermartingale p drift v
  | repulsing => runRepulsing p drift v
  | geometric => runGeometric p v

end ProbLoop.ProofRule
