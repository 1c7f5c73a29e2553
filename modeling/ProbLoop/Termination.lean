import ProbLoop.ProofRule.Run

/-!
# Termination of loops

The rules are tried in order until both questions are answered. A rule that does not apply or that
leaves a question open is passed over.
-/

set_option autoImplicit false

namespace ProbLoop.Program

open Analysis

/-- The expressions that the rules share. -/
def drift (p : Program) : Attempt Analysis Drift := do
  let change ← onMoments p.guardChange
  let martingale ← onMoments p.martingale
  return ⟨change, martingale⟩

/-- Runs a rule if it applies; an open question leaves the verdict as it is. -/
def tryRule (p : Program) (drift : Drift) (rule : ProofRule) (v : Verdict) :
    Attempt Analysis Verdict :=
  if rule.isApplicable drift then
    tryCatch (rule.run p drift v) fun err =>
      if err.isUndecided then return v else throw err
  else return v

def tryRules (p : Program) (drift : Drift) : List ProofRule → Verdict → Attempt Analysis Verdict
  | [], v => return v
  | rule :: rest, v => do
    let v ← p.tryRule drift rule v
    if v.allKnown then return v else tryRules p drift rest v

/-- Decides termination with the given rules, in the given order. -/
def verdictWith (p : Program) (rules : List ProofRule) : Attempt Analysis Verdict := do
  p.tryRules (← p.drift) rules .start

/-- Decides termination with all rules. -/
def verdict (p : Program) : Attempt Analysis Verdict :=
  p.verdictWith ProofRule.all

end ProbLoop.Program
