import ProbLoop.Asymptotics.Limit

/-!
# Proof rules

A rule concludes something about the termination of a loop from its guard. Whether it applies
depends on how the mean of the guard changes in the long run.
-/

set_option autoImplicit false

namespace ProbLoop

inductive ProofRule where
  /-- The guard is not positive initially. -/
  | initialState
  /-- The guard decreases in the mean by at least a constant. -/
  | ranking
  /-- The guard does not increase in the mean, and some branch lowers it by at least a constant. -/
  | supermartingale
  /-- The negated guard does not increase in the mean, and its changes are bounded. -/
  | repulsing
  /-- Some branch of the guard is negative in the long run. -/
  | geometric
  deriving DecidableEq, Repr, Inhabited

/-- The two expressions that the rules share. -/
structure Drift where
  /-- The mean change of the guard, as a function of the counter. -/
  guardChange : Expr
  /-- The mean change of the guard, given the values before the iteration. -/
  martingale : Expr
  deriving DecidableEq, Repr

namespace ProofRule

/-- All rules in the order in which they are tried. -/
def all : List ProofRule := [initialState, ranking, supermartingale, repulsing, geometric]

def name : ProofRule → String
  | initialState => "initial-state"
  | ranking => "ranking-sm"
  | supermartingale => "supermartingale"
  | repulsing => "repulsing-sm"
  | geometric => "geometric"

def isApplicable (rule : ProofRule) (drift : Drift) : Bool :=
  match rule with
  | initialState => true
  | geometric => true
  | ranking => drift.guardChange.limit.isNegative
  | supermartingale => drift.guardChange.limit.isNonpositive
  | repulsing => drift.guardChange.limit.isNonnegative

def ofName? (s : String) : Option ProofRule :=
  all.find? fun rule => rule.name == s

/-- What a user is told who asks for a rule that does not exist. -/
def unknownMessage (s : String) : String :=
  "unknown rule `" ++ s ++ "`, expected one of: " ++ String.intercalate ", " (all.map name)

end ProofRule

end ProbLoop
