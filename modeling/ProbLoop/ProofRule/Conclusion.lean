import ProbLoop.Program.OneStep
import ProbLoop.ProofRule.Basic
import ProbLoop.Verdict

/-!
# Conclusions of the proof rules

The witnesses that the rules leave behind, with the evidence on which they rest.
-/

set_option autoImplicit false

namespace ProbLoop.Conclusion

def neverEntered (guard value : Expr) : Witness where
  kind := .past
  evidence := [("Loop guard", guard.text), ("Initial value", value.text)]
  explanation :=
    "Initially the loop guard '" ++ guard.text ++ "' evaluates to '" ++ value.text
      ++ "', which is not positive.\nTherefore, the loop body is never executed."

def ranked (guard martingale bound : Expr) : Witness where
  kind := .past
  evidence :=
    [("RSM", guard.text), ("RSM expression", martingale.text), ("Change bound", bound.text)]
  explanation :=
    "Eventually, '" ++ guard.text
      ++ "' is a ranking supermartingale: in every iteration its expected\nchange is at most '"
      ++ bound.text ++ "', which is bounded away from zero."

def decreasing (guard martingale : Expr) (c : Case) (bound : Expr) : Witness where
  kind := .ast
  evidence :=
    [("SM", guard.text), ("SM expression", martingale.text), ("Decreasing branch", c.value.text),
      ("Branch change bound", bound.text), ("Probability", Number.text c.probability)]
  explanation :=
    "Eventually, '" ++ guard.text
      ++ "' is a supermartingale. Also eventually, taking the branch\n'" ++ c.value.text
      ++ "' (which happens with probability " ++ Number.text c.probability
      ++ ") changes the supermartingale by at least " ++ bound.text ++ "."

def exits (branch bound : Expr) : Witness where
  kind := .past
  evidence := [("Loop Guard Branch", branch.text), ("Bound", bound.text)]
  explanation :=
    "The loop guard has the branch '" ++ branch.text
      ++ "' which is eventually upper bounded by '" ++ bound.text
      ++ "'.\nTherefore, the termination time follows a geometric distribution after the "
      ++ "point from\nwhich the bound holds."

def repelled : String := "There is always a positive probability of having a next iteration.\n"

def diverges (negatedGuard change epsilons differences : Expr) : Witness where
  kind := .notAst
  evidence :=
    [("Repulsing SM", negatedGuard.text), ("SM expression", change.text),
      ("Epsilons", epsilons.text), ("Cs", differences.text)]
  explanation :=
    repelled ++ "Moreover, '" ++ negatedGuard.text
      ++ "' eventually is a repulsing supermartingale\ndecreasing with epsilons '" ++ epsilons.text
      ++ "'. Also, the repulsing SM has differences bound\nby '" ++ differences.text
      ++ "' which is O(epsilons)."

def lingers (negatedGuard change : Expr) : Witness where
  kind := .notPast
  evidence := [("Repulsing SM", negatedGuard.text), ("SM expression", change.text)]
  explanation :=
    repelled ++ "Moreover, '" ++ negatedGuard.text
      ++ "' eventually is a repulsing supermartingale\ndecreasing with epsilons '0'. "
      ++ "Also, the repulsing SM has differences bound\nby a constant."

end ProbLoop.Conclusion
