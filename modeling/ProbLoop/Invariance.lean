import ProbLoop.Envelope
import ProbLoop.Verdict

/-!
# Eventual invariants

Whether an expression is at most zero after enough iterations in every run. Expressions in the
counter alone are decided by the sign at large counters, and expressions over variables by their
envelopes.
-/

set_option autoImplicit false

namespace ProbLoop

/-- Decides whether an expression in the counter is at most zero from some counter on. -/
def Expr.isEventuallyNonpositive (e : Expr) : Answer :=
  match Polynomial.ofExpr? e with
  | some p => if p.eventualSign.2 = .positive then .no else .yes
  | none =>
    match e.eventualSign? with
    | some .positive => .no
    | some _ => .yes
    | none => .unknown

namespace Program

/-- The answer that an envelope gives: an upper bound below a negative constant proves the
invariant, and a lower bound above a positive constant refutes it. -/
def answerOf (b : Envelope) : Answer :=
  if b.upper.dominates (.const (-1)) .down then .yes
  else if b.lower.dominates (.const 1) .up then .no
  else .unknown

/-- Decides whether an expression is at most zero after enough iterations in every run. -/
def isInvariant (p : Program) (e : Expr) : Attempt Analysis Answer :=
  if e.freeSymbols.all Symbol.isCounter then return e.isEventuallyNonpositive
  else
    tryCatch (do return answerOf (← p.envelopeOf e)) fun err =>
      if err.isUndecided then return .unknown else throw err

end Program

end ProbLoop
