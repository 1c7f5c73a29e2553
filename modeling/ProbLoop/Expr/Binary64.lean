import ProbLoop.Expr.Basic
import ProbLoop.Number.Binary64

/-!
# Values of expressions in machine numbers

Terms are added in their order, and the factors of a term are multiplied from left to right with the
exponential last.
-/

set_option autoImplicit false

namespace ProbLoop

def Monomial.timesFloat (values : Symbol → Float) (m : Monomial) (c : Float) : Float :=
  let product := m.powers.foldl
    (fun acc p => acc * Number.powFloat (values p.1) (Number.signedExponent p.2)) c
  if m.isExponential then
    product * Number.powFloat (Number.nearestFloat m.base) (Number.nearestInt (values .counter))
  else product

def Expr.floatValue (e : Expr) (values : Symbol → Float) : Float :=
  e.terms.foldl (fun acc t => acc + t.1.timesFloat values (Number.nearestFloat t.2)) 0.0

end ProbLoop
