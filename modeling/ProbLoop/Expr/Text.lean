import ProbLoop.Expr.Basic

/-!
# Text of expressions

Terms are written from the fastest growing to the slowest: by magnitude of the exponential base,
then by the power of the counter, then by total degree. Terms that agree in all three follow the
order of their monomials.
-/

set_option autoImplicit false

namespace ProbLoop.Expr

/-- Whether the first term is written before the second. -/
def writtenBefore (a b : Monomial × Rat) : Bool :=
  let growth := ((Number.cmp (Number.abs b.1.base) (Number.abs a.1.base)).then
    (compare b.1.counterDegree a.1.counterDegree)).then
    (compare b.1.totalDegree a.1.totalDegree)
  (growth.then (Monomial.cmp a.1 b.1)).isLE

/-- A term without its sign; the coefficient one is not written. -/
def magnitudeText (t : Monomial × Rat) : String :=
  let size := Number.abs t.2
  if t.1.isOne then Number.text size
  else if size = 1 then t.1.text
  else Number.text size ++ "*" ++ t.1.text

def firstText (t : Monomial × Rat) : String :=
  (if t.2 < 0 then "-" else "") ++ magnitudeText t

def laterText (t : Monomial × Rat) : String :=
  (if t.2 < 0 then " - " else " + ") ++ magnitudeText t

def text (e : Expr) : String :=
  match e.terms.mergeSort writtenBefore with
  | [] => "0"
  | t :: rest => firstText t ++ String.join (rest.map laterText)

end ProbLoop.Expr
