import ProbLoop.Expr.Text

/-!
# Limits and dominant parts

Among the terms of an expression those with the largest magnitude of the exponential base and, among
these, the largest power of the counter decide how it behaves when the counter grows.
-/

set_option autoImplicit false

namespace ProbLoop

/-- How fast `n ^ degree * magnitude ^ n` grows. -/
structure Growth where
  magnitude : Rat
  degree : Nat
  deriving DecidableEq, Repr

namespace Growth

def cmp (a b : Growth) : Ordering :=
  (Number.cmp a.magnitude b.magnitude).then (compare a.degree b.degree)

def ofMonomial (m : Monomial) : Growth := ⟨Number.abs m.base, m.counterDegree⟩

def max (a b : Growth) : Growth := if (a.cmp b).isLE then b else a

def largest? : List Growth → Option Growth
  | [] => none
  | g :: rest => some (rest.foldl max g)

/-- The expression `n ^ degree * magnitude ^ n`. -/
def order (g : Growth) : Expr :=
  Expr.term (Monomial.ofSymbol .counter g.degree) 1 * Expr.exponential g.magnitude

end Growth

/-- The fastest growing part of an expression. The coefficient is that of the terms with a positive
base; a term with a negative base makes the part oscillate. -/
structure Dominant where
  growth : Growth
  coefficient : Expr
  oscillates : Bool
  deriving DecidableEq, Repr

namespace Expr

def growths (e : Expr) : List Growth := e.terms.map fun t => Growth.ofMonomial t.1

def dominant? (e : Expr) : Option Dominant :=
  (Growth.largest? e.growths).map fun g =>
    let leading := e.terms.filter fun t => Growth.ofMonomial t.1 == g
    { growth := g
      coefficient := ofTerms ((leading.filter fun t => !decide (t.1.base < 0)).map fun t =>
        ((t.1.without .counter).withBase 1, t.2))
      oscillates := leading.any fun t => decide (t.1.base < 0) }

end Expr

inductive Limit where
  | finite (value : Expr)
  | posInf
  | negInf
  /-- Infinite with the sign of a coefficient that does not depend on the counter. -/
  | signedInf (coefficient : Expr)
  /-- The expression oscillates. -/
  | undefined
  deriving DecidableEq, Repr

namespace Limit

def finiteSign? : Limit → Option Sign
  | finite e => e.sign?
  | _ => none

def isZero : Limit → Bool
  | finite e => e.isZero
  | _ => false

def isNegative (l : Limit) : Bool :=
  l == negInf || l.finiteSign? == some .negative

def isNonpositive (l : Limit) : Bool :=
  l == negInf || l.finiteSign? == some .negative || l.finiteSign? == some .zero

def isNonnegative (l : Limit) : Bool :=
  l == posInf || l.finiteSign? == some .positive || l.finiteSign? == some .zero

/-- The place on the extended line of a limit that has one. -/
def rank? : Limit → Option Int
  | negInf => some (-1)
  | finite _ => some 0
  | posInf => some 1
  | _ => none

def text : Limit → String
  | finite e => e.text
  | posInf => "oo"
  | negInf => "-oo"
  | signedInf c => "oo*sign(" ++ c.text ++ ")"
  | undefined => "undefined"

end Limit

namespace Expr

/-- The limit of the dominant part. -/
def dominantLimit (d : Dominant) : Limit :=
  if d.growth.magnitude < 1 then .finite zero
  else if d.oscillates then .undefined
  else if d.growth.magnitude = 1 ∧ d.growth.degree = 0 then .finite d.coefficient
  else
    match d.coefficient.sign? with
    | some .positive => .posInf
    | some .negative => .negInf
    | _ => .signedInf d.coefficient

/-- The limit when the counter grows; what does not depend on the counter is its own limit. -/
def limit (e : Expr) : Limit :=
  if e.dependsOnCounter then
    match e.dominant? with
    | none => .finite zero
    | some d => dominantLimit d
  else .finite e

/-- The sign at all large counters, if it is the same for all values of the constants. -/
def eventualSign? (e : Expr) : Option Sign :=
  if e.dependsOnCounter then
    match e.dominant? with
    | none => none
    | some d => if d.oscillates then none else d.coefficient.sign?
  else e.sign?

/-- The unit of growth of the dominant part. -/
def growthOrder (e : Expr) : Expr :=
  match e.dominant? with
  | none => zero
  | some d => d.growth.order

end Expr

end ProbLoop
