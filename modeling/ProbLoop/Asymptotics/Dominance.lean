import ProbLoop.Asymptotics.Limit
import ProbLoop.Error

/-!
# Dominance

One expression dominates another if, for large counters, it is on the outer side of some positive
multiple of it. Upper bounds are compared toward positive infinity and lower bounds toward negative
infinity. Folding a list of candidates keeps an expression that dominates the others and replaces it
by a canonical one, a fresh positive constant times its unit of growth.
-/

set_option autoImplicit false

namespace ProbLoop

inductive Direction where
  | up
  | down
  deriving DecidableEq, Repr

namespace Direction

/-- A sign as seen in the given direction. -/
def orient : Direction → Sign → Sign
  | up, s => s
  | down, s => s.flip

end Direction

namespace Expr

/-- The order of the growths of the dominant parts. -/
def cmpGrowth? (f g : Expr) : Option Ordering :=
  match f.dominant?, g.dominant? with
  | some a, some b => some (a.growth.cmp b.growth)
  | _, _ => none

/-- Compares two expressions by their signs at large counters and by their growth. -/
def dominatesByGrowth (f g : Expr) (direction : Direction) : Bool :=
  match f.eventualSign?, g.eventualSign? with
  | some s, some t =>
    match direction.orient s, direction.orient t with
    | .positive, .positive => (f.cmpGrowth? g).any Ordering.isGE
    | .negative, .negative => (f.cmpGrowth? g).any Ordering.isLE
    | .positive, _ => true
    | .zero, .negative => true
    | .zero, .zero => true
    | _, _ => false
  | _, _ => false

/-- Compares two finite limits. A limit on the outer side of zero dominates every other one, and so
does every limit one on the inner side. -/
def dominatesFinite (a b : Expr) (direction : Direction) : Bool :=
  let outer := fun (e : Expr) => e.sign?.map direction.orient
  (a.isZero && b.isZero) || outer a == some .positive || outer b == some .negative
    || outer (a - b) == some .positive || outer (a - b) == some .zero

/-- For large counters `f` is on the outer side of some positive multiple of `g`. -/
def dominates (f g : Expr) (direction : Direction) : Bool :=
  if f = g then true
  else
    match f.limit, g.limit with
    | .finite a, .finite b => dominatesFinite a b direction
    | a, b =>
      match a.rank?, b.rank? with
      | some i, some j =>
        if i = j then dominatesByGrowth f g direction
        else
          match direction with
          | .up => decide (j < i)
          | .down => decide (i < j)
      | _, _ => false

/-- Holds of a single term that is, up to its sign, a positive constant times a unit of growth. -/
def isCanonical (e : Expr) : Bool :=
  match e.terms with
  | [(m, c)] =>
    match (m.without .counter).powers with
    | [(s, k)] => decide (Number.abs c = 1) && decide (0 < m.base) && k == 1 && s.isPositive
    | _ => false
  | _ => false

/-- A fresh positive constant times the unit of growth of the dominant part, with the sign of its
coefficient. Without a known sign there is no such expression. -/
def canonicalOf? (e : Expr) : Option (Symbol → Expr) :=
  match e.dominant? with
  | none => none
  | some d =>
    if d.oscillates then none
    else
      match d.coefficient.sign? with
      | some .positive => some fun c => ofSymbol c * d.growth.order
      | some .negative => some fun c => (ofSymbol c * d.growth.order).scale (-1)
      | _ => none

/-- Holds of an expression that is kept as it is: one without the counter, one that vanishes at
infinity, and one that is canonical already. -/
def isSettled (e : Expr) : Bool :=
  !e.dependsOnCounter || e.limit.isZero || e.isCanonical

/-- Collapses an expression to its dominant part times a fresh positive constant. -/
def canonicalize (e : Expr) : StateM Supply Expr :=
  if e.isSettled then pure e
  else
    match e.canonicalOf? with
    | none => pure e
    | some make => do return make (← Supply.draw "c")

/-- Goes on to a candidate that dominates the one kept so far and is not dominated by it. -/
def dominantOf (direction : Direction) (kept : Expr) : List Expr → Expr
  | [] => kept
  | f :: rest =>
    if kept.dominates f direction then dominantOf direction kept rest
    else if f.dominates kept direction then dominantOf direction f rest
    else dominantOf direction kept rest

/-- A bound of all candidates for large counters, made canonical. -/
def eventualBound (direction : Direction) : List Expr → Attempt Supply Expr
  | [] => throw (.unexpected .emptyBound)
  | f :: rest => canonicalize (dominantOf direction f rest)

/-- An upper bound of all candidates for large counters. -/
def dominating (fs : List Expr) : Attempt Supply Expr := eventualBound .up fs

/-- A lower bound of all candidates for large counters. -/
def dominated (fs : List Expr) : Attempt Supply Expr := eventualBound .down fs

end Expr

end ProbLoop
