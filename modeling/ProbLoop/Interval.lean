import ProbLoop.Number.Power

/-!
# Intervals of extended rationals

The range of a random draw is an interval whose ends are rationals or infinite. Powers of an
interval are again intervals: an even power folds the negative part onto the positive one.
-/

set_option autoImplicit false

namespace ProbLoop

inductive Endpoint where
  | negInf
  | finite (value : Rat)
  | posInf
  deriving DecidableEq, Repr, Inhabited

namespace Endpoint

def sign : Endpoint → Sign
  | negInf => .negative
  | finite q => Sign.of q
  | posInf => .positive

def isFinite : Endpoint → Bool
  | finite _ => true
  | _ => false

def finite? : Endpoint → Option Rat
  | finite q => some q
  | _ => none

def pow (e : Endpoint) (k : Nat) : Endpoint :=
  match e with
  | finite q => finite (Number.pow q k)
  | posInf => if k = 0 then finite 1 else posInf
  | negInf => if k = 0 then finite 1 else if k % 2 = 0 then posInf else negInf

def le : Endpoint → Endpoint → Bool
  | negInf, _ => true
  | _, posInf => true
  | finite a, finite b => decide (a ≤ b)
  | _, _ => false

def max (a b : Endpoint) : Endpoint :=
  if a.le b then b else a

def text : Endpoint → String
  | negInf => "-oo"
  | finite q => Number.text q
  | posInf => "oo"

end Endpoint

structure Interval where
  low : Endpoint
  high : Endpoint
  deriving DecidableEq, Repr, Inhabited

namespace Interval

/-- The values of `x ^ k` for `x` in the interval. -/
def pow (i : Interval) (k : Nat) : Interval :=
  let low := i.low.pow k
  let high := i.high.pow k
  if k % 2 = 0 then
    if i.high.sign = .negative then ⟨high, low⟩
    else if i.low.sign = .negative then ⟨.finite 0, high.max low⟩
    else ⟨low, high⟩
  else ⟨low, high⟩

/-- Both ends, if neither is infinite. -/
def finite? (i : Interval) : Option (Rat × Rat) :=
  match i.low, i.high with
  | .finite a, .finite b => some (a, b)
  | _, _ => none

/-- A number lies in the interval. -/
def Contains (i : Interval) (x : Rat) : Prop :=
  i.low.le (.finite x) = true ∧ (Endpoint.finite x).le i.high = true

end Interval

end ProbLoop
