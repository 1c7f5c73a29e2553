/-!
# Rational numbers

Signs, magnitudes, order and text of the exact rationals in which every coefficient is kept.
-/

set_option autoImplicit false

namespace ProbLoop

inductive Sign where
  | negative
  | zero
  | positive
  deriving DecidableEq, Repr, Inhabited

namespace Sign

def of (q : Rat) : Sign :=
  if 0 < q then positive else if q < 0 then negative else zero

def flip : Sign → Sign
  | negative => positive
  | zero => zero
  | positive => negative

end Sign

namespace Number

def abs (q : Rat) : Rat :=
  if q < 0 then -q else q

def cmp (a b : Rat) : Ordering :=
  compareOfLessAndEq a b

/-- A fraction is written in lowest terms, and an integer without its denominator. -/
def text (q : Rat) : String :=
  if q.den = 1 then toString q.num else toString q.num ++ "/" ++ toString q.den

/-- The quotient of two integers, if the second is not zero. -/
def ratio? (numerator denominator : Int) : Option Rat :=
  if denominator = 0 then none else some ((numerator : Rat) / (denominator : Rat))

def sum (qs : List Rat) : Rat :=
  qs.foldl (· + ·) 0

def minimum? (qs : List Rat) : Option Rat :=
  match qs with
  | [] => none
  | q :: rest => some (rest.foldl (fun a b => if b < a then b else a) q)

def maximum? (qs : List Rat) : Option Rat :=
  match qs with
  | [] => none
  | q :: rest => some (rest.foldl (fun a b => if a < b then b else a) q)

end Number

end ProbLoop
