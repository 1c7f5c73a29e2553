/-!
# Symbols

An expression mentions the iteration counter, program variables, real constants of unknown sign
(such as an unspecified initial value) and strictly positive constants (introduced when a bound
is given up to a positive factor). Symbols are ordered by kind first and by name second.
-/

set_option autoImplicit false

namespace ProbLoop

inductive Symbol where
  | counter
  | var (name : String)
  | real (name : String)
  | positive (name : String)
  deriving DecidableEq, Repr, Inhabited

namespace Symbol

/-- The counter is written `n`. -/
def name : Symbol → String
  | counter => "n"
  | var s => s
  | real s => s
  | positive s => s

def isCounter : Symbol → Bool
  | counter => true
  | _ => false

def isVar : Symbol → Bool
  | var _ => true
  | _ => false

/-- Holds of the symbols that stand for a fixed but unknown number. -/
def isConstant : Symbol → Bool
  | real _ => true
  | positive _ => true
  | _ => false

def isPositive : Symbol → Bool
  | positive _ => true
  | _ => false

def kindRank : Symbol → Nat
  | counter => 0
  | var _ => 1
  | real _ => 2
  | positive _ => 3

def cmp (a b : Symbol) : Ordering :=
  (compare a.kindRank b.kindRank).then (compare a.name b.name)

end Symbol

/-- A source of constants that no expression mentions yet. -/
structure Supply where
  next : Nat
  deriving DecidableEq, Repr, Inhabited

/-- The name of a fresh constant is a letter followed by the number of constants drawn before. -/
def Supply.draw (letter : String) : StateM Supply Symbol := fun supply =>
  (.positive (letter ++ toString supply.next), ⟨supply.next + 1⟩)

end ProbLoop
