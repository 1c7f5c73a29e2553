import ProbLoop.Distribution
import ProbLoop.Expr.Text

/-!
# Updates

What a variable is assigned, by the loop body or initially: one of finitely many expressions, each
taken with a given probability, or a draw from a distribution.
-/

set_option autoImplicit false

namespace ProbLoop

inductive Update where
  | branches (alternatives : List (Expr × Rat))
  | random (distribution : Distribution)
  deriving DecidableEq, Repr

namespace Update

def deterministic (e : Expr) : Update :=
  branches [(e, 1)]

def isRandom : Update → Bool
  | random _ => true
  | branches _ => false

def branches? : Update → Option (List (Expr × Rat))
  | branches bs => some bs
  | random _ => none

/-- The expression of an update that has just one branch. -/
def single? : Update → Option Expr
  | branches [(e, _)] => some e
  | _ => none

/-- Holds of an initial value that is the same in every run. -/
def isFixed : Update → Bool
  | branches bs => bs.length == 1
  | random (.unknown _) => true
  | random _ => false

/-- The mean of the `k`-th power of the assigned value, in terms of the variables on the right. -/
def moment (u : Update) (k : Nat) : Expr :=
  match u with
  | branches bs => Expr.sum (bs.map fun b => (b.1.pow k).scale b.2)
  | random d => d.moment k

/-- An interval that holds the `k`-th power of every assigned value, if every branch is a number. -/
def support (u : Update) (k : Nat) : Option Interval :=
  match u with
  | random d => some (d.support k)
  | branches bs =>
    match bs.mapM fun b => b.1.constant?.map (Number.pow · k) with
    | none => none
    | some values =>
      match Number.minimum? values, Number.maximum? values with
      | some low, some high => some ⟨.finite low, .finite high⟩
      | _, _ => none

/-- A branch that is taken with certainty is written without its probability. -/
def branchText (b : Expr × Rat) : String :=
  if b.2 = 1 then b.1.text else b.1.text ++ " @ " ++ Number.text b.2

def text : Update → String
  | random d => d.text
  | branches bs => String.intercalate "; " (bs.map branchText)

end Update

end ProbLoop
