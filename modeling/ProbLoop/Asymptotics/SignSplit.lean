import ProbLoop.Asymptotics.Dominance
import ProbLoop.Expr.Collect
import ProbLoop.Expr.Substitution

/-!
# Splitting on an unknown sign

If the limit of an expression is infinite with the sign of a coefficient `c`, a constant that occurs
linearly in `c` is solved for `c = e` and for `c = -e` with a fresh positive `e`. The two resulting
expressions tend to plus and to minus infinity. Candidates whose limit has a known sign are kept, and the
others are split in their turn; a work list does so until no candidate is left.
-/

set_option autoImplicit false

namespace ProbLoop.Expr

/-- A symbol that occurs linearly, with its factor and the rest. -/
structure Solvable where
  symbol : Symbol
  factor : Rat
  rest : Expr

/-- Constants of unknown sign are preferred to positive ones. -/
def solvable? (c : Expr) : Option Solvable :=
  let constants := c.freeSymbols.filter Symbol.isConstant
  (constants.filter (fun s => !s.isPositive) ++ constants.filter Symbol.isPositive).findSome?
    fun s => (c.linearIn? s).map fun p => ⟨s, p.1, p.2⟩

/-- The expression with the constant chosen so that the coefficient takes the given value. -/
def solveFor (e : Expr) (s : Solvable) (target : Expr) : Expr :=
  e.subst s.symbol ((target - s.rest).scale s.factor⁻¹)

/-- The expression itself, if its limit has a known sign, and otherwise the two cases. -/
def splitSign (e : Expr) : Attempt Supply (List Expr) :=
  match e.limit with
  | .signedInf c =>
    match c.solvable? with
    | none => throw (.unexpected (.signStays c e))
    | some s => do
      let positive := ofSymbol (← Supply.draw "e")
      return [e.solveFor s (-positive), e.solveFor s positive]
  | _ => return [e]

/-- The candidates that may still be split, the next one first, and those that are kept. -/
structure Worklist where
  pending : List Expr
  kept : List Expr

namespace Worklist

/-- Takes the next candidate, and splits it or keeps it. -/
def round : Worklist → Attempt Supply Worklist
  | ⟨[], kept⟩ => return ⟨[], kept⟩
  | ⟨e :: rest, kept⟩ =>
    match e.limit with
    | .signedInf c =>
      match c.solvable? with
      | none => throw (.unexpected (.signStays c e))
      | some s => do
        let positive := ofSymbol (← Supply.draw "e")
        return ⟨e.solveFor s (-positive) :: e.solveFor s positive :: rest, kept⟩
    | _ => return ⟨rest, kept ++ [e]⟩

/-- The work list after the given number of rounds. -/
def rounds : Nat → Worklist → Attempt Supply Worklist
  | 0, w => return w
  | k + 1, w => do rounds k (← w.round)

end Worklist

end ProbLoop.Expr
