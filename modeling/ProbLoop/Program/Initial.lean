import ProbLoop.Expr.Collect
import ProbLoop.Expr.Iteration
import ProbLoop.Expr.Substitution
import ProbLoop.Polarity
import ProbLoop.Program.Basic

/-!
# Before the first iteration

Variables with a single initial value are replaced by it. Powers of the others range over the
support of the initial distribution, and the signs of an expression are those it has at the corners
of the resulting box.
-/

set_option autoImplicit false

namespace ProbLoop.Program

/-- The value of a variable that starts with certainty at an expression. -/
def fixedInitial? (p : Program) (s : Symbol) : Option Expr :=
  if s.isVar then (p.initial? s).bind Update.single? else none

/-- An expression before the first iteration, in terms of the variables without a single value. -/
def initialValue (p : Program) (e : Expr) : Expr :=
  (e.atIteration 0).substAll p.fixedInitial?

/-- The mean of a monomial before the first iteration; initial values are independent. -/
def initialMoment (p : Program) (m : Monomial) : Expr :=
  m.powers.foldl (fun acc s =>
    match p.initial? s.1 with
    | some u => acc * u.moment s.2
    | none => acc * (Expr.ofSymbol s.1).pow s.2) Expr.one

/-- The largest number of powers whose box of initial values is searched. -/
def maxAtoms : Nat := 16

/-- The powers that occur in the monomials of an expression. -/
def atoms (monomials : List Monomial) : List (Symbol × Nat) :=
  (monomials.flatMap (·.powers)).foldl
    (fun acc a => if acc.contains a then acc else acc ++ [a]) []

/-- The two ends of the initial values of a power. -/
def atomRange? (p : Program) (a : Symbol × Nat) : Option ((Symbol × Nat) × Rat × Rat) :=
  ((p.initial? a.1).bind fun u => u.support a.2).bind fun i => i.finite?.map fun ends => (a, ends)

/-- A choice of an end for every power. -/
def corners : List ((Symbol × Nat) × Rat × Rat) → List (List ((Symbol × Nat) × Rat))
  | [] => [[]]
  | (a, low, high) :: rest =>
    (corners rest).flatMap fun corner => [(a, low) :: corner, (a, high) :: corner]

/-- The value of a polynomial with rational coefficients at a corner. -/
def atCorner (terms : List (Monomial × Rat)) (corner : List ((Symbol × Nat) × Rat)) : Rat :=
  Number.sum (terms.map fun t =>
    t.1.powers.foldl (fun acc a => acc * (Assoc.find? a corner).getD 0) t.2)

/-- The coefficients of a polynomial over the variables, if all of them are numbers. -/
def numericTerms? (e : Expr) : Option (List (Monomial × Rat)) :=
  (e.collect Symbol.isVar).mapM fun g => g.2.constant?.map fun c => (g.1, c)

/-- The signs that an expression may have before the first iteration. -/
def initialPolarity (p : Program) (e : Expr) : Polarity :=
  let value := p.initialValue e
  match value.constant?, numericTerms? value with
  | some c, _ => Polarity.of c
  | none, none => .both
  | none, some terms =>
    let powers := atoms (terms.map (·.1))
    if maxAtoms < powers.length then .both
    else
      match powers.mapM p.atomRange? with
      | none => .both
      | some ranges =>
        (corners ranges).foldl (fun acc corner =>
          if acc = .both then acc else acc.or (Polarity.of (atCorner terms corner))) .neither

end ProbLoop.Program
