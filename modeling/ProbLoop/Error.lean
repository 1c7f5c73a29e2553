import ProbLoop.Distribution
import ProbLoop.Expr.Text

/-!
# Errors

A program can be malformed, a question can be left undecided, and an expression can have a shape
that the analysis does not handle. Only an undecided question is absorbed by the proof rules.
-/

set_option autoImplicit false

namespace ProbLoop

/-- What is wrong with a source text that follows the grammar. -/
inductive ReadingFault where
  | divisionByZero
  | divisionByNonConstant
  | exponentTooLarge (digits : String)
  | notANumber
  | secondRemainder
  | reserved (name : String)
  | guardNotStrict
  deriving DecidableEq, Repr

def ReadingFault.message : ReadingFault → String
  | divisionByZero => "division by zero"
  | divisionByNonConstant => "division by a non-constant expression"
  | exponentTooLarge digits => "exponent `" ++ digits ++ "` is too large"
  | notANumber => "expected a number"
  | secondRemainder => "more than one branch without probability"
  | reserved name => "`" ++ name ++ "` is reserved"
  | guardNotStrict => "only strict guards are supported"

/-- Why a loop does not have the shape for which moments satisfy linear recurrences. -/
inductive ShapeFault where
  | updatedTwice
  | unknownDistribution
  | updateUsesCounter
  | nonLinear
  | coefficientNotConstant
  | initialNotNumber
  | guardUsesCounter
  deriving DecidableEq, Repr

def ShapeFault.message : ShapeFault → String
  | updatedTwice => "variable is updated more than once"
  | unknownDistribution => "unknown distributions are only allowed as initial values"
  | updateUsesCounter => "update depends on the iteration counter"
  | nonLinear => "non-linear self-dependency"
  | coefficientNotConstant => "self-dependency with a non-constant coefficient"
  | initialNotNumber => "initial values must be numbers"
  | guardUsesCounter => "the guard depends on the iteration counter"

/-- A question that the analysis leaves open. -/
inductive OpenQuestion where
  | recurrenceCoefficient (m : Monomial) (coefficient : Expr)
  | caseCoefficient (coefficient : Expr) (m : Monomial) (case : Expr)
  | unboundedSupport (s : Symbol) (power : Nat)
  | coefficientSign (coefficient : Expr) (m : Monomial)
  deriving DecidableEq, Repr

def OpenQuestion.message : OpenQuestion → String
  | recurrenceCoefficient m c =>
    "recurrence of `" ++ m.text ++ "` has the non-constant coefficient `" ++ c.text ++ "`"
  | caseCoefficient c m e =>
    "coefficient `" ++ c.text ++ "` of `" ++ m.text ++ "` in case `" ++ e.text
      ++ "` is not a number"
  | unboundedSupport s k => "`" ++ s.name ++ "^" ++ toString k ++ "` has unbounded support"
  | coefficientSign c m =>
    "sign of the coefficient `" ++ c.text ++ "` of `" ++ m.text ++ "` is unknown"

/-- A shape that the analysis does not expect. -/
inductive Unexpected where
  | closedFormCycle (m : Monomial)
  | branchesCycle (m : Monomial)
  | boundsCycle (m : Monomial)
  | emptyBound
  | signStays (coefficient candidate : Expr)
  | noBranches (m : Monomial)
  deriving DecidableEq, Repr

def Unexpected.message : Unexpected → String
  | closedFormCycle m => "closed form of `" ++ m.text ++ "` depends on itself"
  | branchesCycle m => "branches of `" ++ m.text ++ "` depend on themselves"
  | boundsCycle m => "bounds of `" ++ m.text ++ "` depend on themselves"
  | emptyBound => "eventual bound of an empty list"
  | signStays c e => "cannot eliminate sign(" ++ c.text ++ ") from `" ++ e.text ++ "`"
  | noBranches m => "`" ++ m.text ++ "` has no branches"

inductive Error where
  /-- The text does not follow the grammar; the line is the one reached by the reader. -/
  | ungrammatical (line : Nat)
  | reading (line : Nat) (fault : ReadingFault)
  | probability (name : String) (p : Rat)
  | probabilitySum (name : String) (sum : Rat)
  | unknownVariable (name : String)
  | circularDependency (name dependency : String)
  | notSolvable (name : String) (fault : ShapeFault)
  | distribution (name : String) (fault : DistributionFault)
  | missingGuard
  | undecided (question : OpenQuestion)
  | unexpected (shape : Unexpected)
  deriving DecidableEq, Repr

namespace Error

def message : Error → String
  | ungrammatical line => "parse error at line " ++ toString line ++ ": unexpected text"
  | reading line fault => "parse error at line " ++ toString line ++ ": " ++ fault.message
  | probability name p =>
    "invalid probability " ++ Number.text p ++ " in update of `" ++ name ++ "`"
  | probabilitySum name sum =>
    "branch probabilities for `" ++ name ++ "` sum up to " ++ Number.text sum ++ " instead of 1"
  | unknownVariable name => "unknown variable `" ++ name ++ "`"
  | circularDependency name dependency =>
    "circular variable dependency: `" ++ name ++ "` uses `" ++ dependency
      ++ "` which is updated later"
  | notSolvable name fault =>
    "update of `" ++ name ++ "` is not prob-solvable: " ++ fault.message
  | distribution name fault => "invalid distribution for `" ++ name ++ "`: " ++ fault.message
  | missingGuard => "program has no loop guard"
  | undecided question => "unsupported: " ++ question.message
  | unexpected shape => "internal assumption violated: " ++ shape.message

/-- Holds of an error that only says that a question was left open. -/
def isUndecided : Error → Bool
  | undecided _ => true
  | _ => false

end Error

/-- A computation over a state that may fail, and that keeps the state it reached if it does. -/
abbrev Attempt (σ : Type) := ExceptT Error (StateM σ)

namespace Attempt

variable {σ τ α : Type}

/-- Runs a computation on a part of the state. -/
def within (part : σ → τ) (replace : σ → τ → σ) (x : Attempt τ α) : Attempt σ α :=
  ExceptT.mk fun s =>
    let (result, t) := x.run.run (part s)
    (result, replace s t)

def ofExcept (x : Except Error α) : Attempt σ α :=
  ExceptT.mk fun s => (x, s)

end Attempt

end ProbLoop
