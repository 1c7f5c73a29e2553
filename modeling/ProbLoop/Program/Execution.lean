import ProbLoop.Expr.Value
import ProbLoop.Program.Basic

/-!
# Running a loop

An iteration assigns the variables one after the other, and each assignment reads the values that
were assigned before it. Choices between branches are independent of each other. The probabilities
of all outcomes of an iteration are kept when its draws are given, and those of all states after
several iterations when there are none. What may happen at all is said by relations, which also hold
of draws.
-/

set_option autoImplicit false

namespace ProbLoop

/-- The valuation that gives one symbol a new value. -/
def Valuation.set (v : Valuation) (s : Symbol) (q : Rat) : Valuation :=
  fun t => if t = s then q else v t

/-- A state in which a loop may be, and how likely it is. -/
structure Outcome where
  state : Valuation
  probability : Rat

namespace Outcome

/-- The outcomes when a variable is assigned one of the given branches. They do not mention the
counter, so they have the same value in every iteration. -/
def choose (s : Symbol) (branches : List (Expr × Rat)) (o : Outcome) : List Outcome :=
  branches.map fun b => ⟨o.state.set s (b.1.value 0 o.state), o.probability * b.2⟩

def total (os : List Outcome) : Rat :=
  os.foldr (fun o acc => o.probability + acc) 0

end Outcome

/-- The outcomes of one assignment; a variable that is drawn takes the value given for it. -/
def Declaration.outcomes (draws : Valuation) (d : Declaration) (o : Outcome) : List Outcome :=
  match d.update with
  | .random _ => [{ o with state := o.state.set d.symbol (draws d.symbol) }]
  | .branches bs => o.choose d.symbol bs

/-- The outcomes of the initial values, if none of them is drawn. -/
def Declaration.initialOutcomes (d : Declaration) (o : Outcome) : List Outcome :=
  match d.initial with
  | .random _ => [o]
  | .branches bs => o.choose d.symbol bs

/-- A value that may be assigned in a given state. A value that the program leaves open is that of
its constant. -/
def Update.Assigns (u : Update) (v : Valuation) (q : Rat) : Prop :=
  match u with
  | .branches bs => ∃ b ∈ bs, q = b.1.value 0 v
  | .random (.unknown s) => q = v s
  | .random d => d.range.Contains q

/-- What the assignments of a list may lead to, one after the other. -/
inductive Assignments : List Declaration → Valuation → Valuation → Prop
  | done (v : Valuation) : Assignments [] v v
  | assign {d : Declaration} {rest : List Declaration} {v w : Valuation} {q : Rat}
      (assigned : d.update.Assigns v q) (after : Assignments rest (v.set d.symbol q) w) :
      Assignments (d :: rest) v w

namespace Program

/-- The outcomes of one iteration, one for each combination of branches. -/
def outcomes (p : Program) (draws : Valuation) (v : Valuation) : List Outcome :=
  p.declarations.foldl (fun os d => os.flatMap (d.outcomes draws)) [⟨v, 1⟩]

/-- What an iteration works on: its draws, and the values before it of all other variables. -/
def drawn (p : Program) (draws v : Valuation) : Valuation :=
  fun s => if p.isRandom s then draws s else v s

/-- The outcomes of the initial values, one for each combination of branches. -/
def initialOutcomes (p : Program) : List Outcome :=
  p.declarations.foldl (fun os d => os.flatMap d.initialOutcomes) [⟨fun _ => 0, 1⟩]

/-- The outcomes of one more iteration from an outcome, without draws. -/
def continuations (p : Program) (o : Outcome) : List Outcome :=
  (p.outcomes o.state o.state).map fun next =>
    { next with probability := o.probability * next.probability }

/-- The outcomes of the first `k` iterations, each of which found the guard positive. -/
def survivors (p : Program) : Nat → List Outcome
  | 0 => p.initialOutcomes
  | k + 1 =>
    ((survivors p k).filter fun o => decide (0 < p.guard.value 0 o.state)).flatMap p.continuations

/-- The probability that the loop runs for at least `k` iterations. -/
def survival (p : Program) (k : Nat) : Rat :=
  Outcome.total (p.survivors k)

/-- Every variable has a value that its initial distribution allows. -/
def IsInitial (p : Program) (v : Valuation) : Prop :=
  ∀ d ∈ p.declarations, d.initial.Assigns v (v d.symbol)

/-- The states that may be reached after `n` iterations if the guard is ignored. -/
inductive Reaches (p : Program) : Nat → Valuation → Prop
  | start {v : Valuation} (initial : p.IsInitial v) : Reaches p 0 v
  | next {n : Nat} {v w : Valuation} (before : Reaches p n v)
      (iteration : Assignments p.declarations v w) : Reaches p (n + 1) w

end Program

end ProbLoop
