import ProbLoop.Error
import ProbLoop.Program.Basic

/-!
# Checking programs

A draft lists initial values and updates in the order in which they are written. It becomes a
program if every update is a draw or a choice between expressions in which the variable itself
occurs at most linearly, with a number as its coefficient, beside variables that are updated before
it.
-/

set_option autoImplicit false

namespace ProbLoop

structure Draft where
  initial : List (String × Update)
  updates : List (String × Update)
  guard : Option Expr
  deriving DecidableEq, Repr

namespace Draft

/-- What is entered into a draft. -/
inductive Entry where
  | initial (name : String) (value : Update)
  | update (name : String) (value : Update)
  | guard (e : Expr)
  deriving DecidableEq, Repr

def empty : Draft := ⟨[], [], none⟩

/-- Initial values and updates are added at the end; a guard takes the place of an earlier one. -/
def enter (d : Draft) : Entry → Draft
  | .initial name value => { d with initial := d.initial ++ [(name, value)] }
  | .update name value => { d with updates := d.updates ++ [(name, value)] }
  | .guard e => { d with guard := some e }

def ofEntries (entries : List Entry) : Draft :=
  entries.foldl enter empty

/-- The names in the order of their first occurrence. -/
def distinct (names : List String) : List String :=
  names.foldl (fun acc s => if acc.contains s then acc else acc ++ [s]) []

/-- The variables that only have an initial value. They come first and never change. -/
def constants (d : Draft) : List (String × Update) :=
  let updated := d.updates.map (·.1)
  (distinct ((d.initial.map (·.1)).filter (fun s => !updated.contains s))).map
    (fun s => (s, Update.deterministic (.ofSymbol (.var s))))

/-- The first name that occurs a second time. -/
def repeated? : List String → List String → Option String
  | _, [] => none
  | seen, s :: rest => if seen.contains s then some s else repeated? (s :: seen) rest

def checkProbabilitiesFrom (name : String) (sum : Rat) : List (Expr × Rat) → Except Error Unit
  | [] => if sum = 1 then .ok () else .error (.probabilitySum name sum)
  | (_, p) :: rest =>
    if p ≤ 0 ∨ 1 < p then .error (.probability name p)
    else checkProbabilitiesFrom name (sum + p) rest

/-- Every probability is positive and at most one, and all of them add up to one. -/
def checkProbabilities (name : String) (bs : List (Expr × Rat)) : Except Error Unit :=
  checkProbabilitiesFrom name 0 bs

/-- An update mentions no counter and no variable that is updated later. -/
def checkSymbols (name : String) (earlier : List String) : List Symbol → Except Error Unit
  | [] => .ok ()
  | .counter :: _ => .error (.notSolvable name .updateUsesCounter)
  | .var s :: rest =>
    if s = name ∨ s ∈ earlier then checkSymbols name earlier rest
    else .error (.circularDependency name s)
  | _ :: rest => checkSymbols name earlier rest

def checkBranch (name : String) (earlier : List String) (e : Expr) : Except Error Unit := do
  checkSymbols name earlier e.freeSymbols
  let self := Symbol.var name
  if 1 < e.degreeIn self then
    .error (.notSolvable name .nonLinear)
  else if (e.collected (· == self) (.ofSymbol self 1)).constant?.isNone then
    .error (.notSolvable name .coefficientNotConstant)
  else .ok ()

def checkUpdate (name : String) (earlier : List String) : Update → Except Error Unit
  | .random (.unknown _) => .error (.notSolvable name .unknownDistribution)
  | .random _ => .ok ()
  | .branches bs => do
    checkProbabilities name bs
    bs.forM (fun b => checkBranch name earlier b.1)

def checkUpdates : List String → List (String × Update) → Except Error Unit
  | _, [] => .ok ()
  | earlier, (name, update) :: rest => do
    checkUpdate name earlier update
    checkUpdates (name :: earlier) rest

def checkInitial (name : String) : Update → Except Error Unit
  | .random _ => .ok ()
  | .branches bs => do
    checkProbabilities name bs
    if bs.any (fun b => b.1.constant?.isNone) then
      .error (.notSolvable name .initialNotNumber)
    else .ok ()

def checkGuard (names : List String) : List Symbol → Except Error Unit
  | [] => .ok ()
  | .counter :: _ => .error (.notSolvable "loop guard" .guardUsesCounter)
  | .var s :: rest => if s ∈ names then checkGuard names rest else .error (.unknownVariable s)
  | _ :: rest => checkGuard names rest

/-- A variable without an initial value starts at a constant named after it. -/
def unknownInitial (name : String) : Update :=
  .random (.unknown (.real (name ++ "0")))

/-- The last initial value that is given for a name. -/
def initialOf (d : Draft) (name : String) : Update :=
  (Assoc.find? name d.initial.reverse).getD (unknownInitial name)

def build (d : Draft) : Except Error Program :=
  match d.guard with
  | none => .error .missingGuard
  | some guard =>
    match repeated? [] (d.updates.map (·.1)) with
    | some name => .error (.notSolvable name .updatedTwice)
    | none => do
      let updates := d.constants ++ d.updates
      checkUpdates [] updates
      d.initial.forM (fun i => checkInitial i.1 i.2)
      checkGuard (updates.map (·.1)) guard.freeSymbols
      .ok ⟨updates.map (fun u => ⟨u.1, d.initialOf u.1, u.2⟩), guard⟩

end Draft

end ProbLoop
