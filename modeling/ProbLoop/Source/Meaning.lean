import ProbLoop.Expr.Narrow
import ProbLoop.Program.Draft
import ProbLoop.Source.Grammar

/-!
# What a source means

Phrases become expressions once it is known for what their names stand, and a source becomes a
program. Of several faults the first in reading order is reported.
-/

set_option autoImplicit false

namespace ProbLoop

namespace Source

/-- What a name stands for, if anything. -/
abbrev Resolver := String → Option Symbol

/-- The largest exponent that a source may write. -/
def maxExponent : Nat := (1 <<< 32) - 1

def divide (line : Nat) (a b : Expr) : Except Error Expr :=
  match b.constant? with
  | none => .error (.reading line .divisionByNonConstant)
  | some c => if c = 0 then .error (.reading line .divisionByZero) else .ok (a.scale c⁻¹)

/-- A power by repeated squaring, with the given product. -/
def raise (times : Expr → Expr → Expr) (line : Nat) (base : Expr) (digits : String) :
    Except Error Expr :=
  let k := digitsValue digits.toList
  if k ≤ maxExponent then .ok (powerInto times .one base k)
  else .error (.reading line (.exponentTooLarge digits))

/-- The expression for which a phrase stands, with the given product. -/
def Phrase.toExprBy (times : Expr → Expr → Expr) (resolve : Resolver) : Phrase → Except Error Expr
  | .number q => .ok (.const q)
  | .name s =>
    match resolve s with
    | some symbol => .ok (.ofSymbol symbol)
    | none => .error (.unknownVariable s)
  | .sum a b => do
    let left ← a.toExprBy times resolve
    return left + (← b.toExprBy times resolve)
  | .difference a b => do
    let left ← a.toExprBy times resolve
    return left - (← b.toExprBy times resolve)
  | .product a b => do
    let left ← a.toExprBy times resolve
    return times left (← b.toExprBy times resolve)
  | .quotient line a b => do
    let left ← a.toExprBy times resolve
    divide line left (← b.toExprBy times resolve)
  | .negated a => do return -(← a.toExprBy times resolve)
  | .raised line base digits => do raise times line (← base.toExprBy times resolve) digits

/-- In a program exponents are as large as they become. -/
def Phrase.toExpr (resolve : Resolver) (f : Phrase) : Except Error Expr :=
  f.toExprBy (· * ·) resolve

/-- A phrase without names that stands for a number. -/
def toNumber (p : Located Phrase) : Except Error Rat := do
  match (← p.value.toExpr (fun _ => none)).constant? with
  | some q => .ok q
  | none => .error (.reading p.line .notANumber)

/-- The branches read so far, and the expression of the branch without a probability. -/
abbrev Alternatives := List (Expr × Rat) × Option Expr

/-- Adds a branch. One that has probability zero is dropped. -/
def addBranch (resolve : Resolver) (line : Nat) (known : Alternatives)
    (b : Phrase × Option (Located Phrase)) : Except Error Alternatives := do
  let value ← b.1.toExpr resolve
  match b.2 with
  | none =>
    if known.2.isSome then .error (.reading line .secondRemainder) else .ok (known.1, some value)
  | some phrase =>
    let p ← toNumber phrase
    .ok (if p = 0 then known else (known.1 ++ [(value, p)], known.2))

/-- The branch without a probability takes what the others leave, unless that is nothing. -/
def settle (known : Alternatives) : List (Expr × Rat) :=
  match known.2 with
  | none => known.1
  | some value =>
    let rest := 1 - Number.sum (known.1.map (·.2))
    if rest = 0 then known.1 else known.1 ++ [(value, rest)]

/-- The update that a right-hand side stands for. -/
def toUpdate (resolve : Resolver) (name : String) (u : Located UpdatePhrase) :
    Except Error Update := do
  match u.value with
  | .draw distribution parameters =>
    match Distribution.ofName distribution (← parameters.mapM toNumber) with
    | .ok d => .ok (.random d)
    | .error fault => .error (.distribution name fault)
  | .choice branches =>
    return .branches (settle (← branches.foldlM (addBranch resolve u.line) ([], none)))

def checkReserved (s : Statement) : Except Error Unit :=
  if s.name = "n" ∨ s.name = "RV" then .error (.reading s.line (.reserved s.name)) else .ok ()

def toGuard (resolve : Resolver) (g : GuardPhrase) : Except Error Expr := do
  let left ← g.left.toExpr resolve
  let right ← g.right.toExpr resolve
  match g.comparison with
  | .greater => .ok (left - right)
  | .less => .ok (right - left)
  | _ => .error (.reading g.line .guardNotStrict)

def ProgramPhrase.toProgram (p : ProgramPhrase) : Except Error Program := do
  match p.loop with
  | none => .error .missingGuard
  | some loop =>
    (p.initial ++ loop.body).forM checkReserved
    let names := (p.initial ++ loop.body).map (·.name)
    let resolve : Resolver := fun s => if s ∈ names then some (.var s) else none
    let assign := fun (s : Statement) => do return (s.name, ← toUpdate resolve s.name s.update)
    let initial ← p.initial.mapM assign
    let updates ← loop.body.mapM assign
    let guard ← toGuard resolve loop.guard
    (Draft.mk initial updates (some guard)).build

end Source

open Source

/-- Reads an expression whose names are given a meaning by `resolve`. -/
def Expr.parse (resolve : Resolver) (text : String) : Except Error Expr := do
  (← readPhrase text).toExprBy Expr.mulNarrow resolve

/-- Reads a loop and checks it. -/
def Program.parse (text : String) : Except Error Program := do
  (← readProgram text).toProgram

/-- In an expression about a program, names stand for its variables and `n` for the counter. -/
def Program.resolver (p : Program) : Resolver := fun name =>
  if name = "n" then some .counter
  else if p.declares (.var name) then some (.var name) else none

def Program.parseExpr (p : Program) (text : String) : Except Error Expr :=
  Expr.parse p.resolver text

end ProbLoop
