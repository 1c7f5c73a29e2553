import ProbLoop.Expr.Collect
import ProbLoop.Update

/-!
# Programs

A program is a loop over variables. Every variable has an initial value and an update, the updates
run in order, and the loop goes on while its guard is positive.
-/

set_option autoImplicit false

namespace ProbLoop

/-- One variable of a loop. -/
structure Declaration where
  name : String
  initial : Update
  update : Update
  deriving DecidableEq, Repr

structure Program where
  /-- The variables in update order. -/
  declarations : List Declaration
  guard : Expr
  deriving DecidableEq, Repr

def Declaration.symbol (d : Declaration) : Symbol := .var d.name

namespace Program

def vars (p : Program) : List Symbol :=
  p.declarations.map Declaration.symbol

def declaration? (p : Program) (s : Symbol) : Option Declaration :=
  p.declarations.find? (fun d => d.symbol == s)

def update? (p : Program) (s : Symbol) : Option Update :=
  (p.declaration? s).map (·.update)

def initial? (p : Program) (s : Symbol) : Option Update :=
  (p.declaration? s).map (·.initial)

def declares (p : Program) (s : Symbol) : Bool :=
  (p.declaration? s).isSome

/-- Holds of a variable that is drawn from a distribution in every iteration. -/
def isRandom (p : Program) (s : Symbol) : Bool :=
  (p.update? s).any Update.isRandom

def hasRandom (p : Program) : Bool :=
  p.declarations.any (fun d => d.update.isRandom)

/-- The line of an initial value; an unknown one has none. -/
def initialLine (d : Declaration) : List String :=
  match d.initial with
  | .random (.unknown _) => []
  | value => [d.name ++ " = " ++ value.text]

/-- The line of an update; a variable that keeps its value has none. -/
def updateLine (d : Declaration) : List String :=
  if d.update.single? = some (.ofSymbol d.symbol) then []
  else ["    " ++ d.name ++ " = " ++ d.update.text]

def lines (p : Program) : List String :=
  p.declarations.flatMap initialLine ++ ["while " ++ p.guard.text ++ " > 0:"]
    ++ p.declarations.flatMap updateLine ++ ["end"]

def text (p : Program) : String :=
  String.intercalate "\n" p.lines

end Program

end ProbLoop
