import ProbLoop.Session
import ProbLoop.Source.Meaning

/-!
# Command line

Decides termination of the loops in the named files, or prints the bounds of an expression.
-/

set_option autoImplicit false

namespace ProbLoop.Main

/-- What the arguments ask for. -/
structure Request where
  rules : List ProofRule
  bounds : Option String
  files : List String

def readRules (names : String) : Except String (List ProofRule) :=
  (names.splitOn ",").mapM fun s =>
    match ProofRule.ofName? s with
    | some rule => .ok rule
    | none => .error (ProofRule.unknownMessage s)

def readArguments : Request → List String → Except String Request
  | request, [] =>
    if request.files.isEmpty then .error "no file is given"
    else .ok { request with files := request.files.reverse }
  | request, "--rules" :: names :: rest => do
    let rules ← readRules names
    readArguments { request with rules := request.rules ++ rules } rest
  | request, "--bounds" :: text :: rest =>
    readArguments { request with bounds := some text } rest
  | request, file :: rest => readArguments { request with files := file :: request.files } rest

def flagText (b : Bool) : String := if b then "true" else "false"

def boundsReport (s : Session) (text : String) : Except Error String := do
  let e ← s.program.parseExpr text
  let b ← (s.ask fun p => p.envelopeOf e).1
  return "Lower bound: " ++ b.lower.text ++ "\nUpper bound: " ++ b.upper.text
    ++ "\nMaybe positive: " ++ flagText b.polarity.maybePositive
    ++ "\nMaybe negative: " ++ flagText b.polarity.maybeNegative

def report (request : Request) (source : String) : Except Error String := do
  let s := Session.start (← Program.parse source) ⟨0⟩
  match request.bounds with
  | some text => boundsReport s text
  | none =>
    let rules := if request.rules.isEmpty then ProofRule.all else request.rules
    return (← (s.ask fun p => p.verdictWith rules).1).text

def runFiles (request : Request) : List String → IO UInt32
  | [] => return 0
  | file :: rest => do
    let source ← IO.FS.readFile file
    match report request source with
    | .error e => do
      IO.eprintln ("Error: " ++ e.message)
      return 1
    | .ok text => do
      IO.println ("=== " ++ file ++ " ===")
      IO.println text
      runFiles request rest

end ProbLoop.Main

def main (arguments : List String) : IO UInt32 :=
  match ProbLoop.Main.readArguments ⟨[], none, []⟩ arguments with
  | .error message => do
    IO.eprintln ("Error: " ++ message)
    return 2
  | .ok request => ProbLoop.Main.runFiles request request.files
