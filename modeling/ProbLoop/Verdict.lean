/-!
# Verdicts

The answers to two questions about a loop, whether it terminates almost surely (AST) and whether its
mean number of iterations is finite (positive almost sure termination, PAST), and the witnesses that
explain them. An answer that is known never changes.
-/

set_option autoImplicit false

namespace ProbLoop

inductive Answer where
  | yes
  | no
  | unknown
  deriving DecidableEq, Repr, Inhabited

namespace Answer

def isKnown (a : Answer) : Bool := a != unknown

def text : Answer → String
  | yes => "Yes"
  | no => "No"
  | unknown => "Maybe"

end Answer

/-- What a witness certifies. -/
inductive WitnessKind where
  | past
  | ast
  | notPast
  | notAst
  deriving DecidableEq, Repr, Inhabited

def WitnessKind.text : WitnessKind → String
  | past => "PAST"
  | ast => "AST"
  | notPast => "Not PAST"
  | notAst => "Not AST"

structure Witness where
  kind : WitnessKind
  /-- Labelled pieces of evidence, in the order in which they are reported. -/
  evidence : List (String × String)
  explanation : String
  deriving DecidableEq, Repr

namespace Witness

/-- The first piece of evidence with the given label. -/
def get? (w : Witness) (label : String) : Option String :=
  (w.evidence.find? fun e => e.1 == label).map (·.2)

def padRight (width : Nat) (s : String) : String :=
  s ++ String.ofList (List.replicate (width - s.length) ' ')

/-- The width of the column of labels, two wider than the longest one. -/
def labelWidth (w : Witness) : Nat :=
  (w.evidence.map fun e => e.1.length).foldl max 0 + 2

def headline (w : Witness) : String :=
  "Witness for " ++ w.kind.text

def evidenceLine (w : Witness) (e : String × String) : String :=
  padRight w.labelWidth e.1 ++ " " ++ e.2

def lines (w : Witness) : List String :=
  [w.headline, String.ofList (List.replicate w.headline.length '-')]
    ++ w.evidence.map w.evidenceLine ++ ["", "Explanation:", w.explanation]

def text (w : Witness) : String :=
  String.intercalate "\n" w.lines

end Witness

structure Verdict where
  past : Answer
  ast : Answer
  witnesses : List Witness
  deriving DecidableEq, Repr

namespace Verdict

def start : Verdict := ⟨.unknown, .unknown, []⟩

instance : Inhabited Verdict := ⟨start⟩

def allKnown (v : Verdict) : Bool := v.past.isKnown && v.ast.isKnown

/-- Answers the question of PAST, unless it is answered already. The flag says whether the answer
became known. -/
def setPast (v : Verdict) (a : Answer) : Bool × Verdict :=
  if v.past.isKnown then (false, v) else (a.isKnown, { v with past := a })

/-- Answers the question of AST, unless it is answered already. The flag says whether the answer
became known. -/
def setAst (v : Verdict) (a : Answer) : Bool × Verdict :=
  if v.ast.isKnown then (false, v) else (a.isKnown, { v with ast := a })

def addWitness (v : Verdict) (w : Witness) : Verdict :=
  { v with witnesses := v.witnesses ++ [w] }

/-- Answers both questions and says why. -/
def conclude (v : Verdict) (past ast : Answer) (w : Witness) : Verdict :=
  (((v.setPast past).2.setAst ast).2).addWitness w

/-- A report has a line for each question and a section for each witness. -/
def text (v : Verdict) : String :=
  "PAST: " ++ v.past.text ++ "\nAST: " ++ v.ast.text ++ "\n"
    ++ String.join (v.witnesses.map fun w => "\n\n" ++ w.text ++ "\n")

end Verdict

end ProbLoop
