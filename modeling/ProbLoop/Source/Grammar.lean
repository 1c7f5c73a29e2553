import ProbLoop.Source.Reader

/-!
# The grammar of loops

A source consists of initial assignments followed by one loop with a guard and a body. Statements
end with their lines. Signs bind tighter than products and looser than powers; sums and products
associate to the left. What is read is a phrase tree that keeps the lines at which a phrase can turn
out to be meaningless.
-/

set_option autoImplicit false

namespace ProbLoop.Source

/-- An arithmetic phrase. -/
inductive Phrase where
  | number (value : Rat)
  | name (s : String)
  | sum (a b : Phrase)
  | difference (a b : Phrase)
  | product (a b : Phrase)
  | quotient (line : Nat) (a b : Phrase)
  | negated (a : Phrase)
  | raised (line : Nat) (base : Phrase) (digits : String)
  deriving DecidableEq, Repr

structure Located (α : Type) where
  line : Nat
  value : α
  deriving DecidableEq, Repr

/-- The right-hand side of an assignment. A branch may leave its probability out. -/
inductive UpdatePhrase where
  | draw (distribution : String) (parameters : List (Located Phrase))
  | choice (branches : List (Phrase × Option (Located Phrase)))
  deriving DecidableEq, Repr

structure Statement where
  line : Nat
  name : String
  update : Located UpdatePhrase
  deriving DecidableEq, Repr

inductive Comparison where
  | atLeast
  | atMost
  | greater
  | less
  deriving DecidableEq, Repr

structure GuardPhrase where
  line : Nat
  left : Phrase
  comparison : Comparison
  right : Phrase
  deriving DecidableEq, Repr

structure LoopPhrase where
  guard : GuardPhrase
  body : List Statement
  deriving DecidableEq, Repr

structure ProgramPhrase where
  initial : List Statement
  loop : Option LoopPhrase
  deriving DecidableEq, Repr

def isDigit (c : Char) : Bool :=
  decide ('0' ≤ c) && decide (c ≤ '9')

def isLetter (c : Char) : Bool :=
  (decide ('a' ≤ c) && decide (c ≤ 'z')) || (decide ('A' ≤ c) && decide (c ≤ 'Z')) || c == '_'

def isNameChar (c : Char) : Bool :=
  isLetter c || isDigit c

/-- The number that a row of decimal digits stands for. -/
def digitsValue (digits : List Char) : Nat :=
  digits.foldl (fun acc c => 10 * acc + (c.toNat - '0'.toNat)) 0

/-- A decimal is read as an exact fraction. -/
def decimalValue (whole fraction : List Char) : Rat :=
  mkRat (digitsValue (whole ++ fraction)) (Nat.pow 10 fraction.length)

open Reader

def number : Reader Phrase := construct do
  match ← Reader.run isDigit with
  | [] =>
    literal "."
    return .number (decimalValue [] (← nonemptyRun isDigit))
  | whole =>
    let fraction ← Reader.optional (do literal "."; Reader.run isDigit)
    return .number (decimalValue whole (fraction.getD []))

def name : Reader String := construct do
  match ← Reader.run isNameChar with
  | [] => reject
  | c :: rest => if isLetter c then return String.ofList (c :: rest) else reject

/-- A word that is not the beginning of a longer name. -/
def keyword (word : String) : Reader Unit := construct do
  if (← Reader.run isNameChar) = word.toList then return () else reject

def exponent : Reader String := construct do
  return String.ofList (← nonemptyRun isDigit)

/-- A number, a name or a phrase in brackets. -/
def atom (inner : Reader Phrase) : Reader Phrase :=
  number <|> (do return .name (← name)) <|> (do
    literal "("; gap
    let phrase ← inner
    gap; literal ")"
    return phrase)

def power (inner : Reader Phrase) : Reader Phrase := construct do
  let line ← lineNumber
  let base ← atom inner
  let digits ← Reader.optional (do
    gap
    literal "**" <|> literal "^"
    gap
    exponent)
  match digits with
  | none => return base
  | some digits => return .raised line base digits

def signOp : Reader Bool := construct
  ((do literal "-"; return true) <|> (do literal "+"; return false))

/-- A power behind at most `depth` signs. -/
def unary (inner : Reader Phrase) : Nat → Reader Phrase
  | 0 => reject
  | depth + 1 => construct ((do
      let negative ← signOp
      gap
      let operand ← unary inner depth
      return if negative then .negated operand else operand) <|> power inner)

/-- A product sign is not the beginning of a power sign. -/
def mulOp : Reader Bool := construct
  ((do absent "**"; literal "*"; return true) <|> (do literal "/"; return false))

def term (inner : Reader Phrase) (depth : Nat) : Reader Phrase := construct do
  let line ← lineNumber
  let first ← unary inner depth
  let factors ← many (do
    gap
    let times ← mulOp
    gap
    return (times, ← unary inner depth))
  return factors.foldl
    (fun acc f => if f.1 then .product acc f.2 else .quotient line acc f.2) first

def addOp : Reader Bool := construct
  ((do literal "+"; return true) <|> (do literal "-"; return false))

/-- An expression with at most `depth` brackets or signs around each other. -/
def expression : Nat → Reader Phrase
  | 0 => reject
  | depth + 1 => construct do
    let part := term (expression depth) (depth + 1)
    let first ← part
    let summands ← many (do
      gap
      let plus ← addOp
      gap
      return (plus, ← part))
    return summands.foldl
      (fun acc s => if s.1 then .sum acc s.2 else .difference acc s.2) first

/-- Each bracket and each sign takes a character, so the text that is left bounds their depth. -/
def phrase : Reader Phrase := fun c r => expression (c.rest.length + 1) c r

def located {α : Type} (p : Reader α) : Reader (Located α) := do
  let line ← lineNumber
  return ⟨line, ← p⟩

def branch : Reader (Phrase × Option (Located Phrase)) := construct do
  let value ← phrase
  let probability ← Reader.optional (do gap; literal "@"; gap; located phrase)
  return (value, probability)

def branches : Reader UpdatePhrase := construct do
  let first ← branch
  let others ← many (do gap; literal ";"; gap; branch)
  return .choice (first :: others)

def randomDraw : Reader UpdatePhrase := construct do
  literal "RV"; gap
  literal "("; gap
  let distribution ← name
  let parameters ← many (do gap; literal ","; gap; located phrase)
  gap; literal ")"
  return .draw distribution parameters

def update : Reader UpdatePhrase := construct (randomDraw <|> branches)

def statement : Reader Statement := construct do
  let line ← lineNumber
  let variableName ← name
  gap; literal "="; gap
  return ⟨line, variableName, ← located update⟩

def comparison : Reader Comparison := construct
  ((do literal ">="; return .atLeast) <|> (do literal "<="; return .atMost) <|>
    (do literal ">"; return .greater) <|> (do literal "<"; return .less))

def guardPhrase : Reader GuardPhrase := construct do
  let line ← lineNumber
  let left ← phrase
  gap
  let op ← comparison
  gap
  return ⟨line, left, op, ← phrase⟩

/-- One line end or more. -/
def lineBreaks : Reader Unit := do
  lineBreak
  let _ ← many (do gap; lineBreak)
  return ()

/-- The end of a line that may also be the end of the text. -/
def lineEnd : Reader Unit :=
  lineBreaks <|> endOfText

def loop : Reader LoopPhrase := construct do
  keyword "while"; gap
  let guard ← guardPhrase
  gap; literal ":"; gap
  lineBreaks
  let body ← many (do
    gap
    let s ← statement
    gap; lineBreaks
    return s)
  gap; keyword "end"; gap
  lineEnd
  return ⟨guard, body⟩

def program : Reader ProgramPhrase := construct do
  gap
  let _ ← many (do gap; lineBreak)
  let initial ← many (do
    gap
    let s ← statement
    gap; lineEnd
    return s)
  gap
  let body ← Reader.optional loop
  gap; endOfText
  return ⟨initial, body⟩

/-- Reads a text that is one arithmetic phrase. -/
def readPhrase (text : String) : Except Error Phrase :=
  readAll (construct (do gap; let p ← phrase; gap; endOfText; return p)) text

def readProgram (text : String) : Except Error ProgramPhrase :=
  readAll program text

end ProbLoop.Source
