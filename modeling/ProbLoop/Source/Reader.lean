import ProbLoop.Error

/-!
# Reading text

A reader takes a prefix of the text in front of it or fails and takes nothing. Alternatives are
tried in order and the first that succeeds is kept. Through all attempts, failed ones included, the
reader remembers the furthest place at which a construct of the grammar was tried and missing; the
line of that place is what a rejected text is reported with.
-/

set_option autoImplicit false

namespace ProbLoop.Source

/-- A place in the text. Lines are ended by line feeds. -/
structure Cursor where
  rest : List Char
  offset : Nat
  line : Nat
  deriving DecidableEq, Repr

/-- The furthest place at which a construct was missing. -/
structure Reach where
  offset : Nat
  line : Nat
  deriving DecidableEq, Repr

def Cursor.start (text : String) : Cursor := ⟨text.toList, 0, 1⟩

def Reach.start : Reach := ⟨0, 1⟩

def Reach.extend (r : Reach) (c : Cursor) : Reach :=
  if r.offset < c.offset then ⟨c.offset, c.line⟩ else r

/-- What a reader finds in front of a cursor, and the reach of its attempts. -/
abbrev Found (α : Type) := Option (α × Cursor) × Reach

def Reader (α : Type) := Cursor → Reach → Found α

namespace Reader

variable {α β : Type}

def accept (a : α) : Reader α := fun c r => (some (a, c), r)

def reject : Reader α := fun _ r => (none, r)

def andThen (p : Reader α) (f : α → Reader β) : Reader β := fun c r =>
  match p c r with
  | (none, r) => (none, r)
  | (some (a, c), r) => f a c r

/-- The second reader starts where the first one started. -/
def orElse (p : Reader α) (q : Unit → Reader α) : Reader α := fun c r =>
  match p c r with
  | (none, r) => q () c r
  | found => found

instance : Monad Reader where
  pure := accept
  bind := andThen

instance : OrElse (Reader α) := ⟨orElse⟩

/-- A construct of the grammar: where it is missing, the reach extends to its start. -/
def construct (p : Reader α) : Reader α := fun c r =>
  match p c r with
  | (none, r) => (none, r.extend c)
  | found => found

/-- What `p` finds, if it finds anything. -/
def optional (p : Reader α) : Reader (Option α) := fun c r =>
  match p c r with
  | (none, r) => (some (none, c), r)
  | (some (a, c), r) => (some (some a, c), r)

/-- What `p` finds again and again. A reader that takes nothing is not run twice. -/
def manyFrom (p : Reader α) (c : Cursor) (r : Reach) : List α × Cursor × Reach :=
  match p c r with
  | (none, r) => ([], c, r)
  | (some (a, c'), r) =>
    if c'.rest.length < c.rest.length then
      let (as, c'', r) := manyFrom p c' r
      (a :: as, c'', r)
    else ([a], c', r)
termination_by c.rest.length

def many (p : Reader α) : Reader (List α) := fun c r =>
  let (as, c, r) := manyFrom p c r
  (some (as, c), r)

def lineNumber : Reader Nat := fun c r => (some (c.line, c), r)

/-- The rest of a text behind a literal without line ends. -/
def behind : List Char → List Char → Option (List Char)
  | [], rest => some rest
  | _ :: _, [] => none
  | a :: literal, b :: rest => if a = b then behind literal rest else none

def literal (s : String) : Reader Unit := fun c r =>
  match behind s.toList c.rest with
  | none => (none, r)
  | some rest => (some ((), ⟨rest, c.offset + s.length, c.line⟩), r)

/-- Succeeds without taking anything where the literal is absent. -/
def absent (s : String) : Reader Unit := fun c r =>
  match behind s.toList c.rest with
  | none => (some ((), c), r)
  | some _ => (none, r)

/-- The longest run of characters of a class that has no line ends. -/
def run (ofClass : Char → Bool) : Reader (List Char) := fun c r =>
  let taken := c.rest.takeWhile ofClass
  (some (taken, ⟨c.rest.dropWhile ofClass, c.offset + taken.length, c.line⟩), r)

def nonemptyRun (ofClass : Char → Bool) : Reader (List Char) := do
  match ← run ofClass with
  | [] => reject
  | taken => accept taken

/-- A line end: a line feed, a carriage return, or a carriage return followed by a line feed. Only a
line feed starts a new line. -/
def lineBreak : Reader Unit := fun c r =>
  match c.rest with
  | '\n' :: rest => (some ((), ⟨rest, c.offset + 1, c.line + 1⟩), r)
  | '\r' :: '\n' :: rest => (some ((), ⟨rest, c.offset + 2, c.line + 1⟩), r)
  | '\r' :: rest => (some ((), ⟨rest, c.offset + 1, c.line⟩), r)
  | _ => (none, r)

/-- The rest of a text behind blanks, tabulators and comments, and how much was skipped. A comment
runs from a number sign to the end of its line. -/
def skipped (inComment : Bool) : List Char → List Char × Nat
  | [] => ([], 0)
  | c :: rest =>
    let go := fun inside => let (rest, k) := skipped inside rest; (rest, k + 1)
    if inComment then
      if c = '\n' ∨ c = '\r' then (c :: rest, 0) else go true
    else if c = ' ' ∨ c = '\t' then go false
    else if c = '#' then go true
    else (c :: rest, 0)

/-- The space that may separate the parts of a construct. -/
def gap : Reader Unit := fun c r =>
  let (rest, k) := skipped false c.rest
  (some ((), ⟨rest, c.offset + k, c.line⟩), r)

def endOfText : Reader Unit := construct fun c r =>
  if c.rest.isEmpty then (some ((), c), r) else (none, r)

/-- Reads a whole text. -/
def readAll (p : Reader α) (text : String) : Except Error α :=
  match p (Cursor.start text) Reach.start with
  | (some (a, _), _) => .ok a
  | (none, r) => .error (.ungrammatical r.line)

end Reader

end ProbLoop.Source
