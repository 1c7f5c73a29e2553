import ProbLoop.Monomial

/-!
# Expressions

An expression is a sum of rational multiples of monomials, kept fully expanded: the monomials are
sorted and distinct and no coefficient is zero. Two expressions with the same value everywhere are
therefore equal, which is what lets expressions serve as keys of memo tables.
-/

set_option autoImplicit false

namespace ProbLoop

structure Expr where
  terms : List (Monomial × Rat)
  deriving DecidableEq, Repr

namespace Expr

def zero : Expr := ⟨[]⟩

instance : Inhabited Expr := ⟨zero⟩

def nonzero? (q : Rat) : Option Rat :=
  if q = 0 then none else some q

def term (m : Monomial) (c : Rat) : Expr :=
  ⟨Assoc.consSome m (nonzero? c) []⟩

def const (q : Rat) : Expr := term Monomial.one q

def one : Expr := const 1

def ofSymbol (s : Symbol) : Expr := term (Monomial.ofSymbol s 1) 1

/-- The iteration counter as an expression. -/
def counter : Expr := ofSymbol .counter

/-- The exponential `base ^ n`, which is zero if its base is. -/
def exponential (base : Rat) : Expr :=
  if base = 0 then zero else term (Monomial.exponential base) 1

def insertTerm (m : Monomial) (c : Rat) (ts : List (Monomial × Rat)) : List (Monomial × Rat) :=
  Assoc.alter Monomial.cmp m (fun old => nonzero? (old.getD 0 + c)) ts

/-- The sum of the given terms, in any order and with repeated monomials. -/
def ofTerms (ts : List (Monomial × Rat)) : Expr :=
  ⟨ts.foldr (fun t acc => insertTerm t.1 t.2 acc) []⟩

def add (a b : Expr) : Expr :=
  ⟨Assoc.merge Monomial.cmp (fun c d => nonzero? (c + d)) a.terms b.terms⟩

def neg (a : Expr) : Expr :=
  ⟨a.terms.map (fun t => (t.1, -t.2))⟩

def sub (a b : Expr) : Expr :=
  add a (neg b)

def scale (a : Expr) (q : Rat) : Expr :=
  if q = 0 then zero else ⟨a.terms.map (fun t => (t.1, t.2 * q))⟩

/-- The product of one term with every term of an expression. -/
def mulTerm (m : Monomial) (c : Rat) (b : Expr) : Expr :=
  ofTerms (b.terms.map (fun t => (m * t.1, c * t.2)))

def sum (es : List Expr) : Expr :=
  es.foldr add zero

def mul (a b : Expr) : Expr :=
  sum (a.terms.map (fun t => mulTerm t.1 t.2 b))

instance : Add Expr := ⟨add⟩
instance : Neg Expr := ⟨neg⟩
instance : Sub Expr := ⟨sub⟩
instance : Mul Expr := ⟨mul⟩

def pow (a : Expr) (k : Nat) : Expr :=
  powerInto (· * ·) one a k

def cmp (a b : Expr) : Ordering :=
  Assoc.cmpEntries Monomial.cmp Number.cmp a.terms b.terms

def isZero (e : Expr) : Bool :=
  e.terms.isEmpty

/-- The value of an expression that is a number. -/
def constant? (e : Expr) : Option Rat :=
  match e.terms with
  | [] => some 0
  | [(m, c)] => if m.isOne then some c else none
  | _ => none

def isOne (e : Expr) : Bool :=
  e.constant? == some 1

def coefficient (e : Expr) (m : Monomial) : Rat :=
  (Assoc.find? m e.terms).getD 0

def constantPart (e : Expr) : Rat :=
  e.coefficient Monomial.one

/-- Adds a symbol to a sorted list of distinct symbols. -/
def addSymbol (s : Symbol) (symbols : List (Symbol × Unit)) : List (Symbol × Unit) :=
  Assoc.alter Symbol.cmp s (fun _ => some ()) symbols

/-- The symbols on which a monomial depends; an exponential depends on the counter. -/
def monomialSymbols (m : Monomial) : List Symbol :=
  if m.isExponential then .counter :: m.symbols else m.symbols

/-- The symbols on which an expression depends, each once and in order. -/
def freeSymbols (e : Expr) : List Symbol :=
  ((e.terms.flatMap (fun t => monomialSymbols t.1)).foldl (fun acc s => addSymbol s acc) []).map
    (·.1)

def dependsOnCounter (e : Expr) : Bool :=
  e.terms.any (fun t => t.1.isExponential || t.1.mentions .counter)

def mentions (e : Expr) (s : Symbol) : Bool :=
  if s.isCounter then e.dependsOnCounter else e.terms.any (fun t => t.1.mentions s)

def mentionsVars (e : Expr) : Bool :=
  e.terms.any (fun t => t.1.symbols.any Symbol.isVar)

def degreeIn (e : Expr) (s : Symbol) : Nat :=
  e.terms.foldl (fun acc t => max acc (t.1.powerOf s)) 0

/-- The sign of one term, known if every symbol of it is a positive constant. -/
def termSign? (t : Monomial × Rat) : Option Sign :=
  if t.1.symbols.all Symbol.isPositive then some (Sign.of t.2) else none

/-- The sign of an expression that does not depend on the counter, if it is the same for all values
of its constants: numbers have one, and so have sums of terms whose known signs agree. -/
def sign? (e : Expr) : Option Sign :=
  match e.constant? with
  | some c => some (Sign.of c)
  | none =>
    if e.dependsOnCounter then none
    else
      match e.terms with
      | [] => none
      | t :: rest =>
        match termSign? t with
        | none => none
        | some s => if rest.all (fun u => termSign? u == some s) then some s else none

end Expr

end ProbLoop
