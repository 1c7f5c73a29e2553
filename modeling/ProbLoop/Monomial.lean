import ProbLoop.Assoc
import ProbLoop.Number.Power
import ProbLoop.Symbol

/-!
# Monomials

A monomial is a product of powers of symbols and of an exponential `base ^ n` in the iteration
counter. Its powers are sorted by symbol and none of them is zero, and a base of one stands for
the absence of an exponential.
-/

set_option autoImplicit false

namespace ProbLoop

structure Monomial where
  powers : List (Symbol × Nat)
  base : Rat
  deriving DecidableEq, Repr

namespace Monomial

def one : Monomial := ⟨[], 1⟩

instance : Inhabited Monomial := ⟨one⟩

def ofSymbol (s : Symbol) (k : Nat) : Monomial :=
  ⟨if k = 0 then [] else [(s, k)], 1⟩

def exponential (base : Rat) : Monomial := ⟨[], base⟩

def raise (s : Symbol) (k : Nat) (powers : List (Symbol × Nat)) : List (Symbol × Nat) :=
  Assoc.alter Symbol.cmp s (fun old => some (old.getD 0 + k)) powers

/-- The product of the given powers; exponents of one symbol add up. -/
def ofPowers (powers : List (Symbol × Nat)) : Monomial :=
  ⟨powers.foldl (fun acc p => if p.2 = 0 then acc else raise p.1 p.2 acc) [], 1⟩

def mul (a b : Monomial) : Monomial :=
  ⟨Assoc.merge Symbol.cmp (fun j k => some (j + k)) a.powers b.powers, a.base * b.base⟩

instance : Mul Monomial := ⟨mul⟩

/-- Monomials are ordered by their powers, symbol by symbol, and then by their bases. -/
def cmp (a b : Monomial) : Ordering :=
  (Assoc.cmpEntries Symbol.cmp (fun (j k : Nat) => compare j k) a.powers b.powers).then
    (Number.cmp a.base b.base)

def symbols (m : Monomial) : List Symbol :=
  m.powers.map (·.1)

def powerOf (m : Monomial) (s : Symbol) : Nat :=
  (Assoc.find? s m.powers).getD 0

def mentions (m : Monomial) (s : Symbol) : Bool :=
  m.powers.any (·.1 == s)

def counterDegree (m : Monomial) : Nat :=
  m.powerOf .counter

def totalDegree (m : Monomial) : Nat :=
  m.powers.foldr (fun p acc => p.2 + acc) 0

def isOne (m : Monomial) : Bool :=
  m.powers.isEmpty && m.base == 1

def isExponential (m : Monomial) : Bool :=
  m.base != 1

/-- The factor that is left when every power of `s` is taken out. -/
def without (m : Monomial) (s : Symbol) : Monomial :=
  ⟨m.powers.filter (·.1 != s), m.base⟩

def withBase (m : Monomial) (base : Rat) : Monomial :=
  ⟨m.powers, base⟩

/-- The powers of the symbols that satisfy `keep`. -/
def kept (keep : Symbol → Bool) (m : Monomial) : Monomial :=
  ⟨m.powers.filter (fun p => keep p.1), 1⟩

/-- The powers of all other symbols, together with the exponential. -/
def rest (keep : Symbol → Bool) (m : Monomial) : Monomial :=
  ⟨m.powers.filter (fun p => !keep p.1), m.base⟩

/-- Holds of a monomial that is positive at every positive counter and every admissible value of
its symbols. -/
def isPositiveDefinite (m : Monomial) : Bool :=
  decide (0 < m.base) && m.symbols.all (fun s => s.isCounter || s.isPositive)

/-- The greatest common divisor of all exponents, zero if there are none. -/
def powerGcd (m : Monomial) : Nat :=
  m.powers.foldl (fun acc p => Nat.gcd acc p.2) 0

/-- Divides every exponent by `d`. -/
def root (m : Monomial) (d : Nat) : Monomial :=
  ⟨m.powers.map (fun p => (p.1, p.2 / d)), m.base⟩

/-- One power as a factor; the exponent one is not written. -/
def factorText (p : Symbol × Nat) : String :=
  if p.2 = 1 then p.1.name else p.1.name ++ "**" ++ toString p.2

/-- The exponential as a factor; any base but a positive integer is put in brackets. -/
def exponentialText (base : Rat) : List String :=
  if base = 1 then []
  else if base.den = 1 ∧ 0 < base then [Number.text base ++ "**n"]
  else ["(" ++ Number.text base ++ ")**n"]

def text (m : Monomial) : String :=
  match m.powers.map factorText ++ exponentialText m.base with
  | [] => "1"
  | factors => String.intercalate "*" factors

end Monomial

end ProbLoop
