import ProbLoop.Expr.Basic
import ProbLoop.Interval
import ProbLoop.Number.Counting

/-!
# Distributions

A variable may be drawn afresh in every iteration from one of seven distributions. All that the
analysis needs of them are their raw moments and an interval that holds every value. An initial
value that the program does not give is `unknown`: its moments are the powers of a constant.
-/

set_option autoImplicit false

namespace ProbLoop

inductive Distribution where
  | uniform (low high : Rat)
  | bernoulli (p : Rat)
  | gauss (mean variance : Rat)
  | laplace (location scale : Rat)
  | exponential (rate : Rat)
  | beta (alpha beta : Rat)
  /-- The number of trials up to and including the first success. -/
  | geometric (p : Rat)
  | unknown (value : Symbol)
  deriving DecidableEq, Repr

/-- What is wrong with the name or the parameters of a distribution. -/
inductive DistributionFault where
  | unknownName (name : String)
  | arity (name : String) (expected given : Nat)
  | emptyInterval (low high : Rat)
  | probabilityOutsideClosed (p : Rat)
  | probabilityOutsideHalfOpen (p : Rat)
  | negativeVariance (variance : Rat)
  | scaleNotPositive (scale : Rat)
  | rateNotPositive (rate : Rat)
  | shapeNotPositive (alpha beta : Rat)
  deriving DecidableEq, Repr

def DistributionFault.message : DistributionFault → String
  | unknownName name => "unknown distribution `" ++ name ++ "`"
  | arity name expected given =>
    "`" ++ name ++ "` takes " ++ toString expected ++ " parameter(s), got " ++ toString given
  | emptyInterval low high =>
    "empty interval [" ++ Number.text low ++ ", " ++ Number.text high ++ "]"
  | probabilityOutsideClosed p => "probability " ++ Number.text p ++ " outside of [0, 1]"
  | probabilityOutsideHalfOpen p => "probability " ++ Number.text p ++ " outside of (0, 1]"
  | negativeVariance v => "negative variance " ++ Number.text v
  | scaleNotPositive s => "non-positive scale " ++ Number.text s
  | rateNotPositive r => "non-positive rate " ++ Number.text r
  | shapeNotPositive a b =>
    "non-positive shape (" ++ Number.text a ++ ", " ++ Number.text b ++ ")"

namespace Distribution

/-- The faults of the parameters, the name and the number of parameters being right. -/
def check (d : Distribution) : Except DistributionFault Distribution :=
  match d with
  | uniform low high => if high < low then .error (.emptyInterval low high) else .ok d
  | bernoulli p => if p < 0 ∨ 1 < p then .error (.probabilityOutsideClosed p) else .ok d
  | geometric p => if p ≤ 0 ∨ 1 < p then .error (.probabilityOutsideHalfOpen p) else .ok d
  | gauss _ v => if v < 0 then .error (.negativeVariance v) else .ok d
  | laplace _ s => if s ≤ 0 then .error (.scaleNotPositive s) else .ok d
  | exponential r => if r ≤ 0 then .error (.rateNotPositive r) else .ok d
  | beta a b => if a ≤ 0 ∨ b ≤ 0 then .error (.shapeNotPositive a b) else .ok d
  | unknown _ => .ok d

/-- The number of parameters that a distribution of the given name takes. -/
def arity? : String → Option Nat
  | "uniform" => some 2
  | "bernoulli" => some 1
  | "gauss" => some 2
  | "normal" => some 2
  | "laplace" => some 2
  | "exponential" => some 1
  | "beta" => some 2
  | "geometric" => some 1
  | _ => none

def ofParameters? : String → List Rat → Option Distribution
  | "uniform", [low, high] => some (uniform low high)
  | "bernoulli", [p] => some (bernoulli p)
  | "gauss", [mean, variance] => some (gauss mean variance)
  | "normal", [mean, variance] => some (gauss mean variance)
  | "laplace", [location, scale] => some (laplace location scale)
  | "exponential", [rate] => some (exponential rate)
  | "beta", [a, b] => some (beta a b)
  | "geometric", [p] => some (geometric p)
  | _, _ => none

/-- The distribution of a given name with given parameters. -/
def ofName (name : String) (parameters : List Rat) : Except DistributionFault Distribution :=
  match ofParameters? name parameters, arity? name with
  | some d, _ => d.check
  | none, some expected => .error (.arity name expected parameters.length)
  | none, none => .error (.unknownName name)

def name : Distribution → String
  | uniform _ _ => "uniform"
  | bernoulli _ => "bernoulli"
  | gauss _ _ => "gauss"
  | laplace _ _ => "laplace"
  | exponential _ => "exponential"
  | beta _ _ => "beta"
  | geometric _ => "geometric"
  | unknown _ => "unknown"

def parameters : Distribution → List Rat
  | uniform low high => [low, high]
  | bernoulli p => [p]
  | gauss mean variance => [mean, variance]
  | laplace location scale => [location, scale]
  | exponential rate => [rate]
  | beta a b => [a, b]
  | geometric p => [p]
  | unknown _ => []

def text (d : Distribution) : String :=
  "RV(" ++ String.intercalate ", " (d.name :: d.parameters.map Number.text) ++ ")"

/-- An interval that holds every value of a draw. -/
def range : Distribution → Interval
  | uniform low high => ⟨.finite low, .finite high⟩
  | bernoulli _ => ⟨.finite 0, .finite 1⟩
  | beta _ _ => ⟨.finite 0, .finite 1⟩
  | exponential _ => ⟨.finite 0, .posInf⟩
  | geometric _ => ⟨.finite 1, .posInf⟩
  | gauss _ _ => ⟨.negInf, .posInf⟩
  | laplace _ _ => ⟨.negInf, .posInf⟩
  | unknown _ => ⟨.negInf, .posInf⟩

/-- An interval that holds the `k`-th power of every value of a draw. -/
def support (d : Distribution) (k : Nat) : Interval :=
  d.range.pow k

/-- The even numbers up to `k`. -/
def evensUpTo (k : Nat) : List Nat :=
  (List.range (k / 2 + 1)).map (2 * ·)

/-- The product `1 * 3 * … * (2 * i - 1)`. -/
def oddFactorial : Nat → Nat
  | 0 => 1
  | i + 1 => (2 * i + 1) * oddFactorial i

/-- The exponent after `k`, which is kept in 32 bits. -/
def nextExponent (k : Nat) : Nat :=
  Number.exponentSize ((k + 1 : Nat) : Int)

/-- The mean of `X ^ k` for `X` uniform on an interval. -/
def uniformMoment (low high : Rat) (k : Nat) : Rat :=
  if low = high then Number.pow low k
  else (Number.pow high (nextExponent k) - Number.pow low (nextExponent k))
    / (((k + 1 : Nat) : Rat) * (high - low))

/-- The even central moments of a normal distribution are powers of its variance times odd
factorials, and the odd ones vanish. -/
def gaussMoment (mean variance : Rat) (k : Nat) : Rat :=
  Number.sum ((evensUpTo k).map fun j =>
    (Number.binomial k j : Rat) * Number.pow mean (k - j) * Number.pow variance (j / 2)
      * (oddFactorial (j / 2) : Rat))

/-- The even central moments of a Laplace distribution are powers of its scale times factorials,
and the odd ones vanish. -/
def laplaceMoment (location scale : Rat) (k : Nat) : Rat :=
  Number.sum ((evensUpTo k).map fun j =>
    (Number.binomial k j : Rat) * Number.pow location (k - j) * (Number.factorial j : Rat)
      * Number.pow scale j)

def betaMoment (a b : Rat) (k : Nat) : Rat :=
  (List.range k).foldl
    (fun (acc : Rat) (r : Nat) => acc * ((a + (r : Rat)) / (a + b + (r : Rat)))) 1

/-- The generating polynomial of the Eulerian numbers at the probability of failure, over the
`k`-th power of the probability of success. -/
def geometricMoment (p : Rat) (k : Nat) : Rat :=
  Number.sum ((Number.eulerianRow k).zipIdx.map fun a => (a.1 : Rat) * Number.pow (1 - p) a.2)
    / Number.pow p k

/-- The mean of the `k`-th power of a draw. -/
def moment (d : Distribution) (k : Nat) : Expr :=
  if k = 0 then Expr.one
  else
    match d with
    | uniform low high => .const (uniformMoment low high k)
    | bernoulli p => .const p
    | gauss mean variance => .const (gaussMoment mean variance k)
    | laplace location scale => .const (laplaceMoment location scale k)
    | exponential rate => .const ((Number.factorial k : Rat) / Number.pow rate k)
    | beta a b => .const (betaMoment a b k)
    | geometric p => .const (geometricMoment p k)
    | unknown value => (Expr.ofSymbol value).pow k

end Distribution

end ProbLoop
