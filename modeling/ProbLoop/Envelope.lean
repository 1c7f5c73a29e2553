import ProbLoop.Asymptotics.SignSplit
import ProbLoop.Expr.Iteration
import ProbLoop.Moments

/-!
# Envelopes

An envelope of an expression is a lower and an upper bound in the iteration counter that hold after
enough iterations, up to the positive constants that occur in them. The bounds of an expression are
put together from those of its monomials, and those of a monomial are found in one of four ways: its
random factors lie in their supports, deterministic variables have closed forms, odd powers are
monotone, and in general every branch of an iteration gives a recurrence.
-/

set_option autoImplicit false

namespace ProbLoop

structure Envelope where
  expression : Expr
  lower : Expr
  upper : Expr
  polarity : Polarity
  /-- An upper bound of the absolute value, once it has been asked for. -/
  absolute : Option Expr
  deriving DecidableEq, Repr

namespace Envelope

def between (e lower upper : Expr) (polarity : Polarity) : Envelope :=
  ⟨e, lower, upper, polarity, none⟩

def text (b : Envelope) : String :=
  b.expression.text ++ " in [" ++ b.lower.text ++ ", " ++ b.upper.text ++ "]"

/-- An upper bound of the absolute value, and the envelope that remembers it. -/
def absoluteUpper (b : Envelope) : Attempt Supply (Expr × Envelope) :=
  match b.absolute with
  | some value => return (value, b)
  | none => do
    let value ← Expr.dominating [b.upper, -b.lower]
    return (value, { b with absolute := some value })

end Envelope

/-- What has been found about one program, and the constants that are still fresh. -/
structure Analysis where
  closedForms : ClosedForms
  envelopes : Memo Monomial Envelope
  branches : Memo Monomial (List Branch)
  supply : Supply

namespace Analysis

def start (supply : Supply) : Analysis := ⟨.empty, .empty, .empty, supply⟩

/-- Forgets everything but the supply of fresh constants. -/
def clear (a : Analysis) : Analysis := start a.supply

def envelopeSlot : Slot Analysis Monomial Envelope :=
  ⟨(·.envelopes), fun a t => { a with envelopes := t }⟩

def branchSlot : Slot Analysis Monomial (List Branch) :=
  ⟨(·.branches), fun a t => { a with branches := t }⟩

/-- Runs a computation that draws fresh constants. -/
def drawing {α : Type} (x : Attempt Supply α) : Attempt Analysis α :=
  x.within (·.supply) fun a s => { a with supply := s }

/-- Runs a computation on the closed forms. -/
def onMoments {α : Type} (x : Attempt ClosedForms α) : Attempt Analysis α :=
  x.within (·.closedForms) fun a t => { a with closedForms := t }

end Analysis

namespace Program

open Analysis

/-- The ways in which a monomial changes in one iteration, computed at most once. -/
def branchesOf (p : Program) (m : Monomial) : Attempt Analysis (List Branch) :=
  branchSlot.remember m (.unexpected (.branchesCycle m)) fun _ =>
    Attempt.ofExcept (p.branches m)

/-- Adds up the bounds of the monomials of a list, each times its coefficient. The eventual sign of
a coefficient decides which bound of the monomial enters which bound of the sum. -/
def addEnvelopes (envelope : Monomial → Attempt Analysis Envelope) :
    Expr × Expr × Polarity → List (Monomial × Expr) → Attempt Analysis (Expr × Expr × Polarity)
  | acc, [] => return acc
  | (lower, upper, polarity), (m, c) :: rest => do
    if m.isOne then addEnvelopes envelope (lower, upper, polarity) rest
    else
      let b ← envelope m
      match c.eventualSign? with
      | some .positive =>
        addEnvelopes envelope
          (lower + c * b.lower, upper + c * b.upper, polarity.or b.polarity) rest
      | some .negative =>
        addEnvelopes envelope
          (lower + c * b.upper, upper + c * b.lower, polarity.or b.polarity.flip) rest
      | some .zero => addEnvelopes envelope (lower, upper, polarity) rest
      | none => throw (.undecided (.coefficientSign c m))

/-- The envelope of an expression from those of its monomials. Equal bounds are kept as they are
unless their sign at infinity is unknown. -/
def envelopeFrom (envelope : Monomial → Attempt Analysis Envelope) (e : Expr) :
    Attempt Analysis Envelope := do
  let groups := e.collect Symbol.isVar
  let constant := (Assoc.find? Monomial.one groups).getD Expr.zero
  let (lower, upper, polarity) ←
    addEnvelopes envelope (constant, constant, constant.polarity) groups
  let isSigned := match upper.limit with
    | .signedInf _ => true
    | _ => false
  if upper = lower && !isSigned then
    return .between e lower upper polarity
  else
    let upper ← drawing do Expr.dominating (← upper.splitSign)
    let lower ← drawing do Expr.dominated (← lower.splitSign)
    return .between e lower upper polarity

/-- An interval that holds the product of random factors, one factor after the other. -/
def factorRange (p : Program) :
    Rat × Rat → List (Symbol × Nat) → Except Error (Rat × Rat)
  | range, [] => .ok range
  | (low, high), (s, k) :: rest =>
    match ((p.update? s).bind fun u => u.support k).bind Interval.finite? with
    | none => .error (.undecided (.unboundedSupport s k))
    | some (l, h) =>
      let corners := [low * l, low * h, high * l, high * h]
      factorRange p
        ((Number.minimum? corners).getD 0, (Number.maximum? corners).getD 0) rest

/-- An interval that holds the product of the random factors of a monomial. -/
def randomRange (p : Program) (m : Monomial) : Except Error (Rat × Rat) :=
  factorRange p (1, 1) m.powers

/-- The envelope of a monomial with random factors, from the envelope of its other factors. -/
def envelopeOfRandom (p : Program) (envelope : Monomial → Attempt Analysis Envelope)
    (m random rest : Monomial) : Attempt Analysis Envelope := do
  let (low, high) ← Attempt.ofExcept (p.randomRange random)
  let e := Expr.term m 1
  let factor : Polarity := ⟨decide (0 < high), decide (low < 0)⟩
  if rest.isOne then
    return .between e (.const low) (.const high) factor
  else
    let b ← envelope rest
    let candidates :=
      [b.lower.scale low, b.lower.scale high, b.upper.scale low, b.upper.scale high]
    let lower ← drawing (Expr.dominated candidates)
    let upper ← drawing (Expr.dominating candidates)
    return .between e lower upper (factor.times b.polarity)

/-- The envelope of a monomial in deterministic variables. -/
def envelopeOfDeterministic (p : Program) (m : Monomial) : Attempt Analysis Envelope := do
  let e := Expr.term m 1
  let value ← onMoments (p.substDeterministic e)
  let bound ← drawing value.canonicalize
  return .between e bound bound value.polarity

/-- The envelope of an odd power of a monomial. -/
def envelopeOfPower (envelope : Monomial → Attempt Analysis Envelope) (m : Monomial) (k : Nat) :
    Attempt Analysis Envelope := do
  let b ← envelope (m.root k)
  let lower ← drawing (b.lower.pow k).canonicalize
  let upper ← drawing (b.upper.pow k).canonicalize
  return .between (.term m 1) lower upper b.polarity

/-- Expressions at which a recurrence may start, up to positive factors. -/
def startingValues (polarity : Polarity) : Attempt Supply (List Expr) := do
  let above ← if polarity.maybePositive then
      (do return [Expr.ofSymbol (← Supply.draw "d")] : StateM Supply (List Expr))
    else pure []
  let below ← if polarity.maybeNegative then
      (do return [-Expr.ofSymbol (← Supply.draw "d")] : StateM Supply (List Expr))
    else pure []
  match above ++ below with
  | [] => return [Expr.zero]
  | values => return values

/-- The solutions of a recurrence for all given factors and starting values, split by sign. -/
def candidates (factors : List Rat) (inhomogeneous : Expr) (starts : List Expr) :
    Attempt Supply (List Expr) := do
  let solutions := factors.flatMap fun c => starts.map fun s =>
    Recurrence.solve c inhomogeneous s
  let parts ← solutions.mapM Expr.splitSign
  return parts.flatten

/-- The bounds of the absolute values of envelopes, one iteration earlier. -/
def absoluteBounds (bs : List Envelope) : Attempt Supply (List Expr) :=
  bs.mapM fun b => do
    let (value, _) ← b.absoluteUpper
    return value.shift (-1)

/-- The envelope when some branch may change the sign: the absolute value satisfies a recurrence
with the largest magnitude of the factors. -/
def envelopeOfAlternating (m : Monomial) (least greatest : Rat) (rests : List Envelope) :
    Attempt Supply Envelope := do
  let low := Number.abs least
  let high := Number.abs greatest
  let scale := if low ≤ high then high else low
  let inhomogeneous ← Expr.dominating (← absoluteBounds rests)
  let starts ← startingValues ⟨true, false⟩
  let bound ← Expr.dominating (← candidates [scale] inhomogeneous starts)
  return .between (.term m 1) (-bound) bound .both

/-- The polarity of a monomial whose branches have no negative factor. -/
def monotonePolarity (p : Program) (m : Monomial) (rests : List Envelope) : Polarity :=
  if m.powers.all fun s => s.2 % 2 == 0 then ⟨true, false⟩
  else rests.foldl (fun acc b => acc.or b.polarity) (p.initialPolarity (.term m 1))

/-- The envelope when no branch changes the sign: the extreme factors and the extreme bounds of the
inhomogeneous parts give recurrences above and below. -/
def envelopeOfMonotone (m : Monomial) (least greatest : Rat) (rests : List Envelope)
    (polarity : Polarity) : Attempt Supply Envelope := do
  let above ← Expr.dominating (rests.map fun b => b.upper.shift (-1))
  let below ← Expr.dominated (rests.map fun b => b.lower.shift (-1))
  let factors := if greatest = least then [least] else [least, greatest]
  let starts ← startingValues polarity
  let upper ← Expr.dominating (← candidates factors above starts)
  let lower ← Expr.dominated (← candidates factors below starts)
  let upper ← if polarity.maybePositive then pure upper else Expr.dominated [upper, Expr.zero]
  let lower ← if polarity.maybeNegative then pure lower else Expr.dominating [lower, Expr.zero]
  return .between (.term m 1) lower upper polarity

/-- The envelope of a monomial from the recurrences of its branches. -/
def envelopeOfRecurrence (p : Program) (envelope : Monomial → Attempt Analysis Envelope)
    (m : Monomial) : Attempt Analysis Envelope := do
  let branches ← p.branchesOf m
  let rests ← branches.mapM fun b => envelopeFrom envelope b.rest
  let factors := branches.map (·.factor)
  match Number.minimum? factors, Number.maximum? factors with
  | some least, some greatest =>
    if least < 0 then drawing (envelopeOfAlternating m least greatest rests)
    else drawing (envelopeOfMonotone m least greatest rests (p.monotonePolarity m rests))
  | _, _ => throw (.unexpected (.noBranches m))

/-- The largest odd divisor of a positive number. -/
def oddPart (k : Nat) : Nat :=
  if k = 0 then 0 else if k % 2 = 0 then oddPart (k / 2) else k
termination_by k
decreasing_by omega

/-- The envelope of a monomial, computed at most once. -/
def envelopeOfMonomial (p : Program) (m : Monomial) : Attempt Analysis Envelope :=
  envelopeSlot.remember m (.unexpected (.boundsCycle m)) fun _ =>
    let envelope := fun other =>
      if _below : (p.rank other).Below (p.rank m) then p.envelopeOfMonomial other
      else throw (.unexpected (.boundsCycle other))
    let random := m.kept p.isRandom
    if !random.isOne then p.envelopeOfRandom envelope m random (m.rest p.isRandom)
    else if m.symbols.all fun s => !p.isProbabilistic s then p.envelopeOfDeterministic m
    else if 1 < oddPart m.powerGcd then envelopeOfPower envelope m (oddPart m.powerGcd)
    else p.envelopeOfRecurrence envelope m
termination_by p.rank m
decreasing_by assumption

/-- The envelope of a polynomial over the variables, whose coefficients may depend on the counter.
-/
def envelopeOf (p : Program) (e : Expr) : Attempt Analysis Envelope :=
  envelopeFrom p.envelopeOfMonomial e

end Program

end ProbLoop
