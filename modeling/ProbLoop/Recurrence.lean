import ProbLoop.Expr.Basic
import ProbLoop.Number.Counting

/-!
# First-order linear recurrences

The recurrence `f (n) = c * f (n - 1) + h (n)` has a closed form if `h` is an exponential
polynomial. Each term `n ^ k * b ^ n` of `h` contributes `P (n) * b ^ n - P (0) * c ^ n`, where `P`
is the polynomial with `P (n) - s * P (n - 1) = n ^ k` for `s = c / b`.
-/

set_option autoImplicit false

namespace ProbLoop.Recurrence

/-- The coefficient of `n ^ m` in `P (n - 1)`, as far as it comes from the given coefficients of
`P`, which belong to the powers from `j` on. -/
def shiftedFrom (m : Nat) : Nat → List Rat → Rat
  | _, [] => 0
  | j, p :: rest =>
    let part := p * (Number.binomial j m : Rat)
    (if (j - m) % 2 = 1 then -part else part) + shiftedFrom m (j + 1) rest

/-- The last `steps` coefficients of `P`, up to the power `k`, for `s` other than one. Each depends
on those above it. -/
def unequalFrom (s : Rat) (k : Nat) : Nat → List Rat
  | 0 => []
  | steps + 1 =>
    let above := unequalFrom s k steps
    let m := k - steps
    let target : Rat := if m = k then 1 else 0
    (target + s * shiftedFrom m (m + 1) above) / (1 - s) :: above

/-- The last `steps` coefficients of `P`, up to the power `k + 1`, for `s` equal to one. The
coefficient of `n ^ m` in `P (n) - P (n - 1)` fixes the one of the power `m + 1`. -/
def equalFrom (k : Nat) : Nat → List Rat
  | 0 => []
  | steps + 1 =>
    let above := equalFrom k steps
    let m := k - steps
    let target : Rat := if m = k then 1 else 0
    (target + shiftedFrom m (m + 2) above) / ((m + 1 : Nat) : Rat) :: above

/-- Coefficients `p₀, p₁, …` of the polynomial `P` with `P (n) - s * P (n - 1) = n ^ k`. -/
def particular (s : Rat) (k : Nat) : List Rat :=
  if s = 1 then 0 :: equalFrom k (k + 1) else unequalFrom s k (k + 1)

/-- A polynomial in the counter from its coefficients, lowest first. -/
def polynomial (coefficients : List Rat) : Expr :=
  Expr.sum (coefficients.zipIdx.map fun p => Expr.term (Monomial.ofSymbol .counter p.2) p.1)

/-- What one term of the inhomogeneous part contributes to the closed form. -/
def contribution (c : Rat) (t : Monomial × Rat) : Expr :=
  let base := t.1.base
  let p := particular (c / base) t.1.counterDegree
  let solution := Expr.exponential base * polynomial p
    - (Expr.exponential c).scale (p.head?.getD 0)
  Expr.term ((t.1.without .counter).withBase 1) t.2 * solution

/-- The closed form of `f (n) = c * f (n - 1) + h (n)` with `f (0) = start`. It holds for every
`n ≥ 1`, and at zero as well unless `c` is zero. -/
def solve (c : Rat) (h start : Expr) : Expr :=
  if c = 0 then h
  else Expr.exponential c * start + Expr.sum (h.terms.map (contribution c))

end ProbLoop.Recurrence
