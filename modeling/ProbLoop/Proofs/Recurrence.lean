import Mathlib.Data.Nat.Choose.Sum
import Mathlib.Tactic.LinearCombination
import ProbLoop.Proofs.Expr.Built

/-!
# Solutions of recurrences

The polynomial `P` that is computed for a power of the counter satisfies `P (n) - s * P (n - 1) = n ^ k`
at every rational `n`, and the closed form of a recurrence satisfies the recurrence from its first
step on.
-/

set_option autoImplicit false

namespace ProbLoop

namespace Number

theorem foldl_binomial {n k : Nat} (h : k ≤ n) :
    (List.range k).foldl (fun acc i => acc * (n - i) / (i + 1)) 1 = n.choose k := by
  induction k with
  | zero => simp
  | succ k ih =>
    rw [List.range_succ, List.foldl_append, ih (by omega), List.foldl_cons, List.foldl_nil,
      ← Nat.choose_succ_right_eq, Nat.mul_div_cancel _ (Nat.succ_pos k)]

theorem binomial_eq (n k : Nat) : binomial n k = n.choose k := by
  unfold binomial
  split
  · next h => exact (Nat.choose_eq_zero_of_lt h).symm
  · next h =>
    rw [foldl_binomial (by omega)]
    by_cases hk : k ≤ n - k
    · rw [min_eq_left hk]
    · rw [min_eq_right (by omega), Nat.choose_symm (by omega)]

end Number

namespace Recurrence

open Finset

/-- The value at `x` of the polynomial whose coefficients from the power `j` on are given. -/
def evalFrom (x : Rat) : Nat → List Rat → Rat
  | _, [] => 0
  | j, p :: rest => p * x ^ j + evalFrom x (j + 1) rest

theorem evalFrom_zero (j : Nat) (ps : List Rat) : evalFrom 0 (j + 1) ps = 0 := by
  induction ps generalizing j with
  | nil => rfl
  | cons p ps ih => rw [evalFrom, ih, zero_pow (Nat.succ_ne_zero j), mul_zero, zero_add]

theorem head?_eq_evalFrom (ps : List Rat) : ps.head?.getD 0 = evalFrom 0 0 ps := by
  cases ps with
  | nil => rfl
  | cons p ps => rw [evalFrom, evalFrom_zero, pow_zero, mul_one, add_zero]; rfl

/-- The coefficient of `x ^ m` in `(x - 1) ^ j`. -/
def backCoefficient (j m : Nat) : Rat :=
  (-1) ^ (j - m) * (j.choose m : Rat)

theorem sub_one_pow (x : Rat) (j : Nat) :
    (x - 1) ^ j = ∑ m ∈ range j, backCoefficient j m * x ^ m + x ^ j := by
  rw [sub_eq_add_neg, add_pow, sum_range_succ]
  congr 1
  · apply sum_congr rfl
    intro m _
    rw [backCoefficient]
    ring
  · simp

theorem shiftedFrom_cons (m j : Nat) (p : Rat) (rest : List Rat) :
    shiftedFrom m j (p :: rest) = p * backCoefficient j m + shiftedFrom m (j + 1) rest := by
  rw [shiftedFrom, backCoefficient, Number.binomial_eq]
  by_cases h : (j - m) % 2 = 1
  · rw [if_pos h, (Nat.odd_iff.mpr h).neg_one_pow]
    ring
  · rw [if_neg h, (Nat.even_iff.mpr (by omega)).neg_one_pow]
    ring

/-- The terms `p * x ^ j - s * p * (x - 1) ^ j` of `P (x) - s * P (x - 1)`, from the power `j` on. -/
def defect (s x : Rat) (j : Nat) (ps : List Rat) : Rat :=
  evalFrom x j ps - s * evalFrom (x - 1) j ps

theorem defect_cons (s x : Rat) (j : Nat) (p : Rat) (ps : List Rat) :
    defect s x j (p :: ps) = p * (x ^ j - s * (x - 1) ^ j) + defect s x (j + 1) ps := by
  simp only [defect, evalFrom]
  ring

/-- What the coefficients above a power leave to the powers below it. -/
def remainder (s x : Rat) (d j : Nat) (ps : List Rat) : Rat :=
  s * ∑ i ∈ range d, shiftedFrom i j ps * x ^ i

theorem remainder_cons (s x : Rat) (d j : Nat) (p : Rat) (ps : List Rat) :
    remainder s x d j (p :: ps) =
      s * p * ∑ i ∈ range d, backCoefficient j i * x ^ i + remainder s x d (j + 1) ps := by
  simp only [remainder, shiftedFrom_cons, add_mul, sum_add_distrib, mul_add, mul_assoc, ← mul_sum]

theorem remainder_succ (s x : Rat) (d j : Nat) (ps : List Rat) :
    remainder s x (d + 1) j ps = remainder s x d j ps + s * (shiftedFrom d j ps * x ^ d) := by
  rw [remainder, sum_range_succ, mul_add, remainder]

/-- Only the target power is left of the coefficients chosen so far, and what they leave below. -/
theorem defect_unequalFrom {s : Rat} (hs : s ≠ 1) (x : Rat) (k steps : Nat) (hk : steps ≤ k + 1) :
    defect s x (k + 1 - steps) (unequalFrom s k steps) =
      (if steps = 0 then 0 else x ^ k) -
        remainder s x (k + 1 - steps) (k + 1 - steps) (unequalFrom s k steps) := by
  induction steps with
  | zero => simp [unequalFrom, defect, evalFrom, remainder, shiftedFrom]
  | succ steps ih =>
    have hj : k + 1 - steps = k - steps + 1 := by omega
    have ih := ih (by omega)
    rw [hj] at ih
    rw [show k + 1 - (steps + 1) = k - steps by omega, unequalFrom, if_neg (Nat.succ_ne_zero steps)]
    set above := unequalFrom s k steps
    set m := k - steps
    set p := ((if m = k then 1 else 0) + s * shiftedFrom m (m + 1) above) / (1 - s)
    have hp : p * (1 - s) = (if m = k then 1 else 0) + s * shiftedFrom m (m + 1) above :=
      div_mul_cancel₀ _ (sub_ne_zero.mpr hs.symm)
    have ht : (if m = k then (1 : Rat) else 0) * x ^ m + (if steps = 0 then 0 else x ^ k) =
        x ^ k := by
      by_cases h0 : steps = 0
      · simp [m, h0]
      · rw [if_neg (by omega), if_neg h0, zero_mul, zero_add]
    rw [defect_cons, ih, remainder_cons, remainder_succ, sub_one_pow]
    linear_combination x ^ m * hp + ht

/-- The same for `s` equal to one, where the coefficients of one power more are used up. -/
theorem defect_equalFrom (x : Rat) (k steps : Nat) (hk : steps ≤ k + 1) :
    defect 1 x (k + 2 - steps) (equalFrom k steps) =
      (if steps = 0 then 0 else x ^ k) -
        remainder 1 x (k + 1 - steps) (k + 2 - steps) (equalFrom k steps) := by
  induction steps with
  | zero => simp [equalFrom, defect, evalFrom, remainder, shiftedFrom]
  | succ steps ih =>
    have hj : k + 2 - steps = k - steps + 2 := by omega
    have hd : k + 1 - steps = k - steps + 1 := by omega
    have ih := ih (by omega)
    rw [hj, hd] at ih
    rw [show k + 2 - (steps + 1) = k - steps + 1 by omega,
      show k + 1 - (steps + 1) = k - steps by omega, equalFrom, if_neg (Nat.succ_ne_zero steps)]
    set above := equalFrom k steps
    set m := k - steps
    set p := ((if m = k then 1 else 0) + shiftedFrom m (m + 2) above) / ((m + 1 : Nat) : Rat)
    have hp : p * ((m + 1 : Nat) : Rat) = (if m = k then 1 else 0) + shiftedFrom m (m + 2) above :=
      div_mul_cancel₀ _ (by positivity)
    have ht : (if m = k then (1 : Rat) else 0) * x ^ m + (if steps = 0 then 0 else x ^ k) =
        x ^ k := by
      by_cases h0 : steps = 0
      · simp [m, h0]
      · rw [if_neg (by omega), if_neg h0, zero_mul, zero_add]
    have hc : backCoefficient (m + 1) m = -((m + 1 : Nat) : Rat) := by
      rw [backCoefficient, Nat.choose_succ_self_right, Nat.add_sub_cancel_left, pow_one, neg_one_mul]
    rw [defect_cons, ih, remainder_cons, remainder_succ, sub_one_pow, sum_range_succ, hc]
    linear_combination x ^ m * hp + ht

theorem particular_spec (s x : Rat) (k : Nat) : defect s x 0 (particular s k) = x ^ k := by
  unfold particular
  split
  · next hs =>
    have h := defect_equalFrom x k (k + 1) le_rfl
    rw [show k + 2 - (k + 1) = 0 + 1 by omega, Nat.sub_self, if_neg (Nat.succ_ne_zero k)] at h
    rw [hs, defect_cons, h, remainder]
    simp
  · next hs =>
    have h := defect_unequalFrom hs x k (k + 1) le_rfl
    rw [Nat.sub_self, if_neg (Nat.succ_ne_zero k)] at h
    rw [h, remainder]
    simp

variable (n : Nat) (v : Valuation)

theorem value_powers (ps : List Rat) (j : Nat) :
    (((ps.zipIdx j).map fun p => Expr.term (Monomial.ofSymbol .counter p.2) p.1).map
      (Expr.value n v)).sum = evalFrom n j ps := by
  induction ps generalizing j with
  | nil => rfl
  | cons p ps ih =>
    rw [List.zipIdx_cons, List.map_cons, List.map_cons, List.sum_cons, ih, Expr.value_term,
      Monomial.value_ofSymbol]
    rfl

@[simp] theorem value_polynomial (ps : List Rat) : (polynomial ps).value n v = evalFrom n 0 ps := by
  rw [polynomial, Expr.value_sum, value_powers]

theorem value_contribution {c : Rat} (hc : c ≠ 0) {t : Monomial × Rat} (ht : t.1.Canonical) :
    (contribution c t).value n v =
      t.2 * ((t.1.without .counter).withBase 1).value n v *
        (t.1.base ^ n * evalFrom n 0 (particular (c / t.1.base) t.1.counterDegree) -
          c ^ n * evalFrom 0 0 (particular (c / t.1.base) t.1.counterDegree)) := by
  simp only [contribution, Expr.value_mul, Expr.value_term, Expr.value_sub, Expr.value_scale,
    Expr.value_exponential n v ht.base_ne_zero, Expr.value_exponential n v hc, value_polynomial,
    head?_eq_evalFrom]

theorem value_contribution_zero {c : Rat} (hc : c ≠ 0) {t : Monomial × Rat}
    (ht : t.1.Canonical) : (contribution c t).value 0 v = 0 := by
  rw [value_contribution 0 v hc ht]
  simp

theorem value_contribution_succ {c : Rat} (hc : c ≠ 0) {t : Monomial × Rat}
    (ht : t.1.Canonical) :
    (contribution c t).value (n + 1) v =
      c * (contribution c t).value n v + t.2 * t.1.value (n + 1) v := by
  have hb := ht.base_ne_zero
  have hs := particular_spec (c / t.1.base) ((n + 1 : Nat) : Rat) t.1.counterDegree
  have hn : ((n + 1 : Nat) : Rat) - 1 = n := by
    push_cast
    ring
  have hp : t.1.base ^ (n + 1) * (c / t.1.base) = c * t.1.base ^ n := by
    rw [pow_succ, mul_assoc, mul_div_cancel₀ _ hb, mul_comm]
  rw [defect, hn] at hs
  rw [value_contribution _ v hc ht, value_contribution _ v hc ht, Monomial.value_split _ v ht, ← hs,
    Monomial.value_still (n + 1) v t.1 n]
  linear_combination t.2 * ((t.1.without .counter).withBase 1).value n v *
    evalFrom n 0 (particular (c / t.1.base) t.1.counterDegree) * hp

variable {c : Rat} {h start : Expr}

/-- The closed form starts at the given value, unless the recurrence forgets it. -/
theorem value_solve_zero (hc : c ≠ 0) (hh : h.Canonical) :
    (solve c h start).value 0 v = start.value 0 v := by
  have hz : ∀ x ∈ h.terms.map (fun t => (contribution c t).value 0 v), x = 0 := by
    intro x hx
    obtain ⟨t, ht, rfl⟩ := List.mem_map.mp hx
    exact value_contribution_zero v hc (hh.monomials t ht)
  rw [solve, if_neg hc, Expr.value_add, Expr.value_mul, Expr.value_exponential 0 v hc, pow_zero,
    one_mul, Expr.value_sum, List.map_map]
  exact (congrArg _ (List.sum_eq_zero hz)).trans (add_zero _)

/-- The closed form satisfies its recurrence at every step. -/
theorem value_solve_succ (hh : h.Canonical) (hs : start.value (n + 1) v = start.value n v) :
    (solve c h start).value (n + 1) v = c * (solve c h start).value n v + h.value (n + 1) v := by
  by_cases hc : c = 0
  · rw [solve, if_pos hc, hc, zero_mul, zero_add]
  · have hsum : (h.terms.map fun t => (contribution c t).value (n + 1) v).sum =
        c * (h.terms.map fun t => (contribution c t).value n v).sum + h.value (n + 1) v := by
      rw [Expr.value_eq_sum, ← List.sum_map_mul_left, ← List.sum_map_add]
      refine congrArg List.sum (List.map_congr_left fun t ht => ?_)
      exact value_contribution_succ n v hc (hh.monomials t ht)
    rw [solve, if_neg hc]
    simp only [Expr.value_add, Expr.value_mul, Expr.value_exponential _ v hc, Expr.value_sum,
      List.map_map, Function.comp_def, hs, hsum]
    ring

/-- The iterations of the closed form are those of its recurrence, as expressions: from the given start
on, or from the first step on if the recurrence forgets its start. -/
theorem atIteration_solve (hh : h.Built) (hstart : start.Built)
    (hstill : start.dependsOnCounter = false) :
    (c ≠ 0 → (solve c h start).atIteration 0 = start ∧
      ∀ n, (solve c h start).atIteration (n + 1) =
        ((solve c h start).atIteration n).scale c + h.atIteration (n + 1)) ∧
    (c = 0 → ∀ n, (solve c h start).atIteration (n + 1) = h.atIteration (n + 1)) := by
  have hclosed := canonical_solve c hh.canonical hstart.canonical
  refine ⟨fun hc => ⟨?_, fun n => ?_⟩, fun hc n => by rw [solve, if_pos hc]⟩
  · refine (hclosed.atIteration 0).ext_value hstart.canonical (N := 0) fun n _ v _ => ?_
    rw [Expr.value_atIteration n v hclosed, value_solve_zero v hc hh.canonical,
      Expr.value_of_not_dependsOnCounter 0 v hstart.canonical hstill n]
  · refine (hclosed.atIteration (n + 1)).ext_value (((hclosed.atIteration n).scale c).add
      (hh.canonical.atIteration (n + 1))) (N := 0) fun k _ v _ => ?_
    rw [Expr.value_add, Expr.value_scale, Expr.value_atIteration k v hclosed,
      Expr.value_atIteration k v hclosed, Expr.value_atIteration k v hh.canonical,
      value_solve_succ n v hh.canonical
        (Expr.value_of_not_dependsOnCounter (n + 1) v hstart.canonical hstill n)]
    ring

/-- Resonance: the inhomogeneous part grows with the coefficient of the recurrence. -/
theorem atIteration_solve_resonant :
    (solve 2 (Expr.ofSymbol (.positive "c") * Expr.counter * Expr.exponential 2)
        (Expr.ofSymbol (.real "x0"))).atIteration 0 = Expr.ofSymbol (.real "x0") ∧
      ∀ n, (solve 2 (Expr.ofSymbol (.positive "c") * Expr.counter * Expr.exponential 2)
          (Expr.ofSymbol (.real "x0"))).atIteration (n + 1) =
        ((solve 2 (Expr.ofSymbol (.positive "c") * Expr.counter * Expr.exponential 2)
          (Expr.ofSymbol (.real "x0"))).atIteration n).scale 2 +
          (Expr.ofSymbol (.positive "c") * Expr.counter * Expr.exponential 2).atIteration (n + 1) :=
  (atIteration_solve (.mul (.mul (.ofSymbol _) (.ofSymbol _)) (.exponential _)) (.ofSymbol _)
    (by decide)).1 two_ne_zero

end Recurrence

end ProbLoop
