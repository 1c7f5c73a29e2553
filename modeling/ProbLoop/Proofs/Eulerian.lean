import Mathlib.Data.Nat.Choose.Sum
import Mathlib.RingTheory.PowerSeries.Derivative
import Mathlib.RingTheory.PowerSeries.WellKnown
import Mathlib.Tactic.LinearCombination
import ProbLoop.Number.Counting
import ProbLoop.Proofs.Power

/-!
# Eulerian polynomials

The rows of the table of Eulerian numbers are the coefficients of polynomials. The `k`-th of them is
`(1 - X) ^ (k + 1)` times the series `∑ (m + 1) ^ k * X ^ m`, and the binomial expansion of
`((m + 1) + 1) ^ k` in that series becomes a recurrence between the polynomials.
-/

set_option autoImplicit false

namespace ProbLoop.Number

open Finset

theorem sum_eq (qs : List Rat) : sum qs = qs.sum :=
  List.sum_eq_foldl.symm

/-- The entry of a row of the table, and zero behind its end. -/
def eulerian (k i : Nat) : Nat :=
  (eulerianRow k).getD i 0

theorem length_eulerianRow_le (k : Nat) : (eulerianRow k).length ≤ k + 1 := by
  cases k with
  | zero => exact le_refl 1
  | succ k => rw [eulerianRow, List.length_map, List.length_range]; omega

theorem eulerian_eq_zero {k i : Nat} (h : k < i) : eulerian k i = 0 :=
  List.getD_eq_default _ _ ((length_eulerianRow_le k).trans h)

theorem eulerian_succ_zero (k : Nat) : eulerian (k + 1) 0 = eulerian k 0 := by
  simp [eulerian, eulerianRow, List.getD_eq_getElem?_getD]

/-- Each entry comes from the two above it. Behind the end of the row both sides are zero. -/
theorem eulerian_succ_succ (k i : Nat) :
    eulerian (k + 1) (i + 1) = (i + 2) * eulerian k (i + 1) + (k - i) * eulerian k i := by
  by_cases h : i < k
  · simp [eulerian, eulerianRow, List.getD_eq_getElem?_getD, h, add_assoc]
  · have hlength : (eulerianRow (k + 1)).length ≤ i + 1 := by simp [eulerianRow]; omega
    have habove : eulerian k (i + 1) = 0 := eulerian_eq_zero (by omega)
    rw [Nat.sub_eq_zero_of_le (not_lt.mp h), habove, zero_mul, mul_zero]
    exact List.getD_eq_default _ _ hlength

section Polynomials

open Polynomial

/-- The polynomial whose coefficients are the `k`-th row of the table. -/
noncomputable def eulerianPolynomial (k : Nat) : ℚ[X] :=
  ∑ i ∈ range (k + 1), C (eulerian k i : ℚ) * X ^ i

theorem coeff_eulerianPolynomial (k i : Nat) : (eulerianPolynomial k).coeff i = eulerian k i := by
  rw [eulerianPolynomial, finsetSum_coeff]
  simp only [coeff_C_mul_X_pow, sum_ite_eq, mem_range]
  split
  · rfl
  · next h => rw [eulerian_eq_zero (by omega), Nat.cast_zero]

theorem eulerianPolynomial_zero : eulerianPolynomial 0 = 1 := by
  simp [eulerianPolynomial, eulerian, eulerianRow]

/-- The recurrence of the table as one of the polynomials. -/
theorem eulerianPolynomial_succ (k : Nat) :
    eulerianPolynomial (k + 1) =
      (1 + (k : ℚ[X]) * X) * eulerianPolynomial k
        + X * (1 - X) * derivative (eulerianPolynomial k) := by
  have hexpand : (1 + (k : ℚ[X]) * X) * eulerianPolynomial k
      + X * (1 - X) * derivative (eulerianPolynomial k) =
      eulerianPolynomial k + X * (C (k : ℚ) * eulerianPolynomial k
        + derivative (eulerianPolynomial k) - X * derivative (eulerianPolynomial k)) := by
    rw [map_natCast]
    ring
  rw [hexpand]
  ext i
  cases i with
  | zero => simp [coeff_eulerianPolynomial, eulerian_succ_zero]
  | succ i =>
    rw [coeff_add, coeff_X_mul, coeff_sub, coeff_add, coeff_C_mul, coeff_derivative]
    have hshift : (X * derivative (eulerianPolynomial k)).coeff i =
        (i : ℚ) * eulerian k i := by
      cases i with
      | zero => simp
      | succ i =>
        rw [coeff_X_mul, coeff_derivative, coeff_eulerianPolynomial]
        push_cast
        ring
    have hdifference : (((k - i : ℕ) : ℚ)) * eulerian k i = (k - i) * eulerian k i := by
      rcases le_or_gt i k with h | h
      · rw [Nat.cast_sub h]
      · rw [eulerian_eq_zero h, Nat.cast_zero, mul_zero, mul_zero]
    rw [hshift, coeff_eulerianPolynomial, coeff_eulerianPolynomial, coeff_eulerianPolynomial,
      eulerian_succ_succ]
    push_cast
    linear_combination hdifference

end Polynomials

section Series

open PowerSeries

/-- The series `∑ (m + 1) ^ k * X ^ m`. -/
noncomputable def powerSum (k : Nat) : ℚ⟦X⟧ :=
  PowerSeries.mk fun m => ((m : ℚ) + 1) ^ k

theorem powerSum_succ (k : Nat) :
    powerSum (k + 1) = powerSum k + X * derivative ℚ (powerSum k) := by
  ext m
  cases m with
  | zero => simp [powerSum]
  | succ m =>
    rw [map_add, coeff_succ_X_mul, coeff_derivative, powerSum, powerSum, coeff_mk, coeff_mk]
    push_cast
    ring

/-- The first term of the series is one, and the others are expanded by the binomial theorem. -/
theorem powerSum_eq_one_add (k : Nat) :
    powerSum k = 1 + X * ∑ j ∈ range (k + 1), (k.choose j : ℚ⟦X⟧) * powerSum j := by
  ext m
  cases m with
  | zero => simp [powerSum]
  | succ m =>
    have hcoeff : ∀ j, coeff m ((k.choose j : ℚ⟦X⟧) * powerSum j) =
        ((m : ℚ) + 1) ^ j * k.choose j := fun j => by
      rw [← map_natCast (C (R := ℚ)), coeff_C_mul, powerSum, coeff_mk, mul_comm]
    rw [map_add, coeff_succ_X_mul, map_sum, sum_congr rfl fun j _ => hcoeff j, powerSum, coeff_mk,
      coeff_one, if_neg (Nat.succ_ne_zero m), zero_add, Nat.cast_succ, add_pow]
    simp

theorem eulerianPolynomial_eq_mul_powerSum (k : Nat) :
    (eulerianPolynomial k : ℚ⟦X⟧) = (1 - X) ^ (k + 1) * powerSum k := by
  induction k with
  | zero =>
    have hgeometric : powerSum 0 = (PowerSeries.mk 1 : ℚ⟦X⟧) := by ext m; simp [powerSum]
    rw [eulerianPolynomial_zero, Polynomial.coe_one, hgeometric, zero_add, pow_one, mul_comm,
      mk_one_mul_one_sub_eq_one]
  | succ k ih =>
    have hderivative : ((Polynomial.derivative (eulerianPolynomial k) : Polynomial ℚ) : ℚ⟦X⟧) =
        (1 - X) ^ (k + 1) * derivative ℚ (powerSum k)
          - ((k : ℚ⟦X⟧) + 1) * (1 - X) ^ k * powerSum k := by
      rw [← derivative_coe, ih, Derivation.leibniz, derivative_pow]
      simp
      ring
    have hcast : ((k : Polynomial ℚ) : ℚ⟦X⟧) = k :=
      map_natCast (Polynomial.coeToPowerSeries.ringHom (R := ℚ)) k
    rw [eulerianPolynomial_succ, powerSum_succ]
    push_cast
    rw [hcast, hderivative, ih]
    ring

/-- The expansion of the series, without its denominators. -/
theorem eulerianPolynomial_eq (k : Nat) :
    eulerianPolynomial k = (1 - Polynomial.X) ^ (k + 1) + Polynomial.X * ∑ j ∈ range (k + 1),
      (k.choose j : Polynomial ℚ) * ((1 - Polynomial.X) ^ (k - j) * eulerianPolynomial j) := by
  apply Polynomial.coe_injective ℚ
  have hcast : ∀ j, ((k.choose j : Polynomial ℚ) : ℚ⟦X⟧) = k.choose j := fun j =>
    map_natCast (Polynomial.coeToPowerSeries.ringHom (R := ℚ)) _
  have hterm : ∀ j ∈ range (k + 1), (((k.choose j : Polynomial ℚ) *
      ((1 - Polynomial.X) ^ (k - j) * eulerianPolynomial j) : Polynomial ℚ) : ℚ⟦X⟧) =
        (1 - X) ^ (k + 1) * ((k.choose j : ℚ⟦X⟧) * powerSum j) := fun j hj => by
    have hsplit : k + 1 = k - j + (j + 1) := by have := mem_range.mp hj; omega
    rw [hsplit, pow_add]
    push_cast
    rw [hcast, eulerianPolynomial_eq_mul_powerSum]
    ring
  have hsum : ((∑ j ∈ range (k + 1), (k.choose j : Polynomial ℚ) *
      ((1 - Polynomial.X) ^ (k - j) * eulerianPolynomial j) : Polynomial ℚ) : ℚ⟦X⟧) =
        (1 - X) ^ (k + 1) * ∑ j ∈ range (k + 1), (k.choose j : ℚ⟦X⟧) * powerSum j := by
    rw [mul_sum, ← sum_congr rfl hterm]
    simp only [← Polynomial.coeToPowerSeries.ringHom_apply, map_sum]
  rw [Polynomial.coe_add, Polynomial.coe_mul, hsum, eulerianPolynomial_eq_mul_powerSum,
    powerSum_eq_one_add]
  push_cast
  ring

end Series

/-- The recurrence between the moments of the number of trials up to the first success, as one of the
Eulerian polynomials at the probability of failure. -/
theorem eval_eulerianPolynomial (p : ℚ) (k : Nat) :
    (eulerianPolynomial k).eval (1 - p) = p ^ (k + 1) + (1 - p) * ∑ j ∈ range (k + 1),
      (k.choose j : ℚ) * (p ^ (k - j) * (eulerianPolynomial j).eval (1 - p)) := by
  have h := congrArg (Polynomial.eval (1 - p)) (eulerianPolynomial_eq k)
  simpa [Polynomial.eval_finsetSum] using h

/-- What the sum over a row of the table computes. -/
theorem sum_eulerianRow (k : Nat) (q : ℚ) :
    sum ((eulerianRow k).zipIdx.map fun a => (a.1 : Rat) * pow q a.2) =
      (eulerianPolynomial k).eval q := by
  have hentries : (eulerianRow k).zipIdx.map (fun a => (a.1 : Rat) * pow q a.2) =
      (List.range (eulerianRow k).length).map fun i => (eulerian k i : ℚ) * q ^ i := by
    apply List.ext_getElem
    · simp
    · intro i hi _
      rw [List.length_map, List.length_zipIdx] at hi
      simp [eulerian, pow_eq, List.getD_eq_getElem?_getD, hi]
  have hlength : range (eulerianRow k).length ⊆ range (k + 1) :=
    range_subset_range.mpr (length_eulerianRow_le k)
  rw [sum_eq, hentries, eulerianPolynomial, Polynomial.eval_finsetSum]
  simp only [Polynomial.eval_mul, Polynomial.eval_C, Polynomial.eval_pow, Polynomial.eval_X]
  refine sum_subset hlength fun i _ hi => ?_
  rw [eulerian, List.getD_eq_default _ _ (not_lt.mp (mt mem_range.mpr hi)), Nat.cast_zero, zero_mul]

end ProbLoop.Number
