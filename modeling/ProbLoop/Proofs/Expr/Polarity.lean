import Mathlib
import ProbLoop.Polarity
import ProbLoop.Proofs.Polarity
import ProbLoop.Proofs.Polynomial.Ceiling

/-!
# Signs at all counters

The polarity of an expression without variables allows its value at every counter, zero included: a
polynomial without roots above zero is zero or has its later sign there.
-/

set_option autoImplicit false

section

open Polynomial

namespace ProbLoop

namespace Polynomial

theorem ofCoefficients_addAt (c : Rat) (k : Nat) (cs : List Rat) :
    ofCoefficients (addAt c k cs) = C (c : ℝ) * X ^ k + ofCoefficients cs := by
  induction cs generalizing k with
  | nil =>
    induction k with
    | zero => simp [addAt, ofCoefficients]
    | succ k ih =>
      rw [addAt, ofCoefficients_cons, ih, pow_succ]
      simp [ofCoefficients]
      ring
  | cons d cs ih =>
    cases k with
    | zero =>
      rw [addAt, ofCoefficients_cons, ofCoefficients_cons]
      push_cast
      rw [C_add]
      ring
    | succ k =>
      rw [addAt, ofCoefficients_cons, ofCoefficients_cons, ih, pow_succ]
      ring

theorem eval_ofCoefficients_addAll (x : ℝ) (ts : List (Monomial × Rat)) (acc : List Rat) :
    (ofCoefficients (ts.foldl (fun acc t => addAt t.2 t.1.counterDegree acc) acc)).eval x =
      (ofCoefficients acc).eval x + (ts.map fun t => (t.2 : ℝ) * x ^ t.1.counterDegree).sum := by
  induction ts generalizing acc with
  | nil => simp
  | cons t ts ih =>
    rw [List.foldl_cons, ih, ofCoefficients_addAt, List.map_cons, List.sum_cons]
    simp only [eval_add, eval_mul, eval_C, eval_pow, eval_X]
    ring

end Polynomial

section Value

variable (n : Nat) (v : Valuation)

theorem Monomial.value_of_isCounterPower {m : Monomial} (hm : m.Canonical)
    (h : Polynomial.isCounterPower m = true) : m.value n v = (n : Rat) ^ m.counterDegree := by
  obtain ⟨hbase, hsymbols⟩ := Bool.and_eq_true_iff.mp h
  have hb : m.base = 1 := by simpa [isExponential] using hbase
  have hnil : (m.without .counter).powers = [] := by
    refine List.filter_eq_nil_iff.mpr fun q hq => ?_
    have hcounter := List.all_eq_true.mp hsymbols q.1 (List.mem_map_of_mem hq)
    cases hs : q.1 <;> simp [hs, Symbol.isCounter] at hcounter ⊢
  rw [value_split n v hm, hb, one_pow, mul_one, value_eq, withBase, hnil, one_pow]
  simp [powerProduct]

/-- A polynomial in the counter is evaluated as one. -/
theorem Expr.value_of_ofExpr? {e : Expr} (he : e.Canonical) {p : ProbLoop.Polynomial}
    (h : Polynomial.ofExpr? e = some p) : p.Normal ∧ e.value n v = p.eval n := by
  unfold Polynomial.ofExpr? at h
  split at h
  · next hall =>
    obtain rfl := Option.some.inj h
    refine ⟨Polynomial.normal_ofList _, ?_⟩
    have hvalue : (e.value n v : ℝ) = (Polynomial.eval (Polynomial.ofList
        (e.terms.foldl (fun acc t => Polynomial.addAt t.2 t.1.counterDegree acc) [])) n : ℝ) := by
      rw [← Polynomial.eval_toReal, Polynomial.toReal_ofList, Polynomial.eval_ofCoefficients_addAll,
        Expr.value_eq_sum, Rat.cast_list_sum, List.map_map]
      simp only [ofCoefficients, List.foldr_nil, eval_zero, zero_add]
      refine congrArg List.sum (List.map_congr_left fun t ht => ?_)
      rw [Function.comp_apply, Monomial.value_of_isCounterPower n v (he.monomials t ht)
        (List.all_eq_true.mp hall t ht)]
      push_cast
      rfl
    exact_mod_cast hvalue
  · exact absurd h (by simp)

end Value

namespace Polynomial

/-- The polarity of a polynomial without roots above zero. -/
theorem allows_eval {p : ProbLoop.Polynomial} (hp : p.Normal) (h : p.rootCeiling = 0) (n : Nat) :
    (Polarity.of (p.eval 1)).Allows (p.eval n) := by
  cases hzero : p.isZero with
  | true =>
    have hnil : p.coefficients = [] := List.isEmpty_iff.mp hzero
    have heval : p.eval n = 0 := by rw [eval, hnil, List.foldr_nil]
    rw [heval]
    exact Polarity.allows_zero _
  | false =>
    obtain ⟨hsame, hone⟩ := Proper.eval_mul_eval_one ⟨hp, hzero⟩ h n
    apply (Polarity.allows_of (p.eval 1)).of_sign
    · intro hpos
      exact ((mul_nonneg_iff_of_pos_left hpos).mp hsame).lt_of_ne hone.symm
    · intro hneg
      exact lt_of_le_of_ne (nonpos_of_mul_nonneg_right hsame hneg) hone

end Polynomial

section Signs

variable {n : Nat} {v : Valuation}

theorem Monomial.powerProduct_nonneg {g : Symbol → Rat} {l : List (Symbol × Nat)}
    (h : ∀ q ∈ l, 0 ≤ g q.1) : 0 ≤ powerProduct g l := by
  induction l with
  | nil => exact zero_le_one
  | cons q l ih =>
    obtain ⟨hq, hl⟩ := List.forall_mem_cons.mp h
    rw [powerProduct_cons]
    exact mul_nonneg (pow_nonneg hq q.2) (ih hl)

theorem Monomial.value_nonneg (hv : v.Admissible) {m : Monomial}
    (h : m.isPositiveDefinite = true) : 0 ≤ m.value n v := by
  obtain ⟨hbase, hsymbols⟩ := Bool.and_eq_true_iff.mp h
  rw [value_eq]
  refine mul_nonneg (powerProduct_nonneg fun q hq => ?_)
    (pow_nonneg (of_decide_eq_true hbase).le n)
  have hs := List.all_eq_true.mp hsymbols q.1 (List.mem_map_of_mem hq)
  cases hname : q.1 with
  | counter => exact Nat.cast_nonneg n
  | positive name => exact (hv name).le
  | _ => simp [hname, Symbol.isCounter, Symbol.isPositive] at hs

theorem Expr.value_of_isDefinite (hv : v.Admissible) {e : Expr} {positive : Bool}
    (h : e.isDefinite positive = true) :
    if positive then 0 ≤ e.value n v else e.value n v ≤ 0 := by
  have hterms := List.all_eq_true.mp h
  rw [value_eq_sum]
  cases positive with
  | true =>
    refine List.sum_nonneg fun x hx => ?_
    obtain ⟨t, ht, rfl⟩ := List.mem_map.mp hx
    obtain ⟨hdefinite, hsign⟩ := Bool.and_eq_true_iff.mp (hterms t ht)
    have hpos : 0 < t.2 := by simpa using hsign
    exact mul_nonneg hpos.le (Monomial.value_nonneg hv hdefinite)
  | false =>
    rw [if_neg Bool.false_ne_true, ← neg_nonneg, List.sum_neg, List.map_map]
    refine List.sum_nonneg fun x hx => ?_
    obtain ⟨t, ht, rfl⟩ := List.mem_map.mp hx
    obtain ⟨hdefinite, hsign⟩ := Bool.and_eq_true_iff.mp (hterms t ht)
    have hneg : t.2 ≤ 0 := by simpa using hsign
    exact neg_nonneg.mpr
      (mul_nonpos_of_nonpos_of_nonneg hneg (Monomial.value_nonneg hv hdefinite))

/-- The polarity of an expression allows its values at all counters. -/
theorem Expr.polarity_allows (hv : v.Admissible) {e : Expr} (he : e.Canonical) :
    e.polarity.Allows (e.value n v) := by
  unfold polarity
  split
  · next c hc =>
    rw [value_of_constant? hc]
    exact Polarity.allows_of c
  · split
    · next p hp =>
      obtain ⟨hnormal, hvalue⟩ := value_of_ofExpr? n v he hp
      rw [hvalue]
      split
      · exact Polarity.allows_both _
      · next hroots => exact Polynomial.allows_eval hnormal (Nat.eq_zero_of_not_pos hroots) n
    · split
      · next h => exact Polarity.allows_of_nonneg (value_of_isDefinite hv h)
      · split
        · next h => exact Polarity.allows_of_nonpos (value_of_isDefinite hv h)
        · exact Polarity.allows_both _

end Signs

end ProbLoop

end
