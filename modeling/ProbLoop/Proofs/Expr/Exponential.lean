import Mathlib
import ProbLoop.Proofs.Expr.Unique

/-!
# Expressions are determined by their values

The powers of a number, times polynomials, are generalized eigenvectors of the shift of sequences, so
those of distinct numbers are independent. A canonical expression is therefore determined by its values
from any iteration on.
-/

set_option autoImplicit false

section

open Polynomial

namespace ProbLoop

/-- The shift of sequences of numbers. -/
noncomputable def sequenceShift : Module.End ℚ (ℕ → ℚ) := LinearMap.funLeft ℚ ℚ Nat.succ

/-- Taking off its number, the shift of an exponential sequence is a multiple of the differences. -/
theorem shift_sub_pow (b : ℚ) (g : ℕ → ℚ) (k : ℕ) :
    ((sequenceShift - b • 1) ^ k) (fun n => g n * b ^ n) =
      fun n => b ^ k * (fwdDiff 1)^[k] g n * b ^ n := by
  induction k generalizing g with
  | zero => simp
  | succ k ih =>
    have hstep : (sequenceShift - b • 1) (fun n => g n * b ^ n) =
        fun n => (b • fwdDiff 1 g) n * b ^ n := by
      funext n
      simp only [sequenceShift, LinearMap.sub_apply, LinearMap.smul_apply, Module.End.one_apply,
        Pi.sub_apply, Pi.smul_apply, LinearMap.funLeft_apply, smul_eq_mul, fwdDiff]
      rw [Nat.succ_eq_add_one, pow_succ]
      ring
    rw [pow_succ, Module.End.mul_apply, hstep, ih, fwdDiff_iter_const_smul]
    funext n
    rw [Function.iterate_succ_apply]
    simp only [Pi.smul_apply, smul_eq_mul]
    ring

theorem fwdDiff_iter_eval (P : ℚ[X]) (k n : ℕ) :
    (fwdDiff 1)^[k] (fun n : ℕ => P.eval (n : ℚ)) n = (fwdDiff 1)^[k] P.eval (n : ℚ) := by
  induction k generalizing n with
  | zero => rfl
  | succ k ih =>
    rw [Function.iterate_succ_apply', Function.iterate_succ_apply', fwdDiff, fwdDiff, ih, ih]
    push_cast
    rfl

theorem mem_maxGenEigenspace (b : ℚ) (P : ℚ[X]) :
    (fun n : ℕ => P.eval (n : ℚ) * b ^ n) ∈ sequenceShift.maxGenEigenspace b := by
  refine (Module.End.mem_maxGenEigenspace _ _ _).mpr ⟨P.natDegree + 1, ?_⟩
  rw [shift_sub_pow]
  funext n
  rw [fwdDiff_iter_eval, P.fwdDiff_iter_eq_zero_of_degree_lt (Nat.lt_succ_self _)]
  simp

theorem eq_zero_of_eval_natCast {P : ℚ[X]} {N : ℕ} (h : ∀ n : ℕ, N ≤ n → P.eval (n : ℚ) = 0) :
    P = 0 := by
  apply P.eq_zero_of_infinite_isRoot
  apply (Set.Ici_infinite N).image (Nat.cast_injective (R := ℚ)).injOn |>.mono
  rintro _ ⟨n, hn, rfl⟩
  exact h n hn

/-- Powers of distinct numbers times polynomials add up to zero only if the polynomials are zero. -/
theorem eq_zero_of_sum_mul_pow {bases : Finset ℚ} (h0 : ∀ b ∈ bases, b ≠ 0) {P : ℚ → ℚ[X]}
    {N : ℕ} (h : ∀ n : ℕ, N ≤ n → ∑ b ∈ bases, (P b).eval (n : ℚ) * b ^ n = 0) :
    ∀ b ∈ bases, P b = 0 := by
  set Q : ℚ → ℚ[X] := fun b => C (b ^ N) * (P b).comp (X + C (N : ℚ))
  have hQ : ∀ (b : ℚ) (n : ℕ), (Q b).eval (n : ℚ) * b ^ n =
      (P b).eval ((n + N : ℕ) : ℚ) * b ^ (n + N) := by
    intro b n
    simp only [Q, eval_mul, eval_C, eval_comp, eval_add, eval_X, pow_add]
    push_cast
    ring
  have hindep := (iSupIndep_iff_finsetSum_eq_zero_imp_eq_zero _).mp
    sequenceShift.independent_maxGenEigenspace bases
    (fun b => fun n : ℕ => (Q b).eval (n : ℚ) * b ^ n) fun b _ => mem_maxGenEigenspace b (Q b)
  have hsum : ∑ b ∈ bases, (fun n : ℕ => (Q b).eval (n : ℚ) * b ^ n) = 0 := by
    funext n
    rw [Finset.sum_apply, Pi.zero_apply, ← h (n + N) (Nat.le_add_left N n)]
    exact Finset.sum_congr rfl fun b _ => hQ b n
  intro b hb
  apply eq_zero_of_eval_natCast (N := N)
  intro n hn
  have hzero := congrFun (hindep hsum b hb) (n - N)
  simp only [Pi.zero_apply, hQ, Nat.sub_add_cancel hn] at hzero
  exact (mul_eq_zero.mp hzero).resolve_right (pow_ne_zero n (h0 b hb))

namespace Expr

/-- The polynomial over the symbols, the counter among them, by which an expression multiplies the
powers of a number. -/
noncomputable def factorOf (e : Expr) (base : Rat) : MvPolynomial Symbol Rat :=
  (e.terms.map fun t => if t.1.base = base then MvPolynomial.monomial t.1.exponents t.2 else 0).sum

theorem coeff_factorOf (d : Symbol →₀ Nat) (base : Rat) (e : Expr) :
    MvPolynomial.coeff d (e.factorOf base) =
      e.lift fun m => if m.exponents = d ∧ m.base = base then 1 else 0 := by
  classical
  rw [lift_eq_sum, factorOf, ← MvPolynomial.coeffAddMonoidHom_apply, map_list_sum, List.map_map]
  refine congrArg List.sum (List.map_congr_left fun t _ => ?_)
  rw [Function.comp_apply, MvPolynomial.coeffAddMonoidHom_apply]
  by_cases hbase : t.1.base = base
  · simp [hbase, MvPolynomial.coeff_monomial]
  · simp [hbase]

theorem coefficient_eq_coeff_factorOf {e : Expr} (he : e.Canonical) {m : Monomial}
    (hm : m.Canonical) :
    e.coefficient m = MvPolynomial.coeff m.exponents (e.factorOf m.base) := by
  rw [coefficient_eq_lift he.toOrdered, coeff_factorOf]
  apply lift_congr
  intro t ht
  refine if_congr ⟨fun h => by rw [h]; exact ⟨rfl, rfl⟩, fun h => ?_⟩ rfl rfl
  apply Monomial.Canonical.ext (he.monomials t ht) hm _ h.2
  intro s
  rw [← Monomial.exponents_apply (he.monomials t ht), ← Monomial.exponents_apply hm, h.1]

/-- The value of an expression, ordered by its exponentials. -/
theorem value_eq_sum_factorOf (e : Expr) (n : Nat) (v : Valuation) :
    e.value n v = ∑ b ∈ (e.terms.map (·.1.base)).toFinset,
      MvPolynomial.eval (Symbol.value n v) (e.factorOf b) * b ^ n := by
  have hterm : ∀ (t : Monomial × Rat) (bases : Finset Rat), t.1.base ∈ bases →
      ∑ b ∈ bases, MvPolynomial.eval (Symbol.value n v)
        (if t.1.base = b then MvPolynomial.monomial t.1.exponents t.2 else 0) * b ^ n =
      t.2 * t.1.value n v := by
    intro t bases ht
    rw [Finset.sum_eq_single_of_mem t.1.base ht]
    · rw [if_pos rfl, MvPolynomial.eval_monomial, Monomial.prod_exponents, Monomial.value_eq,
        mul_assoc]
    · intro b _ hb
      rw [if_neg (Ne.symm hb), map_zero, zero_mul]
  have hall : ∀ (ts : List (Monomial × Rat)) (bases : Finset Rat),
      (∀ t ∈ ts, t.1.base ∈ bases) →
      ∑ b ∈ bases, MvPolynomial.eval (Symbol.value n v) ((⟨ts⟩ : Expr).factorOf b) * b ^ n =
        (ts.map fun t => t.2 * t.1.value n v).sum := by
    intro ts bases
    induction ts with
    | nil => simp [factorOf]
    | cons t ts ih =>
      intro hts
      obtain ⟨ht, hts⟩ := List.forall_mem_cons.mp hts
      rw [List.map_cons, List.sum_cons, ← ih hts, ← hterm t bases ht, ← Finset.sum_add_distrib]
      refine Finset.sum_congr rfl fun b _ => ?_
      rw [factorOf, List.map_cons, List.sum_cons, map_add, add_mul]
      rfl
  rw [value_eq_sum]
  exact (hall e.terms _ fun t ht => by simpa using ⟨t.1, ⟨t.2, ht⟩, rfl⟩).symm

/-- The values that an admissible valuation may give to a symbol. -/
def admissibleValues (s : Symbol) : Set Rat :=
  if s.isPositive then Set.Ioi 0 else Set.univ

theorem infinite_admissibleValues (s : Symbol) : (admissibleValues s).Infinite := by
  unfold admissibleValues
  split
  · exact Set.Ioi_infinite 0
  · exact Set.infinite_univ

theorem admissible_of_mem_pi {w : Valuation} (hw : w ∈ Set.pi Set.univ admissibleValues) :
    w.Admissible := by
  intro name
  have hname : w (.positive name) ∈ Set.Ioi 0 := hw (.positive name) (Set.mem_univ _)
  exact hname

/-- An expression that vanishes from some iteration on, for all admissible values of its symbols, is
zero. -/
theorem Canonical.coefficient_eq_zero_of_value {e : Expr} (he : e.Canonical) {N : Nat}
    (h : ∀ n, N ≤ n → ∀ v : Valuation, v.Admissible → e.value n v = 0) (m : Monomial) :
    e.coefficient m = 0 := by
  set bases := (e.terms.map (·.1.base)).toFinset
  have h0 : ∀ b ∈ bases, b ≠ 0 := by
    intro b hb
    obtain ⟨t, ht, rfl⟩ := List.mem_map.mp (List.mem_toFinset.mp hb)
    exact (he.monomials t ht).base_ne_zero
  have hfactor : ∀ b ∈ bases, e.factorOf b = 0 := by
    intro b hb
    apply MvPolynomial.funext_set admissibleValues infinite_admissibleValues
    intro w hadmissible
    -- All symbols but the counter get their values from `w`, so a polynomial in the counter is left.
    set along : Rat → ℚ[X] := fun b =>
      MvPolynomial.aeval (fun s => if s = .counter then X else C (w s)) (e.factorOf b)
    have halong : ∀ (b q : Rat), (along b).eval q =
        MvPolynomial.eval (fun s => if s = .counter then q else w s) (e.factorOf b) := by
      intro b q
      have hhom := MvPolynomial.hom_eval₂ (e.factorOf b) (algebraMap ℚ ℚ[X]) (evalRingHom q)
        fun s => if s = .counter then X else C (w s)
      rw [Subsingleton.elim ((evalRingHom q).comp (algebraMap ℚ ℚ[X])) (RingHom.id ℚ)] at hhom
      refine hhom.trans ?_
      rw [MvPolynomial.eval, MvPolynomial.coe_eval₂Hom]
      congr 1
      funext s
      split <;> simp
    have hzero : along b = 0 := by
      refine eq_zero_of_sum_mul_pow h0 (N := N) (fun n hn => ?_) b hb
      rw [← h n hn w (admissible_of_mem_pi hadmissible), value_eq_sum_factorOf]
      refine Finset.sum_congr rfl fun b _ => ?_
      rw [halong]
      congr 3
      funext s
      cases s <;> simp [Symbol.value]
    have hw : (fun s => if s = Symbol.counter then w .counter else w s) = w := by
      funext s
      split
      · next hs => rw [hs]
      · rfl
    rw [map_zero, ← hw, ← halong, hzero, eval_zero]
  by_cases hm : ∃ t ∈ e.terms, t.1 = m
  · obtain ⟨t, ht, rfl⟩ := hm
    rw [coefficient_eq_coeff_factorOf he (he.monomials t ht), hfactor, MvPolynomial.coeff_zero]
    exact List.mem_toFinset.mpr (List.mem_map_of_mem ht)
  · have hnone : ∀ t ∈ e.terms, t.1 ≠ m := fun t ht heq => hm ⟨t, ht, heq⟩
    rw [coefficient, Assoc.find?_eq_none hnone, Option.getD_none]

/-- Canonical expressions that have the same values from some iteration on, for all admissible values
of their symbols, are equal. -/
theorem Canonical.ext_value {a b : Expr} (ha : a.Canonical) (hb : b.Canonical) {N : Nat}
    (h : ∀ n, N ≤ n → ∀ v : Valuation, v.Admissible → a.value n v = b.value n v) : a = b := by
  apply ha.toOrdered.ext hb.toOrdered
  intro m
  have hzero := (ha.sub hb).coefficient_eq_zero_of_value (N := N)
    (fun n hn v hv => by rw [value_sub, h n hn v hv, sub_self]) m
  rw [coefficient_eq_lift (ha.sub hb).toOrdered, lift_sub, ← coefficient_eq_lift ha.toOrdered,
    ← coefficient_eq_lift hb.toOrdered] at hzero
  exact sub_eq_zero.mp hzero

end Expr

end ProbLoop

end
