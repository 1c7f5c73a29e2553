import ProbLoop.Proofs.Expr.Narrow

/-!
# Polynomials at rational points

In an expression without exponentials every symbol, the counter too, may stand for any rational number.
Such expressions are determined by their values, and remainders of exponents change the values unless no
exponent needs them.
-/

set_option autoImplicit false

namespace ProbLoop

theorem Monomial.exponents_narrow_lt {m : Monomial} (hm : m.Canonical) (s : Symbol) :
    m.narrow.exponents s < 1 <<< 32 := by
  have hsorted : Assoc.Sorted Symbol.cmp m.narrow.powers := List.pairwise_map.mpr hm.sorted
  rw [exponents_apply_of_sorted hsorted, powerOf]
  cases hs : Assoc.find? s m.narrow.powers with
  | none => decide
  | some k =>
    obtain ⟨p, -, heq⟩ := List.mem_map.mp (Assoc.mem_of_find? hs)
    obtain rfl := (Prod.mk.inj heq).2
    exact Nat.mod_lt _ (by decide)

namespace Expr

/-- The value of an expression without exponentials. -/
def valueAt (v : Symbol → Rat) (e : Expr) : Rat :=
  e.lift fun m => Monomial.powerProduct v m.powers

variable {a b e : Expr} (v : Symbol → Rat)

theorem valueAt_eq_eval (e : Expr) : e.valueAt v = MvPolynomial.eval v e.toPolynomial :=
  (eval_toPolynomial_eq_lift v e).symm

theorem valueAt_term (m : Monomial) (c : Rat) :
    (term m c).valueAt v = c * Monomial.powerProduct v m.powers := lift_term _ m c

theorem valueAt_const (q : Rat) : (const q).valueAt v = q :=
  (valueAt_term v Monomial.one q).trans (mul_one q)

theorem valueAt_power (s : Symbol) (k : Nat) :
    (term (Monomial.ofSymbol s k) 1).valueAt v = v s ^ k := by
  rw [valueAt_term, one_mul, Monomial.ofSymbol]
  split
  · next hk => rw [hk, pow_zero]; rfl
  · exact mul_one _

theorem valueAt_ofSymbol (s : Symbol) : (ofSymbol s).valueAt v = v s :=
  (valueAt_power v s 1).trans (pow_one _)

theorem valueAt_add (a b : Expr) : (a + b).valueAt v = a.valueAt v + b.valueAt v := lift_add _ a b

theorem valueAt_neg (a : Expr) : (-a).valueAt v = -a.valueAt v := lift_neg _ a

theorem valueAt_sub (a b : Expr) : (a - b).valueAt v = a.valueAt v - b.valueAt v := lift_sub _ a b

theorem valueAt_scale (a : Expr) (q : Rat) : (a.scale q).valueAt v = a.valueAt v * q :=
  lift_scale _ a q

theorem valueAt_mul (a b : Expr) : (a * b).valueAt v = a.valueAt v * b.valueAt v :=
  lift_mul_of_multiplicative (Monomial.powerProduct_mul v) a b

theorem valueAt_pow (e : Expr) (k : Nat) : (e.pow k).valueAt v = e.valueAt v ^ k :=
  lift_pow_of_multiplicative (Monomial.powerProduct_mul v) rfl e k

/-- An expression without exponentials. -/
structure IsPolynomial (e : Expr) : Prop extends Canonical e where
  base_eq_one : e.All (·.base = 1)

theorem isPolynomial_const (q : Rat) : (const q).IsPolynomial :=
  ⟨canonical_const q, all_const rfl⟩

theorem isPolynomial_power (s : Symbol) (k : Nat) : (term (Monomial.ofSymbol s k) 1).IsPolynomial :=
  ⟨canonical_term (Monomial.canonical_ofSymbol s k) 1, all_term rfl⟩

theorem isPolynomial_ofSymbol (s : Symbol) : (ofSymbol s).IsPolynomial := isPolynomial_power s 1

theorem IsPolynomial.add (ha : a.IsPolynomial) (hb : b.IsPolynomial) : (a + b).IsPolynomial :=
  ⟨ha.toCanonical.add hb.toCanonical, all_add ha.base_eq_one hb.base_eq_one⟩

theorem IsPolynomial.neg (ha : a.IsPolynomial) : (-a).IsPolynomial :=
  ⟨ha.toCanonical.neg, all_neg ha.base_eq_one⟩

theorem IsPolynomial.scale (ha : a.IsPolynomial) (q : Rat) : (a.scale q).IsPolynomial :=
  ⟨ha.toCanonical.scale q, all_scale ha.base_eq_one⟩

theorem all_base_mul (ha : a.All (·.base = 1)) (hb : b.All (·.base = 1)) :
    (a * b).All (·.base = 1) :=
  all_mul (fun _ _ hm hk => (congrArg₂ (· * ·) hm hk).trans (one_mul 1)) ha hb

theorem IsPolynomial.mul (ha : a.IsPolynomial) (hb : b.IsPolynomial) : (a * b).IsPolynomial :=
  ⟨ha.toCanonical.mul hb.toCanonical, all_base_mul ha.base_eq_one hb.base_eq_one⟩

/-- Exponentials do not come from remainders. -/
theorem all_base_narrow (h : e.All (·.base = 1)) : e.narrow.All (·.base = 1) := by
  refine all_ofTerms fun t ht => ?_
  obtain ⟨u, hu, rfl⟩ := List.mem_map.mp ht
  exact h u hu

theorem toPolynomial_eq_of_valueAt_eq (h : ∀ v, a.valueAt v = b.valueAt v) :
    a.toPolynomial = b.toPolynomial :=
  MvPolynomial.funext fun v => by rw [← valueAt_eq_eval, ← valueAt_eq_eval, h]

/-- Polynomials with the same values are equal. -/
theorem IsPolynomial.ext (ha : a.IsPolynomial) (hb : b.IsPolynomial)
    (h : ∀ v, a.valueAt v = b.valueAt v) : a = b := by
  have hp := toPolynomial_eq_of_valueAt_eq h
  apply ha.toOrdered.ext hb.toOrdered
  intro m
  by_cases hm : m.Canonical ∧ m.base = 1
  · rw [coefficient_eq_coeff ha.toCanonical ha.base_eq_one hm.1 hm.2,
      coefficient_eq_coeff hb.toCanonical hb.base_eq_one hm.1 hm.2, hp]
  · have hca : a.All fun m => m.Canonical ∧ m.base = 1 :=
      fun t ht => ⟨ha.monomials t ht, ha.base_eq_one t ht⟩
    have hcb : b.All fun m => m.Canonical ∧ m.base = 1 :=
      fun t ht => ⟨hb.monomials t ht, hb.base_eq_one t ht⟩
    rw [coefficient_eq_zero hca hm, coefficient_eq_zero hcb hm]

/-- If remainders of exponents leave the values as they are, no exponent is larger than its remainder:
a monomial with a larger one would be missing. -/
theorem IsPolynomial.lt_of_valueAt_narrow (he : e.IsPolynomial)
    (h : ∀ v, e.narrow.valueAt v = e.valueAt v) : ∀ t ∈ e.terms, ∀ p ∈ t.1.powers, p.2 < 1 <<< 32 := by
  rintro ⟨m, c⟩ ht ⟨s, k⟩ hp
  by_contra hk
  have hm := he.monomials _ ht
  have hpower : m.exponents s = k := by
    rw [Monomial.exponents_apply hm, ((Monomial.mem_powers_iff hm s k).mp hp).1]
  have hmissing : ∀ u ∈ e.terms, u.1.narrow.exponents ≠ m.exponents := by
    intro u hu heq
    have hlt := Monomial.exponents_narrow_lt (he.monomials u hu) s
    rw [heq, hpower] at hlt
    exact hk hlt
  have hcoefficient : c = 0 := by
    rw [← ((mem_terms_iff he.toOrdered m c).mp ht).1,
      coefficient_eq_coeff he.toCanonical he.base_eq_one hm (he.base_eq_one _ ht),
      ← toPolynomial_eq_of_valueAt_eq h, coeff_toPolynomial, lift_narrow]
    calc (e.lift fun k => if k.narrow.exponents = m.exponents then 1 else 0)
        = e.lift fun _ => 0 := lift_congr fun u hu => if_neg (hmissing u hu)
      _ = 0 := by simp [lift_eq_sum]
  exact he.coefficient_ne_zero _ ht hcoefficient

end Expr

end ProbLoop
