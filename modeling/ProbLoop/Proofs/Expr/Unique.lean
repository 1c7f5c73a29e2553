import Mathlib.Algebra.CharZero.Infinite
import Mathlib.Algebra.MvPolynomial.Funext
import ProbLoop.Proofs.Expr.Value

/-!
# Expressions are determined by their values

Canonical expressions that do not depend on the counter stand for polynomials over the symbols. Two
of them with the same value for all values of the symbols are equal.
-/

set_option autoImplicit false

namespace ProbLoop

namespace Monomial

/-- Holds of a monomial that has the same value in all iterations. -/
def IsStill (m : Monomial) : Prop :=
  m.base = 1 ∧ m.mentions .counter = false

/-- The exponents of the symbols. -/
noncomputable def exponents (m : Monomial) : Symbol →₀ Nat :=
  (m.powers.map fun p => Finsupp.single p.1 p.2).sum

theorem isStill_without (m : Monomial) : ((m.without .counter).withBase 1).IsStill := by
  refine ⟨rfl, List.any_eq_false.mpr fun p hp => ?_⟩
  simpa using (List.mem_filter.mp hp).2

theorem isStill_one : one.IsStill := ⟨rfl, rfl⟩

theorem isStill_ofSymbol {s : Symbol} (hs : s ≠ .counter) (k : Nat) : (ofSymbol s k).IsStill := by
  refine ⟨rfl, List.any_eq_false.mpr fun p hp => ?_⟩
  unfold ofSymbol at hp
  split at hp
  · simp at hp
  · obtain rfl := List.mem_singleton.mp hp
    simpa using hs

theorem IsStill.mul {a b : Monomial} (ha : a.IsStill) (hb : b.IsStill) : (a * b).IsStill := by
  constructor
  · change a.base * b.base = 1
    rw [ha.1, hb.1, one_mul]
  · have hcounter : ∀ m : Monomial, m.mentions .counter = false →
        ∀ p ∈ m.powers, p.1 ≠ .counter := by
      intro m hm p hp
      simpa using List.any_eq_false.mp hm p hp
    apply List.any_eq_false.mpr
    intro p hp
    have hne := Assoc.forall_merge (Q := fun p : Symbol × Nat => p.1 ≠ .counter)
      (fun _ _ _ _ h _ _ => h) (hcounter a ha.2) (hcounter b hb.2) p hp
    simpa using hne

theorem exponents_apply_of_sorted {m : Monomial} (hs : Assoc.Sorted Symbol.cmp m.powers)
    (s : Symbol) : m.exponents s = m.powerOf s := by
  obtain ⟨powers, base⟩ := m
  unfold exponents powerOf
  simp only at hs ⊢
  induction powers with
  | nil => rfl
  | cons p l ih =>
    obtain ⟨t, k⟩ := p
    rw [List.map_cons, List.sum_cons, Finsupp.add_apply, ih (List.pairwise_cons.mp hs).2,
      Assoc.find?]
    by_cases ht : t = s
    · subst ht
      rw [Assoc.find?_eq_none hs.ne_of_mem, Finsupp.single_eq_same, if_pos rfl]
      rfl
    · rw [Finsupp.single_eq_of_ne (fun h => ht h.symm), if_neg ht, zero_add]

theorem exponents_apply {m : Monomial} (hm : m.Canonical) (s : Symbol) :
    m.exponents s = m.powerOf s :=
  exponents_apply_of_sorted hm.sorted s

theorem mem_powers_iff {m : Monomial} (hm : m.Canonical) (s : Symbol) (k : Nat) :
    (s, k) ∈ m.powers ↔ m.powerOf s = k ∧ 0 < k := by
  rw [← Assoc.find?_eq_some hm.sorted, powerOf]
  constructor
  · intro h
    exact ⟨by rw [h]; rfl, hm.powers_pos _ (Assoc.mem_of_find? h)⟩
  · rintro ⟨h, hk⟩
    cases hf : Assoc.find? s m.powers with
    | none => rw [hf, Option.getD_none] at h; omega
    | some j => rw [hf, Option.getD_some] at h; rw [h]

theorem Canonical.ext {a b : Monomial} (ha : a.Canonical) (hb : b.Canonical)
    (hp : ∀ s, a.powerOf s = b.powerOf s) (hbase : a.base = b.base) : a = b := by
  have hpowers : a.powers = b.powers := by
    apply Assoc.Sorted.ext ha.sorted hb.sorted
    rintro ⟨s, k⟩
    rw [mem_powers_iff ha, mem_powers_iff hb, hp s]
  cases a
  cases b
  simp_all

theorem prod_exponents (v : Valuation) (m : Monomial) :
    m.exponents.prod (fun s k => v s ^ k) = powerProduct v m.powers := by
  unfold exponents
  induction m.powers with
  | nil => rfl
  | cons p l ih =>
    have hp : (Finsupp.single p.1 p.2).prod (fun s k => v s ^ k) = v p.1 ^ p.2 :=
      Finsupp.prod_single_index (pow_zero _)
    rw [List.map_cons, List.sum_cons, Finsupp.prod_add_index' (fun s => pow_zero (v s))
      (fun s i j => pow_add (v s) i j), ih, hp, powerProduct_cons]

theorem value_of_isStill (n : Nat) (v : Valuation) {m : Monomial} (h : m.IsStill) :
    m.value n v = powerProduct v m.powers := by
  rw [value_eq, h.1, one_pow, mul_one]
  apply powerProduct_congr
  intro p hp
  have hs : p.1 ≠ .counter := by simpa using List.any_eq_false.mp h.2 p hp
  cases hp' : p.1 <;> simp_all [Symbol.value]

end Monomial

namespace Expr

theorem coefficient_eq_lift {e : Expr} (he : e.Ordered) (m : Monomial) :
    e.coefficient m = e.lift fun k => if k = m then 1 else 0 := by
  obtain ⟨ts⟩ := e
  have hs := he.sorted
  clear he
  unfold coefficient
  simp only at hs ⊢
  induction ts with
  | nil => rfl
  | cons t ts ih =>
    obtain ⟨k, c⟩ := t
    rw [lift_cons, ← ih (List.pairwise_cons.mp hs).2, Assoc.find?]
    by_cases hk : k = m
    · subst hk
      rw [Assoc.find?_eq_none hs.ne_of_mem]
      simp
    · simp [hk]

/-- One term splits off from the others. -/
theorem lift_filter_ne {e : Expr} (he : e.Ordered) (φ : Monomial → Rat) (m : Monomial) :
    e.lift φ = e.coefficient m * φ m + (⟨e.terms.filter (·.1 != m)⟩ : Expr).lift φ := by
  rw [coefficient_eq_lift he]
  clear he
  obtain ⟨ts⟩ := e
  simp only
  induction ts with
  | nil => simp [lift]
  | cons t ts ih =>
    by_cases ht : t.1 = m
    · rw [List.filter_cons_of_neg (by simp [ht]), lift_cons, lift_cons, ih, if_pos ht, ht]
      ring
    · rw [List.filter_cons_of_pos (by simpa using ht), lift_cons, lift_cons, ih, lift_cons,
        if_neg ht]
      ring

theorem mem_terms_iff {e : Expr} (he : e.Ordered) (m : Monomial) (c : Rat) :
    (m, c) ∈ e.terms ↔ e.coefficient m = c ∧ c ≠ 0 := by
  rw [← Assoc.find?_eq_some he.sorted, coefficient]
  constructor
  · intro h
    exact ⟨by rw [h]; rfl, he.coefficient_ne_zero _ (Assoc.mem_of_find? h)⟩
  · rintro ⟨h, hc⟩
    cases hf : Assoc.find? m e.terms with
    | none => rw [hf, Option.getD_none] at h; exact absurd h.symm hc
    | some d => rw [hf, Option.getD_some] at h; rw [h]

/-- Ordered expressions with the same coefficients are equal. -/
theorem Ordered.ext {a b : Expr} (ha : a.Ordered) (hb : b.Ordered)
    (h : ∀ m, a.coefficient m = b.coefficient m) : a = b := by
  have hterms : a.terms = b.terms := by
    apply Assoc.Sorted.ext ha.sorted hb.sorted
    rintro ⟨m, c⟩
    rw [mem_terms_iff ha, mem_terms_iff hb, h m]
  cases a
  cases b
  simp_all

theorem Ordered.ext_lift {a b : Expr} (ha : a.Ordered) (hb : b.Ordered)
    (h : ∀ φ : Monomial → Rat, a.lift φ = b.lift φ) : a = b :=
  ha.ext hb fun m => by rw [coefficient_eq_lift ha, coefficient_eq_lift hb, h]

/-- The polynomial over the symbols for which an expression stands. -/
noncomputable def toPolynomial (e : Expr) : MvPolynomial Symbol Rat :=
  (e.terms.map fun t => MvPolynomial.monomial t.1.exponents t.2).sum

theorem eval_toPolynomial_eq_lift (v : Valuation) (e : Expr) :
    MvPolynomial.eval v e.toPolynomial = e.lift fun m => Monomial.powerProduct v m.powers := by
  rw [toPolynomial, map_list_sum, List.map_map, lift_eq_sum]
  refine congrArg List.sum (List.map_congr_left fun t _ => ?_)
  rw [Function.comp_apply, MvPolynomial.eval_monomial, Monomial.prod_exponents]

theorem eval_toPolynomial {e : Expr} (he : e.All Monomial.IsStill) (n : Nat) (v : Valuation) :
    MvPolynomial.eval v e.toPolynomial = e.value n v := by
  rw [eval_toPolynomial_eq_lift, value_eq_lift]
  exact lift_congr fun t ht => (Monomial.value_of_isStill n v (he t ht)).symm

theorem coeff_toPolynomial (d : Symbol →₀ Nat) (e : Expr) :
    MvPolynomial.coeff d e.toPolynomial = e.lift fun m => if m.exponents = d then 1 else 0 := by
  classical
  rw [lift_eq_sum, toPolynomial, ← MvPolynomial.coeffAddMonoidHom_apply, map_list_sum, List.map_map]
  refine congrArg List.sum (List.map_congr_left fun t _ => ?_)
  rw [Function.comp_apply, MvPolynomial.coeffAddMonoidHom_apply, MvPolynomial.coeff_monomial]
  simp

theorem coefficient_eq_coeff {e : Expr} (he : e.Canonical) (hb : e.All (·.base = 1))
    {m : Monomial} (hm : m.Canonical) (hmb : m.base = 1) :
    e.coefficient m = MvPolynomial.coeff m.exponents e.toPolynomial := by
  rw [coefficient_eq_lift he.toOrdered, coeff_toPolynomial]
  apply lift_congr
  intro t ht
  refine if_congr ⟨fun h => by rw [h], fun h => ?_⟩ rfl rfl
  apply Monomial.Canonical.ext (he.monomials t ht) hm
  · intro s
    rw [← Monomial.exponents_apply (he.monomials t ht), ← Monomial.exponents_apply hm, h]
  · rw [hb t ht, hmb]

theorem coefficient_eq_zero {P : Monomial → Prop} {e : Expr} (he : e.All P) {m : Monomial}
    (hm : ¬P m) : e.coefficient m = 0 := by
  have hne : ∀ t ∈ e.terms, t.1 ≠ m := by
    rintro t ht rfl
    exact hm (he t ht)
  rw [coefficient, Assoc.find?_eq_none hne, Option.getD_none]

/-- A canonical expression that has the same value in all iterations. -/
structure Still (e : Expr) : Prop extends Canonical e where
  still : e.All Monomial.IsStill

/-- Expressions that do not depend on the counter are equal if they have the same values. -/
theorem Still.ext {a b : Expr} (ha : a.Still) (hb : b.Still)
    (h : ∀ v, a.value 0 v = b.value 0 v) : a = b := by
  have hp : a.toPolynomial = b.toPolynomial := by
    apply MvPolynomial.funext
    intro v
    rw [eval_toPolynomial ha.still 0, eval_toPolynomial hb.still 0, h]
  apply ha.toOrdered.ext hb.toOrdered
  intro m
  by_cases hm : m.Canonical ∧ m.IsStill
  · rw [coefficient_eq_coeff ha.toCanonical (ha.still.mono fun _ h => h.1) hm.1 hm.2.1,
      coefficient_eq_coeff hb.toCanonical (hb.still.mono fun _ h => h.1) hm.1 hm.2.1, hp]
  · have hca : a.All fun m => m.Canonical ∧ m.IsStill :=
      fun t ht => ⟨ha.monomials t ht, ha.still t ht⟩
    have hcb : b.All fun m => m.Canonical ∧ m.IsStill :=
      fun t ht => ⟨hb.monomials t ht, hb.still t ht⟩
    rw [coefficient_eq_zero hca hm, coefficient_eq_zero hcb hm]

theorem Still.value_eq {e : Expr} (he : e.Still) (n k : Nat) (v : Valuation) :
    e.value n v = e.value k v := by
  rw [← eval_toPolynomial he.still n, eval_toPolynomial he.still k]

theorem still_const (q : Rat) : (const q).Still :=
  ⟨canonical_const q, all_const Monomial.isStill_one⟩

theorem still_one : one.Still := still_const 1

theorem still_zero : zero.Still := ⟨canonical_zero, all_zero⟩

theorem still_ofSymbol {s : Symbol} (hs : s ≠ .counter) : (ofSymbol s).Still :=
  ⟨canonical_ofSymbol s, all_ofSymbol (Monomial.isStill_ofSymbol hs 1)⟩

theorem Still.add {a b : Expr} (ha : a.Still) (hb : b.Still) : (a + b).Still :=
  ⟨ha.toCanonical.add hb.toCanonical, all_add ha.still hb.still⟩

theorem Still.sub {a b : Expr} (ha : a.Still) (hb : b.Still) : (a - b).Still :=
  ⟨ha.toCanonical.sub hb.toCanonical, all_sub ha.still hb.still⟩

theorem Still.scale {a : Expr} (ha : a.Still) (q : Rat) : (a.scale q).Still :=
  ⟨ha.toCanonical.scale q, all_scale ha.still⟩

theorem still_sum {es : List Expr} (h : ∀ e ∈ es, e.Still) : (sum es).Still :=
  ⟨canonical_sum fun e he => (h e he).toCanonical, all_sum fun e he => (h e he).still⟩

theorem Still.mul {a b : Expr} (ha : a.Still) (hb : b.Still) : (a * b).Still :=
  ⟨ha.toCanonical.mul hb.toCanonical,
    all_mul (fun _ _ hm hk => Monomial.IsStill.mul hm hk) ha.still hb.still⟩

theorem Still.pow {e : Expr} (he : e.Still) (k : Nat) : (e.pow k).Still :=
  ⟨he.toCanonical.pow k, all_pow_const (fun _ _ hm hk => Monomial.IsStill.mul hm hk)
    Monomial.isStill_one he.still k⟩

theorem Canonical.still_atIteration {e : Expr} (he : e.Canonical) (k : Nat) :
    (e.atIteration k).Still := by
  refine ⟨he.atIteration k, all_ofTerms fun t ht => ?_⟩
  obtain ⟨u, -, rfl⟩ := List.mem_map.mp ht
  exact Monomial.isStill_without u.1

end Expr

end ProbLoop
