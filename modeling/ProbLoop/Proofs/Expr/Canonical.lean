import ProbLoop.Proofs.Expr.Support
import ProbLoop.Recurrence

/-!
# Canonical expressions

The operations keep the terms of an expression sorted and free of zero coefficients, its monomials
sorted and free of zero exponents, and its exponential bases different from zero.
-/

set_option autoImplicit false

namespace ProbLoop

/-- The symbols of a monomial are sorted, and no exponent and no base is zero. -/
structure Monomial.Canonical (m : Monomial) : Prop where
  sorted : Assoc.Sorted Symbol.cmp m.powers
  powers_pos : ∀ p ∈ m.powers, 0 < p.2
  base_ne_zero : m.base ≠ 0

namespace Monomial

theorem canonical_one : one.Canonical :=
  ⟨List.Pairwise.nil, by simp [one], one_ne_zero⟩

theorem canonical_ofSymbol (s : Symbol) (k : Nat) : (ofSymbol s k).Canonical := by
  unfold ofSymbol
  split
  · exact canonical_one
  · exact ⟨List.pairwise_singleton _ _, by simp; omega, one_ne_zero⟩

theorem canonical_exponential {base : Rat} (h : base ≠ 0) : (exponential base).Canonical :=
  ⟨List.Pairwise.nil, by simp [exponential], h⟩

theorem Canonical.mul {a b : Monomial} (ha : a.Canonical) (hb : b.Canonical) :
    (a * b).Canonical where
  sorted := Assoc.sorted_merge _ ha.sorted hb.sorted
  powers_pos := by
    refine Assoc.forall_merge ?_ ha.powers_pos hb.powers_pos
    intro s j k l hj hk hl
    have hl := Option.some.inj hl
    simp only at hj hk ⊢
    omega
  base_ne_zero := mul_ne_zero ha.base_ne_zero hb.base_ne_zero

theorem Canonical.filter {m : Monomial} (h : m.Canonical) (keep : Symbol × Nat → Bool) {q : Rat}
    (hq : q ≠ 0) : (⟨m.powers.filter keep, q⟩ : Monomial).Canonical :=
  ⟨h.sorted.filter _, fun p hp => h.powers_pos p ((List.mem_filter.mp hp).1), hq⟩

theorem Canonical.without {m : Monomial} (h : m.Canonical) (s : Symbol) :
    (m.without s).Canonical :=
  h.filter _ h.base_ne_zero

theorem Canonical.withBase {m : Monomial} (h : m.Canonical) {q : Rat} (hq : q ≠ 0) :
    (m.withBase q).Canonical :=
  ⟨h.sorted, h.powers_pos, hq⟩

theorem Canonical.root {m : Monomial} (hm : m.Canonical) {d : Nat} (h : ∀ p ∈ m.powers, d ∣ p.2) :
    (m.root d).Canonical where
  sorted := List.pairwise_map.mpr hm.sorted
  powers_pos := by
    intro p hp
    obtain ⟨q, hq, rfl⟩ := List.mem_map.mp hp
    have hpos := hm.powers_pos q hq
    exact Nat.div_pos (Nat.le_of_dvd hpos (h q hq)) (Nat.pos_of_dvd_of_pos (h q hq) hpos)
  base_ne_zero := hm.base_ne_zero

end Monomial

namespace Expr

/-- The terms are sorted by their monomials, and no coefficient is zero. -/
structure Ordered (e : Expr) : Prop where
  sorted : Assoc.Sorted Monomial.cmp e.terms
  coefficient_ne_zero : ∀ t ∈ e.terms, t.2 ≠ 0

/-- The form in which every operation leaves an expression. -/
structure Canonical (e : Expr) : Prop extends Ordered e where
  monomials : e.All Monomial.Canonical

theorem nonzero?_ne_zero {q r : Rat} (h : nonzero? q = some r) : r ≠ 0 := by
  unfold nonzero? at h
  split at h
  · simp at h
  · next hq => exact Option.some.inj h ▸ hq

theorem ordered_zero : zero.Ordered :=
  ⟨List.Pairwise.nil, by simp [zero]⟩

theorem ordered_term (m : Monomial) (c : Rat) : (term m c).Ordered :=
  ⟨Assoc.sorted_consSome (by simp) List.Pairwise.nil,
    Assoc.forall_consSome (fun _ => nonzero?_ne_zero) (by simp)⟩

theorem ordered_exponential (base : Rat) : (exponential base).Ordered := by
  unfold exponential
  split
  · exact ordered_zero
  · exact ordered_term _ _

theorem Ordered.insertTerm {ts : List (Monomial × Rat)} (h : (⟨ts⟩ : Expr).Ordered) (m : Monomial)
    (c : Rat) : (⟨insertTerm m c ts⟩ : Expr).Ordered :=
  ⟨Assoc.sorted_alter _ _ h.sorted,
    Assoc.forall_alter (fun _ _ _ hv => nonzero?_ne_zero hv) h.coefficient_ne_zero⟩

theorem ordered_ofTerms (ts : List (Monomial × Rat)) : (ofTerms ts).Ordered := by
  induction ts with
  | nil => exact ordered_zero
  | cons t ts ih => exact ih.insertTerm t.1 t.2

theorem Ordered.add {a b : Expr} (ha : a.Ordered) (hb : b.Ordered) : (a + b).Ordered :=
  ⟨Assoc.sorted_merge _ ha.sorted hb.sorted,
    Assoc.forall_merge (fun _ _ _ _ _ _ hc => nonzero?_ne_zero hc) ha.coefficient_ne_zero
      hb.coefficient_ne_zero⟩

theorem Ordered.neg {a : Expr} (ha : a.Ordered) : (-a).Ordered := by
  refine ⟨List.pairwise_map.mpr ha.sorted, fun t ht => ?_⟩
  obtain ⟨u, hu, rfl⟩ := List.mem_map.mp ht
  exact neg_ne_zero.mpr (ha.coefficient_ne_zero u hu)

theorem Ordered.scale {a : Expr} (ha : a.Ordered) (q : Rat) : (a.scale q).Ordered := by
  unfold Expr.scale
  split
  · exact ordered_zero
  · next hq =>
    refine ⟨List.pairwise_map.mpr ha.sorted, fun t ht => ?_⟩
    obtain ⟨u, hu, rfl⟩ := List.mem_map.mp ht
    exact mul_ne_zero (ha.coefficient_ne_zero u hu) hq

theorem ordered_sum {es : List Expr} (h : ∀ e ∈ es, e.Ordered) : (sum es).Ordered := by
  induction es with
  | nil => exact ordered_zero
  | cons e es ih =>
    have he := List.forall_mem_cons.mp h
    exact he.1.add (ih he.2)

theorem ordered_mul (a b : Expr) : (a * b).Ordered := by
  refine ordered_sum fun e he => ?_
  obtain ⟨t, -, rfl⟩ := List.mem_map.mp he
  exact ordered_ofTerms _

theorem ordered_pow (e : Expr) (he : e.Ordered) (k : Nat) : (e.pow k).Ordered :=
  powerInto_induction (· * ·) (fun _ (x : Expr) => x.Ordered) (fun _ _ x y _ _ => ordered_mul x y) k
    (i := 0) (j := 0) (show one.Ordered from ordered_term _ _) he

theorem canonical_zero : zero.Canonical := ⟨ordered_zero, all_zero⟩

theorem canonical_term {m : Monomial} (h : m.Canonical) (c : Rat) : (term m c).Canonical :=
  ⟨ordered_term m c, all_term h⟩

theorem canonical_const (q : Rat) : (const q).Canonical :=
  canonical_term Monomial.canonical_one q

theorem canonical_one : one.Canonical := canonical_const 1

theorem canonical_ofSymbol (s : Symbol) : (ofSymbol s).Canonical :=
  canonical_term (Monomial.canonical_ofSymbol s 1) 1

theorem canonical_exponential (base : Rat) : (exponential base).Canonical :=
  ⟨ordered_exponential base, all_exponential Monomial.canonical_exponential⟩

theorem Canonical.add {a b : Expr} (ha : a.Canonical) (hb : b.Canonical) : (a + b).Canonical :=
  ⟨ha.toOrdered.add hb.toOrdered, all_add ha.monomials hb.monomials⟩

theorem Canonical.neg {a : Expr} (ha : a.Canonical) : (-a).Canonical :=
  ⟨ha.toOrdered.neg, all_neg ha.monomials⟩

theorem Canonical.sub {a b : Expr} (ha : a.Canonical) (hb : b.Canonical) : (a - b).Canonical :=
  ha.add hb.neg

theorem Canonical.scale {a : Expr} (ha : a.Canonical) (q : Rat) : (a.scale q).Canonical :=
  ⟨ha.toOrdered.scale q, all_scale ha.monomials⟩

theorem Canonical.filter {e : Expr} (he : e.Canonical) (keep : Monomial × Rat → Bool) :
    (⟨e.terms.filter keep⟩ : Expr).Canonical :=
  ⟨⟨he.sorted.filter _, fun t ht => he.coefficient_ne_zero t (List.mem_filter.mp ht).1⟩,
    fun t ht => he.monomials t (List.mem_filter.mp ht).1⟩

theorem canonical_sum {es : List Expr} (h : ∀ e ∈ es, e.Canonical) : (sum es).Canonical :=
  ⟨ordered_sum fun e he => (h e he).toOrdered, all_sum fun e he => (h e he).monomials⟩

theorem canonical_ofTerms {ts : List (Monomial × Rat)} (h : ∀ t ∈ ts, t.1.Canonical) :
    (ofTerms ts).Canonical :=
  ⟨ordered_ofTerms ts, all_ofTerms h⟩

theorem Canonical.mul {a b : Expr} (ha : a.Canonical) (hb : b.Canonical) : (a * b).Canonical :=
  ⟨ordered_mul a b, all_mul (fun _ _ hm hk => hm.mul hk) ha.monomials hb.monomials⟩

theorem Canonical.pow {e : Expr} (he : e.Canonical) (k : Nat) : (e.pow k).Canonical :=
  ⟨ordered_pow e he.toOrdered k,
    all_pow_const (fun _ _ hm hk => hm.mul hk) Monomial.canonical_one he.monomials k⟩

theorem Canonical.atIteration {e : Expr} (he : e.Canonical) (k : Nat) :
    (e.atIteration k).Canonical := by
  refine canonical_ofTerms fun t ht => ?_
  obtain ⟨u, hu, rfl⟩ := List.mem_map.mp ht
  exact ((he.monomials u hu).without _).withBase one_ne_zero

theorem Canonical.shift {e : Expr} (he : e.Canonical) (k : Int) : (e.shift k).Canonical := by
  unfold Expr.shift
  split
  · exact he
  · refine canonical_sum fun x hx => ?_
    obtain ⟨t, ht, rfl⟩ := List.mem_map.mp hx
    have hm := ((he.monomials t ht).without .counter).withBase one_ne_zero
    exact ((canonical_term hm _).mul (canonical_exponential _)).mul
      (((canonical_ofSymbol _).add (canonical_const _)).pow _)

end Expr

namespace Recurrence

theorem canonical_polynomial (coefficients : List Rat) : (polynomial coefficients).Canonical := by
  refine Expr.canonical_sum fun e he => ?_
  obtain ⟨p, -, rfl⟩ := List.mem_map.mp he
  exact Expr.canonical_term (Monomial.canonical_ofSymbol _ _) _

theorem canonical_solve (c : Rat) {h start : Expr} (hh : h.Canonical) (hs : start.Canonical) :
    (solve c h start).Canonical := by
  unfold solve
  split
  · exact hh
  · refine ((Expr.canonical_exponential c).mul hs).add (Expr.canonical_sum fun e he => ?_)
    obtain ⟨t, ht, rfl⟩ := List.mem_map.mp he
    have hm := ((hh.monomials t ht).without .counter).withBase one_ne_zero
    exact (Expr.canonical_term hm _).mul
      (((Expr.canonical_exponential _).mul (canonical_polynomial _)).sub
        ((Expr.canonical_exponential _).scale _))

end Recurrence

end ProbLoop
