import ProbLoop.Proofs.Asymptotics.SignSplit
import ProbLoop.Proofs.Expr.Built

/-!
# The symbols of expressions

What an expression is made from bounds the symbols that it mentions. A property of symbols that the counter
has is kept by solving recurrences, by moving along the iterations, by substitution and by grouping, and by
everything that limits and bounds are read from.
-/

set_option autoImplicit false

namespace ProbLoop

variable {P Q : Symbol → Prop}

/-- Every symbol of the monomial has the property. -/
def Monomial.Uses (P : Symbol → Prop) (m : Monomial) : Prop :=
  ∀ q ∈ m.powers, P q.1

namespace Monomial

theorem uses_one : one.Uses P := fun _ hq => absurd hq List.not_mem_nil

theorem uses_exponential (base : Rat) : (exponential base).Uses P :=
  fun _ hq => absurd hq List.not_mem_nil

theorem uses_ofSymbol {s : Symbol} (hs : P s) (k : Nat) : (ofSymbol s k).Uses P := by
  intro q hq
  unfold ofSymbol at hq
  split at hq
  · exact absurd hq List.not_mem_nil
  · rwa [List.mem_singleton.mp hq]

theorem Uses.mul {a b : Monomial} (ha : a.Uses P) (hb : b.Uses P) : (a * b).Uses P :=
  Assoc.forall_merge (fun _ _ _ _ h _ _ => h) ha hb

theorem Uses.filter {m : Monomial} (h : m.Uses P) (keep : Symbol × Nat → Bool) (base : Rat) :
    (⟨m.powers.filter keep, base⟩ : Monomial).Uses P :=
  fun q hq => h q (List.mem_filter.mp hq).1

end Monomial

namespace Expr

/-- A canonical expression in which every symbol has the property. -/
structure Uses (P : Symbol → Prop) (e : Expr) : Prop extends Canonical e where
  symbols : e.All (Monomial.Uses P)

variable {a b e value : Expr}

theorem Uses.mono (h : e.Uses P) (hPQ : ∀ s, P s → Q s) : e.Uses Q :=
  ⟨h.toCanonical, h.symbols.mono fun _ hm q hq => hPQ _ (hm q hq)⟩

theorem Uses.of_mem_freeSymbols (he : e.Canonical) (h : ∀ s ∈ e.freeSymbols, P s) : e.Uses P :=
  ⟨he, fun _ ht q hq => h q.1 (mem_freeSymbols ht hq)⟩

theorem Canonical.uses (he : e.Canonical) : e.Uses fun _ => True :=
  .of_mem_freeSymbols he fun _ _ => trivial

theorem uses_zero : zero.Uses P := ⟨canonical_zero, all_zero⟩

theorem uses_term {m : Monomial} (hm : m.Canonical) (h : m.Uses P) (c : Rat) : (term m c).Uses P :=
  ⟨canonical_term hm c, all_term h⟩

theorem uses_const (q : Rat) : (const q).Uses P :=
  uses_term Monomial.canonical_one Monomial.uses_one q

theorem uses_ofSymbol {s : Symbol} (hs : P s) : (ofSymbol s).Uses P :=
  uses_term (Monomial.canonical_ofSymbol s 1) (Monomial.uses_ofSymbol hs 1) 1

theorem uses_exponential (base : Rat) : (exponential base).Uses P :=
  ⟨canonical_exponential base, all_exponential fun _ => Monomial.uses_exponential base⟩

theorem Uses.add (ha : a.Uses P) (hb : b.Uses P) : (a + b).Uses P :=
  ⟨ha.toCanonical.add hb.toCanonical, all_add ha.symbols hb.symbols⟩

theorem Uses.neg (ha : a.Uses P) : (-a).Uses P :=
  ⟨ha.toCanonical.neg, all_neg ha.symbols⟩

theorem Uses.sub (ha : a.Uses P) (hb : b.Uses P) : (a - b).Uses P :=
  ha.add hb.neg

theorem Uses.scale (ha : a.Uses P) (q : Rat) : (a.scale q).Uses P :=
  ⟨ha.toCanonical.scale q, all_scale ha.symbols⟩

theorem Uses.mul (ha : a.Uses P) (hb : b.Uses P) : (a * b).Uses P :=
  ⟨ha.toCanonical.mul hb.toCanonical, all_mul (fun _ _ hm hk => hm.mul hk) ha.symbols hb.symbols⟩

theorem Uses.pow (he : e.Uses P) (k : Nat) : (e.pow k).Uses P :=
  ⟨he.toCanonical.pow k,
    all_pow_const (fun _ _ hm hk => hm.mul hk) Monomial.uses_one he.symbols k⟩

theorem uses_sum {es : List Expr} (h : ∀ e ∈ es, e.Uses P) : (sum es).Uses P :=
  ⟨canonical_sum fun e he => (h e he).toCanonical, all_sum fun e he => (h e he).symbols⟩

theorem Uses.filter (he : e.Uses P) (keep : Monomial × Rat → Bool) :
    (⟨e.terms.filter keep⟩ : Expr).Uses P :=
  ⟨he.toCanonical.filter keep, fun t ht => he.symbols t (List.mem_filter.mp ht).1⟩

theorem Uses.filtered_term (he : e.Uses P) {t : Monomial × Rat} (ht : t ∈ e.terms)
    (keep : Symbol × Nat → Bool) {base : Rat} (hbase : base ≠ 0) (c : Rat) :
    (term ⟨t.1.powers.filter keep, base⟩ c).Uses P :=
  uses_term ((he.monomials t ht).filter keep hbase) ((he.symbols t ht).filter keep base) c

theorem Uses.shift (hcounter : P .counter) (he : e.Uses P) (k : Int) : (e.shift k).Uses P := by
  unfold Expr.shift
  split
  · exact he
  · apply uses_sum
    intro x hx
    obtain ⟨t, ht, rfl⟩ := List.mem_map.mp hx
    exact ((he.filtered_term ht _ one_ne_zero _).mul (uses_exponential _)).mul
      (((uses_ofSymbol hcounter).add (uses_const _)).pow _)

theorem Uses.subst {s : Symbol} (he : e.Uses P) (hvalue : value.Uses P) :
    (e.subst s value).Uses P := by
  unfold Expr.subst
  split
  · apply uses_sum
    intro x hx
    obtain ⟨t, ht, rfl⟩ := List.mem_map.mp hx
    have hrest := he.filtered_term ht (·.1 != s) (he.monomials t ht).base_ne_zero t.2
    unfold substTerm
    simp only
    split
    · exact hrest
    · exact hrest.mul (hvalue.pow _)
  · exact he

theorem Uses.substAll {values : Symbol → Option Expr} (he : e.Uses P)
    (h : ∀ s value, values s = some value → value.Uses P) : (e.substAll values).Uses P := by
  apply uses_sum
  intro x hx
  obtain ⟨t, ht, rfl⟩ := List.mem_map.mp hx
  apply (he.filtered_term ht _ (he.monomials t ht).base_ne_zero t.2).mul
  apply List.foldlRecOn t.1.powers _ (uses_const 1)
  intro acc hacc p _
  cases hp : values p.1 with
  | none => exact hacc
  | some value => exact hacc.mul ((h p.1 value hp).pow p.2)

theorem Uses.collect {keep : Symbol → Bool} (he : e.Uses P) :
    ∀ g ∈ e.collect keep, (g.1.Canonical ∧ g.1.Uses fun s => P s ∧ keep s = true) ∧ g.2.Uses P := by
  have hgroups : ∀ ts : List (Monomial × Rat), (∀ t ∈ ts, t.1.Canonical ∧ t.1.Uses P) →
      ∀ g ∈ ts.foldr (collectTerm keep) [],
        (g.1.Canonical ∧ g.1.Uses fun s => P s ∧ keep s = true) ∧ g.2.Uses P := by
    intro ts
    induction ts with
    | nil => exact fun _ _ hg => absurd hg List.not_mem_nil
    | cons t ts ih =>
      intro hts
      obtain ⟨⟨hcanonical, huses⟩, hts⟩ := List.forall_mem_cons.mp hts
      refine Assoc.forall_alter (fun old group hold hgroup => ?_) (ih hts)
      have hbefore : (old.getD zero).Uses P := by
        cases old with
        | none => exact uses_zero
        | some w => exact (hold w rfl).2
      rw [← Option.some.inj hgroup]
      refine ⟨⟨hcanonical.filter _ one_ne_zero, fun q hq => ?_⟩,
        ⟨hbefore.toOrdered.insertTerm _ _, ?_⟩, ?_⟩
      · obtain ⟨hmem, hkeep⟩ := List.mem_filter.mp hq
        exact ⟨huses q hmem, hkeep⟩
      · exact all_insertTerm (hcanonical.filter _ hcanonical.base_ne_zero) hbefore.monomials
      · exact all_insertTerm (huses.filter _ _) hbefore.symbols
  exact fun g hg => hgroups e.terms (fun t ht => ⟨he.monomials t ht, he.symbols t ht⟩) g
    (List.mem_filter.mp hg).1

end Expr

theorem Recurrence.uses_solve (hcounter : P .counter) (c : Rat) {h start : Expr} (hh : h.Uses P)
    (hs : start.Uses P) : (Recurrence.solve c h start).Uses P := by
  unfold Recurrence.solve
  split
  · exact hh
  · apply ((Expr.uses_exponential c).mul hs).add
    apply Expr.uses_sum
    intro e he
    obtain ⟨t, ht, rfl⟩ := List.mem_map.mp he
    have hpolynomial : ∀ coefficients, (Recurrence.polynomial coefficients).Uses P := by
      intro coefficients
      apply Expr.uses_sum
      intro e he
      obtain ⟨p, -, rfl⟩ := List.mem_map.mp he
      exact Expr.uses_term (Monomial.canonical_ofSymbol _ _) (Monomial.uses_ofSymbol hcounter _) _
    exact (hh.filtered_term ht _ one_ne_zero _).mul
      (((Expr.uses_exponential _).mul (hpolynomial _)).sub ((Expr.uses_exponential _).scale _))

theorem Growth.uses_order (hcounter : P .counter) (g : Growth) : g.order.Uses P :=
  (Expr.uses_term (Monomial.canonical_ofSymbol _ _) (Monomial.uses_ofSymbol hcounter _) 1).mul
    (Expr.uses_exponential _)

namespace Expr

variable {c e : Expr}

theorem Uses.canonicalOf? (hcounter : P .counter) {make : Symbol → Expr}
    (h : e.canonicalOf? = some make) {s : Symbol} (hs : P s) : (make s).Uses P := by
  unfold Expr.canonicalOf? at h
  split at h
  · cases h
  · split at h
    · cases h
    · split at h
      · rw [← Option.some.inj h]
        exact (uses_ofSymbol hs).mul (Growth.uses_order hcounter _)
      · rw [← Option.some.inj h]
        exact ((uses_ofSymbol hs).mul (Growth.uses_order hcounter _)).scale _
      · cases h

/-- The coefficient with whose sign a limit is infinite. -/
theorem Uses.of_limit_signedInf (he : e.Uses P) (h : e.limit = .signedInf c) : c.Uses P := by
  obtain ⟨d, hd, -, rfl, -⟩ := dominant_of_limit_signedInf h
  rw [dominant?, Option.map_eq_some_iff] at hd
  obtain ⟨g, -, rfl⟩ := hd
  have hterms : ∀ u ∈ (((e.terms.filter fun t => Growth.ofMonomial t.1 == g).filter
      fun t => !decide (t.1.base < 0)).map fun t => ((t.1.without .counter).withBase 1, t.2)),
      u.1.Canonical ∧ u.1.Uses P := by
    intro u hu
    obtain ⟨t, ht, rfl⟩ := List.mem_map.mp hu
    have hmem := (List.mem_filter.mp (List.mem_filter.mp ht).1).1
    exact ⟨(he.monomials t hmem).filter _ one_ne_zero, (he.symbols t hmem).filter _ _⟩
  exact ⟨canonical_ofTerms fun u hu => (hterms u hu).1, all_ofTerms fun u hu => (hterms u hu).2⟩

theorem Uses.solveFor {s : Solvable} {target : Expr} (he : e.Uses P) (hc : c.Uses P)
    (hs : c.solvable? = some s) (htarget : target.Uses P) : (e.solveFor s target).Uses P := by
  obtain ⟨-, hrest, -⟩ := linearIn?_spec (solvable?_spec hs).2
  have huses : s.rest.Uses P := hrest ▸ hc.filter _
  exact he.subst ((htarget.sub huses).scale _)

end Expr

end ProbLoop
