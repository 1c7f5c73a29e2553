import ProbLoop.Proofs.Asymptotics.Multiples
import ProbLoop.Proofs.Program.Descent

/-!
# Canonical bounds

Making an expression canonical keeps the growth of its dominant part and its sign at large counters, and
doing it once is enough. A constant that is introduced can be chosen such that the canonical expression is
below the given one, and such that it is above it.
-/

set_option autoImplicit false

namespace ProbLoop

open Filter Topology

namespace Growth

variable {g : Growth} {s : Symbol}

/-- The unit of growth times a symbol. -/
def monomial (g : Growth) (s : Symbol) : Monomial :=
  .ofSymbol s 1 * (.ofSymbol .counter g.degree * .exponential g.magnitude)

theorem canonical_monomial (hg : 0 < g.magnitude) (s : Symbol) : (g.monomial s).Canonical :=
  (Monomial.canonical_ofSymbol s 1).mul
    ((Monomial.canonical_ofSymbol _ _).mul (Monomial.canonical_exponential hg.ne'))

theorem base_monomial (g : Growth) (s : Symbol) : (g.monomial s).base = g.magnitude := by
  change 1 * (1 * g.magnitude) = g.magnitude
  rw [one_mul, one_mul]

theorem powerOf_monomial (hg : 0 < g.magnitude) (s t : Symbol) : (g.monomial s).powerOf t =
    (Monomial.ofSymbol s 1).powerOf t + (Monomial.ofSymbol .counter g.degree).powerOf t := by
  have hexponential : (Monomial.exponential g.magnitude).powerOf t = 0 := rfl
  rw [monomial, Monomial.powerOf_mul (Monomial.canonical_ofSymbol s 1)
    ((Monomial.canonical_ofSymbol _ _).mul (Monomial.canonical_exponential hg.ne')),
    Monomial.powerOf_mul (Monomial.canonical_ofSymbol _ _)
      (Monomial.canonical_exponential hg.ne'), hexponential, add_zero]

theorem ofMonomial_monomial (hg : 0 < g.magnitude) (hs : s ≠ .counter) :
    ofMonomial (g.monomial s) = g := by
  rw [ofMonomial, base_monomial, Number.abs_eq, abs_of_pos hg, Monomial.counterDegree,
    powerOf_monomial hg, Monomial.powerOf_ofSymbol_of_ne (Ne.symm hs), Monomial.powerOf_ofSymbol,
    zero_add]

/-- Without the unit of growth the symbol is left. -/
theorem still_monomial (hg : 0 < g.magnitude) (hs : s ≠ .counter) :
    ((g.monomial s).without .counter).withBase 1 = .ofSymbol s 1 := by
  refine (((canonical_monomial hg s).without _).withBase one_ne_zero).ext
    (Monomial.canonical_ofSymbol s 1) (fun t => ?_) rfl
  refine ((g.monomial s).powerOf_filter (· != .counter) 1 t).trans ?_
  by_cases ht : t = .counter
  · subst ht
    rw [Monomial.powerOf_ofSymbol_of_ne (Ne.symm hs)]
    rfl
  · rw [if_pos (by simpa using ht), powerOf_monomial hg,
      Monomial.powerOf_ofSymbol_of_ne ht, add_zero]

/-- The canonical expression with a growth, on one side of zero. -/
def bound (g : Growth) (side : Direction) (c : Symbol) : Expr :=
  .term (g.monomial c) side.factor

end Growth

namespace Expr

variable {e : Expr} {d : Dominant} {g : Growth} {c : Symbol} {side : Direction}

theorem terms_term (m : Monomial) {q : Rat} (hq : q ≠ 0) : (term m q).terms = [(m, q)] := by
  rw [term, nonzero?, if_neg hq]
  rfl

theorem terms_bound (g : Growth) (side : Direction) (c : Symbol) :
    (g.bound side c).terms = [(g.monomial c, side.factor)] :=
  terms_term _ side.factor_ne_zero

/-- A constant times the unit of growth is a single term. -/
theorem ofSymbol_mul_order (hg : 0 < g.magnitude) (c : Symbol) :
    ofSymbol c * g.order = term (g.monomial c) 1 := by
  refine (ordered_mul _ _).ext_lift (ordered_term _ _) fun φ => ?_
  rw [lift_mul, ofSymbol, lift_term, Growth.order, lift_mul, lift_term, exponential,
    if_neg hg.ne', lift_term, lift_term, one_mul, one_mul, Growth.monomial]

theorem scale_term (m : Monomial) (p q : Rat) : (term m p).scale q = term m (p * q) :=
  ((ordered_term m p).scale q).ext_lift (ordered_term m _) fun φ => by
    rw [lift_scale, lift_term, lift_term, mul_right_comm]

/-- No term grows faster than a given growth, and some term has it. -/
theorem largest?_growths (hle : e.All fun m => (Growth.ofMonomial m).LE g) {t : Monomial × Rat}
    (ht : t ∈ e.terms) (htg : Growth.ofMonomial t.1 = g) : Growth.largest? e.growths = some g := by
  have hmem : g ∈ e.growths := htg ▸ List.mem_map_of_mem ht
  obtain ⟨k, rest, hgrowths⟩ := List.exists_cons_of_ne_nil (List.ne_nil_of_mem hmem)
  obtain ⟨l, hl⟩ : ∃ l, Growth.largest? e.growths = some l := ⟨_, by rw [hgrowths]; rfl⟩
  obtain ⟨hlargest, hmax⟩ := Growth.largest?_spec hl
  obtain ⟨u, hu, rfl⟩ := List.mem_map.mp hlargest
  rw [hl, (hle u hu).antisymm (hmax g hmem)]

/-- An expression whose terms of the largest growth make up a canonical expression. -/
theorem dominant?_of_dominantPart (hg : 0 < g.magnitude) (hc : c ≠ .counter)
    (hle : e.All fun m => (Growth.ofMonomial m).LE g) (hpart : e.dominantPart g = g.bound side c) :
    e.dominant? = some ⟨g, term (.ofSymbol c 1) side.factor, false⟩ := by
  have hleading : e.terms.filter (fun t => Growth.ofMonomial t.1 == g) =
      [(g.monomial c, side.factor)] := by
    rw [← terms_bound, ← hpart]
    rfl
  have hmem : (g.monomial c, side.factor) ∈ e.terms :=
    (List.mem_filter.mp (hleading ▸ List.mem_singleton_self _)).1
  have hbase : ¬(g.monomial c).base < 0 := by
    rw [Growth.base_monomial]
    exact hg.not_gt
  have hcoefficient : ofTerms [(Monomial.ofSymbol c 1, side.factor)] =
      term (.ofSymbol c 1) side.factor :=
    (ordered_ofTerms _).ext_lift (ordered_term _ _) fun φ => by
      rw [lift_ofTerms, lift_term, List.map_singleton, List.sum_singleton]
  rw [dominant?, largest?_growths hle hmem (Growth.ofMonomial_monomial hg hc), Option.map_some]
  simp [hleading, hbase, Growth.still_monomial hg hc, hcoefficient]

/-- The dominant part of a canonical expression. -/
theorem dominant?_bound (hg : 0 < g.magnitude) (hc : c ≠ .counter) :
    (g.bound side c).dominant? = some ⟨g, term (.ofSymbol c 1) side.factor, false⟩ := by
  have hgrowth := Growth.ofMonomial_monomial hg hc
  refine dominant?_of_dominantPart hg hc (all_term ?_) ?_
  · rw [hgrowth]
    exact .refl g
  · rw [dominantPart, terms_bound, List.filter_cons_of_pos (by simp [hgrowth]), List.filter_nil,
      ← terms_bound]

/-- A growth other than that of a number is that of an expression in the counter. -/
theorem Leads.dependsOnCounter (h : e.Leads side g) (hne : g ≠ ⟨1, 0⟩) :
    e.dependsOnCounter = true := by
  obtain ⟨d, hd, -, hdg, -⟩ := h
  obtain ⟨⟨t, ht, hgrowth⟩, -⟩ := dominant?_spec hd
  by_contra hdep
  have hstill := List.any_eq_false.mp (Bool.not_eq_true _ ▸ hdep) t ht
  simp only [Monomial.isExponential, Bool.or_eq_true, bne_iff_ne, ne_eq, not_or, not_not,
    Bool.not_eq_true] at hstill
  apply hne
  rw [← hdg, ← hgrowth, Growth.ofMonomial, hstill.1, Monomial.counterDegree,
    Monomial.powerOf_eq_zero hstill.2]
  rfl

/-- An unbounded dominant part whose coefficient has a known sign decides the limit. -/
theorem Leads.diverges (h : e.Leads side g) (hone : 1 ≤ g.magnitude) (hne : g ≠ ⟨1, 0⟩) :
    e.Diverges side g := by
  refine ⟨?_, h⟩
  have hdep := h.dependsOnCounter hne
  obtain ⟨d, hd, hosc, rfl, hsign⟩ := h
  have hunit : ¬(d.growth.magnitude = 1 ∧ d.growth.degree = 0) := fun heq => hne (by
    rw [← heq.1, ← heq.2])
  rw [limit, if_pos hdep, hd]
  simp only [dominantLimit, if_neg hone.not_gt, hosc, Bool.false_eq_true, if_false, if_neg hunit,
    hsign]
  cases side <;> rfl

/-! ### Canonical expressions -/

section Bound

variable (hg : 0 < g.magnitude) (hc : c.isPositive = true)

include hc in
theorem ne_counter_of_isPositive : c ≠ .counter := by
  rintro rfl
  simp [Symbol.isPositive] at hc

include hc in
theorem sign?_positive : (term (.ofSymbol c 1) side.factor).sign? = some side.sign := by
  refine (sign?_eq_sign_iff (ordered_term _ _)).mpr ?_
  rw [terms_term _ side.factor_ne_zero]
  simp [OnSide, Monomial.ofSymbol, hc, side.factor_mul_self]

theorem monomial_unit (c : Symbol) : (⟨1, 0⟩ : Growth).monomial c = .ofSymbol c 1 := by
  refine (Growth.canonical_monomial one_pos c).ext (Monomial.canonical_ofSymbol c 1) (fun t => ?_)
    (Growth.base_monomial _ c)
  rw [Growth.powerOf_monomial one_pos]
  exact add_zero _

include hc in
/-- Without growth the canonical expressions are the constants and their opposites. -/
theorem dependsOnCounter_bound_unit : ((⟨1, 0⟩ : Growth).bound side c).dependsOnCounter = false := by
  simp [dependsOnCounter, terms_bound, monomial_unit, Monomial.ofSymbol, Monomial.isExponential,
    Monomial.mentions, ne_counter_of_isPositive hc]

include hg hc

theorem leads_bound : (g.bound side c).Leads side g :=
  ⟨_, dominant?_bound hg (ne_counter_of_isPositive hc), rfl, rfl, sign?_positive hc⟩

theorem eventualSign?_bound : (g.bound side c).eventualSign? = some side.sign := by
  by_cases hunit : g = ⟨1, 0⟩
  · subst hunit
    rw [eventualSign?, dependsOnCounter_bound_unit hc, if_neg Bool.false_ne_true, Growth.bound,
      monomial_unit, sign?_positive hc]
  · exact (leads_bound hg hc).eventualSign? ((leads_bound hg hc).dependsOnCounter hunit)

theorem isCanonical_bound : (g.bound side c).isCanonical = true := by
  have hpowers : ((g.monomial c).without .counter).powers = [(c, 1)] :=
    congrArg Monomial.powers (Growth.still_monomial hg (ne_counter_of_isPositive hc))
  have habs : Number.abs side.factor = 1 := by cases side <;> rfl
  rw [isCanonical, terms_bound]
  simp [hpowers, habs, Growth.base_monomial, hg, hc]

theorem growthOrder_bound : (g.bound side c).growthOrder = g.order := by
  rw [growthOrder, dominant?_bound hg (ne_counter_of_isPositive hc)]

theorem realValue_bound (n : Nat) (x : RealValuation) :
    (g.bound side c).realValue n x = side.factor * (x c * g.value n) := by
  have hcounter := ne_counter_of_isPositive hc
  have hdegree : (g.monomial c).counterDegree = g.degree :=
    congrArg Growth.degree (Growth.ofMonomial_monomial hg hcounter)
  have hconstant : (Monomial.ofSymbol c 1).realValue 0 x = x c := by
    cases c <;> simp_all [Monomial.realValue, Monomial.ofSymbol, Symbol.realValue]
  rw [realValue, terms_bound, List.map_singleton, List.sum_singleton,
    Monomial.realValue_split n x (Growth.canonical_monomial hg c) 0,
    Growth.still_monomial hg hcounter, Growth.base_monomial, hdegree, hconstant, Growth.value]
  ring

end Bound

/-! ### Making an expression canonical -/

/-- The canonical expression is that of the dominant part. -/
theorem canonicalOf?_spec (he : e.Canonical) {make : Symbol → Expr}
    (h : e.canonicalOf? = some make) : ∃ side g, e.Leads side g ∧ make = g.bound side := by
  unfold canonicalOf? at h
  split at h
  · simp at h
  · next d hd =>
    have hpos := magnitude_pos he hd
    split at h
    · simp at h
    · next hosc =>
      have hosc : d.oscillates = false := by simpa using hosc
      split at h
      · next hsign =>
        refine ⟨.up, d.growth, ⟨d, hd, hosc, rfl, hsign⟩, funext fun c => ?_⟩
        rw [← Option.some.inj h]
        exact ofSymbol_mul_order hpos c
      · next hsign =>
        refine ⟨.down, d.growth, ⟨d, hd, hosc, rfl, hsign⟩, funext fun c => ?_⟩
        rw [← Option.some.inj h]
        dsimp only
        rw [ofSymbol_mul_order hpos, scale_term, one_mul]
        rfl
      · simp at h

/-- An expression is kept, or it is replaced by a fresh constant times the growth of its dominant part,
on the side of the part's coefficient. -/
theorem canonicalize_cases (he : e.Canonical) : e.canonicalize = pure e ∨
    ∃ side g, e.isSettled = false ∧ e.Leads side g ∧
      e.canonicalize = g.bound side <$> Supply.draw "c" := by
  unfold canonicalize
  split
  · exact Or.inl rfl
  · next hsettled =>
    split
    · exact Or.inl rfl
    · next make hmake =>
      obtain ⟨side, g, hleads, rfl⟩ := canonicalOf?_spec he hmake
      exact Or.inr ⟨side, g, by simpa using hsettled, hleads, rfl⟩

theorem canonicalize_of_isSettled (h : e.isSettled = true) : e.canonicalize = pure e := by
  rw [canonicalize, if_pos h]

theorem dependsOnCounter_of_not_isSettled (h : e.isSettled = false) : e.dependsOnCounter = true := by
  simp only [isSettled, Bool.or_eq_false_iff, Bool.not_eq_false'] at h
  exact h.1.1

theorem isSettled_of_isCanonical (h : e.isCanonical = true) : e.isSettled = true := by
  rw [isSettled, h, Bool.or_true]

theorem Leads.growthOrder (h : e.Leads side g) : e.growthOrder = g.order := by
  obtain ⟨d, hd, -, rfl, -⟩ := h
  rw [Expr.growthOrder, hd]

/-- An expression lies between two positive multiples of the growth of its dominant part. -/
theorem Leads.eventually_between (he : e.Canonical) (h : e.Leads side g) {x : RealValuation}
    (hx : x.Admissible) : ∃ p q : Rat, 0 < p ∧ 0 < q ∧ ∀ᶠ n in atTop,
      p * g.value n ≤ (side.factor : ℝ) * e.realValue n x ∧
        (side.factor : ℝ) * e.realValue n x ≤ q * g.value n := by
  obtain ⟨κ, hκ, hlimit⟩ := h.tendsto_div he hx
  obtain ⟨p, hp, hpκ⟩ := exists_rat_btwn hκ
  obtain ⟨q, hκq, -⟩ := exists_rat_btwn (lt_add_one κ)
  refine ⟨p, q, by exact_mod_cast hp, by exact_mod_cast hκ.trans hκq, ?_⟩
  filter_upwards [hlimit.eventually_const_lt hpκ, hlimit.eventually_lt_const hκq,
    eventually_ge_atTop 1] with n hlower hupper hn
  have hpos := Growth.value_pos (h.magnitude_pos he) (n := n) (by omega)
  exact ⟨((lt_div_iff₀ hpos).mp hlower).le, ((div_lt_iff₀ hpos).mp hupper).le⟩

/-- The constant of a canonical expression can be chosen such that it is below an expression with the
same dominant growth, and such that it is above. -/
theorem Leads.exists_bounds (he : e.Canonical) (h : e.Leads side g) (hc : c.isPositive = true)
    {x : RealValuation} (hx : x.Admissible) : ∃ c₁ c₂ : Rat, 0 < c₁ ∧ 0 < c₂ ∧ ∃ N, ∀ n, N ≤ n →
      (g.bound side c).realValue n (Function.update x c c₁) ≤ e.realValue n x ∧
        e.realValue n x ≤ (g.bound side c).realValue n (Function.update x c c₂) := by
  obtain ⟨p, q, hp, hq, hbetween⟩ := h.eventually_between he hx
  obtain ⟨N, hN⟩ := eventually_atTop.mp hbetween
  simp only [realValue_bound (h.magnitude_pos he) hc, Function.update_self]
  cases side with
  | up =>
    simp only [Direction.factor, Rat.cast_one, one_mul] at hN ⊢
    exact ⟨p, q, hp, hq, N, hN⟩
  | down =>
    -- Below zero the outer multiple is the lower one.
    refine ⟨q, p, hq, hp, N, fun n hn => ?_⟩
    obtain ⟨hinner, houter⟩ := hN n hn
    simp only [Direction.factor, Rat.cast_neg, Rat.cast_one, neg_one_mul] at hinner houter ⊢
    exact ⟨neg_le.mp houter, le_neg.mp hinner⟩

/-- Making an expression canonical keeps its sign at large counters and its unit of growth, and doing it
again changes nothing. The expression is kept, or a constant is introduced, and for all admissible values
of the symbols the constant can be chosen such that the canonical expression is below the given one from
some counter on, and such that it is above. -/
theorem Built.canonicalize_keeps (he : e.Built) (supply : Supply) :
    ∃ r rest, e.canonicalize.run supply = (r, rest) ∧
      r.eventualSign? = e.eventualSign? ∧ r.growthOrder = e.growthOrder ∧
      (∀ later, r.canonicalize.run later = (r, later)) ∧
      (r = e ∧ rest = supply ∨ ∃ c, (Supply.draw "c").run supply = (c, rest) ∧
        ∀ x : RealValuation, x.Admissible → ∃ c₁ c₂ : Rat, 0 < c₁ ∧ 0 < c₂ ∧ ∃ N, ∀ n, N ≤ n →
          r.realValue n (Function.update x c c₁) ≤ e.realValue n x ∧
            e.realValue n x ≤ r.realValue n (Function.update x c c₂)) := by
  rcases canonicalize_cases he.canonical with hkept | ⟨side, g, hsettled, hleads, hdrawn⟩
  · exact ⟨e, supply, by rw [hkept]; rfl, rfl, rfl, fun later => by rw [hkept]; rfl,
      Or.inl ⟨rfl, rfl⟩⟩
  · have hg := hleads.magnitude_pos he.canonical
    have hc : (Symbol.positive ("c" ++ toString supply.next)).isPositive = true := rfl
    refine ⟨g.bound side (.positive ("c" ++ toString supply.next)), ⟨supply.next + 1⟩,
      by rw [hdrawn]; rfl, ?_, ?_, fun later => ?_, Or.inr ⟨_, rfl, fun x hx => ?_⟩⟩
    · rw [eventualSign?_bound hg hc,
        hleads.eventualSign? (dependsOnCounter_of_not_isSettled hsettled)]
    · rw [growthOrder_bound hg hc, hleads.growthOrder]
    · rw [canonicalize_of_isSettled (isSettled_of_isCanonical (isCanonical_bound hg hc))]
      rfl
    · exact hleads.exists_bounds he.canonical hc hx

/-- A falling exponential with a positive constant becomes one with a fresh constant, which can be chosen
below and above what it replaces, here at irrational values of the symbols. -/
theorem canonicalize_falling :
    (counter.pow 3 - ofSymbol (.positive "c0") * counter * exponential 2 -
        ofSymbol (.real "x0")).canonicalize.run ⟨1⟩ =
          (-(ofSymbol (.positive "c1") * counter * exponential 2), ⟨2⟩) ∧
      (-(ofSymbol (.positive "c1") * counter * exponential 2)).eventualSign? = some .negative ∧
      ∃ c₁ c₂ : Rat, 0 < c₁ ∧ 0 < c₂ ∧ ∃ N, ∀ n, N ≤ n →
        (-(ofSymbol (.positive "c1") * counter * exponential 2)).realValue n
            (Function.update (fun _ => Real.sqrt 2) (.positive "c1") c₁) ≤
          (counter.pow 3 - ofSymbol (.positive "c0") * counter * exponential 2 -
            ofSymbol (.real "x0")).realValue n (fun _ => Real.sqrt 2) ∧
        (counter.pow 3 - ofSymbol (.positive "c0") * counter * exponential 2 -
            ofSymbol (.real "x0")).realValue n (fun _ => Real.sqrt 2) ≤
          (-(ofSymbol (.positive "c1") * counter * exponential 2)).realValue n
            (Function.update (fun _ => Real.sqrt 2) (.positive "c1") c₂) := by
  have hbuilt : (counter.pow 3 - ofSymbol (.positive "c0") * counter * exponential 2 -
      ofSymbol (.real "x0")).Built :=
    .sub (.sub (.pow (.ofSymbol _) 3) (.mul (.mul (.ofSymbol _) (.ofSymbol _)) (.exponential _)))
      (.ofSymbol _)
  have hrun : (counter.pow 3 - ofSymbol (.positive "c0") * counter * exponential 2 -
      ofSymbol (.real "x0")).canonicalize.run ⟨1⟩ =
        (-(ofSymbol (.positive "c1") * counter * exponential 2), ⟨2⟩) := by
    change @Eq (Expr × Supply) _ _
    decide +kernel
  have hsign : (counter.pow 3 - ofSymbol (.positive "c0") * counter * exponential 2 -
      ofSymbol (.real "x0")).eventualSign? = some .negative := by decide +kernel
  obtain ⟨r, rest, hresult, hkeeps, -, -, hbounds⟩ := Built.canonicalize_keeps hbuilt ⟨1⟩
  obtain ⟨rfl, rfl⟩ := Prod.mk.inj (hresult.symm.trans hrun)
  rcases hbounds with ⟨-, hrest⟩ | ⟨c, hc, hbounds⟩
  · exact absurd hrest (by decide)
  · have hdraw : (Supply.draw "c").run ⟨1⟩ = (.positive "c1", ⟨2⟩) := by
      change @Eq (Symbol × Supply) _ _
      decide +kernel
    obtain ⟨rfl, -⟩ := Prod.mk.inj (hc.symm.trans hdraw)
    exact ⟨hrun, hkeeps.trans hsign, hbounds _ fun _ => Real.sqrt_pos.mpr two_pos⟩

end Expr

end ProbLoop
