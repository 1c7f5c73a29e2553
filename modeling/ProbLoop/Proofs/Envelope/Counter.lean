import Mathlib.Analysis.Polynomial.Basic
import ProbLoop.Proofs.Asymptotics.Dominance
import ProbLoop.Proofs.Evidence
import ProbLoop.Proofs.Expr.Polarity

/-!
# Envelopes of expressions in the counter

An expression in which no symbol occurs but the counter is its own envelope, and its limit is a number.
So an analysis cannot find that the guard does not increase and that it increases, if the mean change of
the guard is a function of the counter.
-/

set_option autoImplicit false

namespace ProbLoop

open Analysis Filter Topology

/-- No symbol occurs but the counter. -/
def Monomial.Counting (m : Monomial) : Prop :=
  ∀ q ∈ m.powers, q.1.isCounter = true

namespace Monomial

theorem Counting.eq_one_of_notMem {m : Monomial} (hm : m.Counting)
    (hpowers : ∀ q ∈ m.powers, q.1 ≠ .counter) (hbase : m.base = 1) : m = one := by
  have hnil : m.powers = [] := by
    refine List.eq_nil_iff_forall_not_mem.mpr fun q hq => ?_
    have hcounter := hm q hq
    have hne := hpowers q hq
    cases hs : q.1 <;> simp_all [Symbol.isCounter]
  cases m
  simp_all [one]

theorem Counting.kept {m : Monomial} (hm : m.Counting) : m.kept Symbol.isVar = one := by
  have hnil : m.powers.filter (fun q => q.1.isVar) = [] := by
    refine List.filter_eq_nil_iff.mpr fun q hq => ?_
    have hcounter := hm q hq
    cases hs : q.1 <;> simp_all [Symbol.isCounter, Symbol.isVar]
  rw [Monomial.kept, hnil]
  rfl

theorem Counting.rest {m : Monomial} (hm : m.Counting) : m.rest Symbol.isVar = m := by
  have hall : m.powers.filter (fun q => !q.1.isVar) = m.powers := by
    refine List.filter_eq_self.mpr fun q hq => ?_
    have hcounter := hm q hq
    cases hs : q.1 <;> simp_all [Symbol.isCounter, Symbol.isVar]
  rw [Monomial.rest, hall]

end Monomial

namespace Expr

variable {e : Expr}

theorem counting_of_freeSymbols (h : e.freeSymbols.all Symbol.isCounter = true) :
    e.All Monomial.Counting :=
  fun _ ht _ hq => List.all_eq_true.mp h _ (mem_freeSymbols ht hq)

theorem neg_neg_of_ordered (he : e.Ordered) : - -e = e :=
  he.neg.neg.ext_lift he fun φ => by rw [lift_neg, lift_neg, neg_neg]

/-- An expression whose only monomial is one is a number. -/
theorem eq_const_of_all_one (he : e.Ordered) (h : e.All (· = Monomial.one)) :
    ∃ q, e = const q := by
  refine ⟨e.lift fun _ => 1, he.ext_lift (ordered_term _ _) fun φ => ?_⟩
  rw [const, lift_term, ← lift_mul_const]
  exact lift_congr fun t ht => by rw [h t ht, one_mul]

theorem solvable?_const (q : Rat) : (const q).solvable? = none := by
  have hnone : (const q).freeSymbols = [] := by
    unfold const term nonzero?
    split <;> simp [Assoc.consSome, freeSymbols, monomialSymbols, Monomial.one,
      Monomial.isExponential, Monomial.symbols]
  rw [solvable?, hnone]
  rfl

theorem dominant?_counting (hcounting : e.All Monomial.Counting) {d : Dominant}
    (hd : e.dominant? = some d) : ∃ q, d.coefficient = const q := by
  rw [dominant?, Option.map_eq_some_iff] at hd
  obtain ⟨g, -, rfl⟩ := hd
  apply eq_const_of_all_one (ordered_ofTerms _)
  apply all_ofTerms
  intro u hu
  obtain ⟨t, ht, rfl⟩ := List.mem_map.mp hu
  have hmem := (List.mem_filter.mp (List.mem_filter.mp ht).1).1
  refine Monomial.Counting.eq_one_of_notMem ?_ ?_ rfl
  · exact fun q hq => hcounting t hmem q (List.mem_filter.mp hq).1
  · intro q hq
    simpa using (List.mem_filter.mp hq).2

/-- The limit of an expression in the counter does not depend on any symbol. -/
theorem limit_counting (he : e.Ordered) (hcounting : e.All Monomial.Counting) :
    (∀ a, e.limit = .finite a → ∃ q, a = const q) ∧
      ∀ c, e.limit = .signedInf c → ∃ q, c = const q := by
  cases hdep : e.dependsOnCounter with
  | false =>
    rw [limit_of_not_dependsOnCounter hdep]
    refine ⟨fun a ha => ?_, by simp⟩
    obtain rfl := Limit.finite.inj ha
    apply eq_const_of_all_one he
    intro t ht
    have hstill := List.any_eq_false.mp hdep t ht
    simp only [Bool.or_eq_true, not_or, Monomial.isExponential, Monomial.mentions, bne_iff_ne,
      ne_eq, not_not, List.any_eq_true, beq_iff_eq, not_exists, not_and] at hstill
    exact (hcounting t ht).eq_one_of_notMem (fun q hq => hstill.2 q hq) hstill.1
  | true =>
    obtain ⟨d, hd, hlimit⟩ := limit_of_dependsOnCounter hdep
    have hcoefficient := dominant?_counting hcounting hd
    rw [hlimit, dominantLimit]
    split
    · simpa using ⟨0, rfl⟩
    · split
      · simp
      · split
        · simpa using hcoefficient
        · split <;> simp [hcoefficient]

/-- The number that stands in one group is the whole expression. -/
theorem collected_counting (he : e.Ordered) (hcounting : e.All Monomial.Counting) :
    e.collected Symbol.isVar Monomial.one = e := by
  rw [collected_eq_group]
  apply (ordered_group _ _ _).ext_lift he
  intro φ
  rw [lift_group]
  exact lift_congr fun t ht => by rw [(hcounting t ht).kept, if_pos rfl, (hcounting t ht).rest]

theorem isOne_of_mem_collect (hcounting : e.All Monomial.Counting) :
    ∀ g ∈ e.collect Symbol.isVar, g.1.isOne = true := by
  have hgroups : ∀ ts : List (Monomial × Rat), (∀ t ∈ ts, t.1.Counting) →
      ∀ g ∈ ts.foldr (collectTerm Symbol.isVar) [], g.1.isOne = true := by
    intro ts hts
    induction ts with
    | nil => simp
    | cons t ts ih =>
      obtain ⟨ht, hrest⟩ := List.forall_mem_cons.mp hts
      apply Assoc.forall_alter _ (ih hrest)
      intro _ _ _ _
      rw [ht.kept]
      rfl
  exact fun g hg => hgroups e.terms hcounting g (List.mem_filter.mp hg).1

end Expr

section Envelopes

variable {p : Program} {e : Expr}

theorem Program.addEnvelopes_of_isOne {envelope : Monomial → Attempt Analysis Envelope}
    {groups : List (Monomial × Expr)} (h : ∀ g ∈ groups, g.1.isOne = true)
    (acc : Expr × Expr × Polarity) : addEnvelopes envelope acc groups = pure acc := by
  induction groups with
  | nil => rfl
  | cons g groups ih =>
    obtain ⟨hg, hrest⟩ := List.forall_mem_cons.mp h
    rw [addEnvelopes, if_pos hg]
    exact ih hrest

/-- No constant can be chosen to give the limit of an expression in the counter a sign. -/
theorem Expr.splitSign_counting (he : e.Ordered) (hcounting : e.All Monomial.Counting) {c : Expr}
    (hlimit : e.limit = .signedInf c) : e.splitSign = throw (.unexpected (.signStays c e)) := by
  obtain ⟨q, rfl⟩ := (Expr.limit_counting he hcounting).2 c hlimit
  simp only [Expr.splitSign, hlimit, Expr.solvable?_const]

/-- An expression in the counter is its own upper bound. -/
theorem Program.upper_of_infers (he : e.Ordered) (hcounting : e.All Monomial.Counting) {b : Envelope}
    (hb : p.Infers e b) : b.upper = e := by
  have hensures : (p.envelopeOf e).Ensures (fun _ => True) fun b => b.upper = e := by
    have hgroup : (Assoc.find? Monomial.one (e.collect Symbol.isVar)).getD Expr.zero = e :=
      Expr.collected_counting he hcounting
    unfold envelopeOf envelopeFrom
    simp only [hgroup, addEnvelopes_of_isOne (Expr.isOne_of_mem_collect hcounting)]
    apply (Attempt.ensures_pure (P := fun r => r = (e, e, e.polarity)) rfl).bind
    rintro r rfl
    dsimp only
    split
    · exact Attempt.ensures_pure rfl
    · next hsplit =>
      obtain ⟨c, hlimit⟩ : ∃ c, e.limit = .signedInf c := by
        cases hlimit : e.limit <;> simp [hlimit] at hsplit ⊢
      have hnever : (drawing (do Expr.dominating (← e.splitSign))).Ensures (fun _ => True)
          fun _ => False := by
        rw [Expr.splitSign_counting he hcounting hlimit]
        exact ((Attempt.ensures_throw (I := fun _ => True) _).bind (P := fun _ => False)
          fun _ h => h.elim).within (fun _ _ => trivial) fun _ _ _ _ => trivial
      exact hnever.bind fun _ h => h.elim
  obtain ⟨a, -, hrun⟩ := hb
  exact (hensures a trivial).2 b hrun

end Envelopes

/-- A polynomial that tends to a number along the counters is that number. -/
theorem Polynomial.eval_eq_of_tendsto {p : Polynomial} {x : ℝ}
    (h : Tendsto (fun n : Nat => (p.eval n : ℝ)) atTop (𝓝 x)) (n : Nat) : (p.eval n : ℝ) = x := by
  have heval : ∀ n : Nat, (p.eval n : ℝ) = p.toReal.eval (n : ℝ) := fun n => by
    rw [← p.eval_toReal, Rat.cast_natCast]
  have hdegree : p.toReal.degree ≤ 0 := by
    by_contra hpos
    have hgrows := (p.toReal.abs_tendsto_atTop (not_le.mp hpos)).comp
      (tendsto_natCast_atTop_atTop (R := ℝ))
    have hbounded : Tendsto (fun n : Nat => |p.toReal.eval (n : ℝ)|) atTop (𝓝 |x|) :=
      (h.congr heval).abs
    exact not_tendsto_nhds_of_tendsto_atTop hgrows _ hbounded
  have hconst := Polynomial.eq_C_of_degree_le_zero hdegree
  have hsame : ∀ m : Nat, (p.eval m : ℝ) = p.eval n := fun m => by
    rw [heval, heval, hconst, Polynomial.eval_C, Polynomial.eval_C]
  exact tendsto_nhds_unique (tendsto_const_nhds.congr fun m => (hsame m).symm) h

namespace Expr

variable {e a : Expr}

theorem eventualSign?_of_limit_finite (hlimit : e.limit = .finite a)
    (ha : a.sign? = some .positive) : e.eventualSign? = some .positive := by
  cases hdep : e.dependsOnCounter with
  | false =>
    rw [limit_of_not_dependsOnCounter hdep] at hlimit
    rw [eventualSign?, hdep, if_neg Bool.false_ne_true, Limit.finite.inj hlimit, ha]
  | true =>
    obtain ⟨d, hd, hdominant⟩ := limit_of_dependsOnCounter hdep
    rw [hdominant, dominantLimit] at hlimit
    rw [eventualSign?, hdep, if_pos rfl, hd]
    split at hlimit
    · rw [← Limit.finite.inj hlimit] at ha
      exact absurd ha (by decide)
    · split at hlimit
      · simp at hlimit
      · next hosc =>
        split at hlimit
        · simp only [hosc, Bool.false_eq_true, if_false]
          rw [Limit.finite.inj hlimit, ha]
        · split at hlimit <;> simp at hlimit

/-- An expression with a positive limit is not taken to be at most zero in the long run. -/
theorem isEventuallyNonpositive_of_limit_pos (he : e.Canonical) (hlimit : e.limit = .finite a)
    (ha : a.sign? = some .positive) : e.isEventuallyNonpositive = .no := by
  unfold isEventuallyNonpositive
  cases hp : Polynomial.ofExpr? e with
  | none => simp only [eventualSign?_of_limit_finite hlimit ha]
  | some p =>
    have hvalue : ∀ n : Nat, e.value n (fun _ => 1) = p.eval n :=
      fun n => (value_of_ofExpr? n _ he hp).2
    have htendsto : Tendsto (fun n : Nat => (p.eval n : ℝ)) atTop (𝓝 (a.value 0 fun _ => 1 : ℝ)) :=
      (tendsto_of_limit_finite he hlimit _).congr fun n => by rw [hvalue]
    have ha' : 0 < a.value 0 fun _ => 1 :=
      Sign.of_eq_positive.mp (sign?_sound (fun _ => one_pos) ha)
    have hpos : 0 < p.eval p.eventualSign.1 := by
      have heq := Polynomial.eval_eq_of_tendsto htendsto p.eventualSign.1
      have hcast : p.eval p.eventualSign.1 = a.value 0 fun _ => 1 := by exact_mod_cast heq
      rwa [hcast]
    exact if_pos (Sign.of_eq_positive.mpr hpos)

end Expr

/-- If the mean change of the guard is a function of the counter, the guard is not found both not to
increase and to increase. -/
theorem Program.WellFormed.not_diverges_of_counting {p : Program} (hp : p.WellFormed)
    (hcounting : p.settledChange.All Monomial.Counting)
    (h : p.InfersNonpositive p.settledChange) : ¬p.Diverges := by
  rintro ⟨-, b, hb, hbounded, hnot⟩
  have he := hp.within_settledChange.canonical
  have hupper : -b.upper = p.settledChange := by
    rw [upper_of_infers he.toOrdered.neg (Expr.all_neg hcounting) hb,
      Expr.neg_neg_of_ordered he.toOrdered]
  rw [hupper] at hbounded hnot
  have hsign : ∀ a, p.settledChange.limit = .finite a → a.sign? ≠ none := by
    intro a ha
    obtain ⟨q, rfl⟩ := (Expr.limit_counting he.toOrdered hcounting).1 a ha
    simp [Expr.sign?_const]
  obtain ⟨a, hlimit, ha⟩ := Expr.limit_pos_of_not_dominates he hsign hbounded hnot
  rcases h with ⟨-, hyes⟩ | ⟨b', hb', hbelow⟩
  · simp [Expr.isEventuallyNonpositive_of_limit_pos he hlimit ha] at hyes
  · have hone : Valuation.Admissible fun _ => 1 := fun _ => one_pos
    rw [upper_of_infers he.toOrdered hcounting hb'] at hbelow
    obtain ⟨ε, hε, hge⟩ := Expr.eventually_ge_of_limit_pos he hone hlimit ha
    obtain ⟨δ, hδ, hle⟩ :=
      Expr.eventually_le_of_dominates he hone (show (-1 : Rat) < 0 by decide) hbelow
    obtain ⟨n, hn, hn'⟩ := (hge.and hle).exists
    linarith

end ProbLoop
