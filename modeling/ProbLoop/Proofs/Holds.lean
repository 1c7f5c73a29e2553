import ProbLoop.Proofs.Asymptotics.Dominance
import ProbLoop.Proofs.Divergence
import ProbLoop.Proofs.Evidence
import ProbLoop.Proofs.Program.Initial
import ProbLoop.Proofs.Program.Reaches

/-!
# When evidence holds

What an inferred bound says of the loop, provided that it holds along the runs of the loop.
-/

set_option autoImplicit false

namespace ProbLoop.Program

open Filter

variable {p : Program}

/-- Every upper bound of the expression that an analysis gives holds in the long run, for some values
of its constants. -/
def UpperHolds (p : Program) (e : Expr) : Prop :=
  ∀ b, p.Infers e b → ∃ σ : Valuation, σ.Admissible ∧
    p.Ultimately fun k v => e.value k v ≤ b.upper.value k σ

/-- The expression is at most zero in the long run, if its counter decides that. -/
def CounterHolds (p : Program) (e : Expr) : Prop :=
  e.freeSymbols.all Symbol.isCounter = true → e.isEventuallyNonpositive = .yes →
    p.Ultimately fun k v => e.value k v ≤ 0

theorem ultimately_of_eventually {P : Nat → Prop} (h : ∀ᶠ k in atTop, P k) :
    p.Ultimately fun k _ => P k := by
  obtain ⟨N, hN⟩ := eventually_atTop.mp h
  exact ⟨N, fun k hk _ _ => hN k hk⟩

section Numbers

variable {q : Rat}

theorem collect_const (hq : q ≠ 0) :
    (Expr.const q).collect Symbol.isVar = [(Monomial.one, .const q)] := by
  have hover : (Expr.const q).Over [] := Expr.over_const q
  have hplain : (Expr.const q).IsPlain := hover.isPlain (by simp)
  rw [hplain.collect]
  simp [Expr.const, Expr.term, Expr.nonzero?, hq, Assoc.consSome]

/-- A number is its own envelope. -/
theorem envelopeOf_const (q : Rat) : p.envelopeOf (.const q) =
    pure (.between (.const q) (.const q) (.const q) (Polarity.of q)) := by
  have hgroups :
      (Assoc.find? Monomial.one ((Expr.const q).collect Symbol.isVar)).getD Expr.zero = .const q ∧
      ∀ acc, addEnvelopes p.envelopeOfMonomial acc ((Expr.const q).collect Symbol.isVar) =
        pure acc := by
    by_cases hq : q = 0
    · subst hq
      exact ⟨rfl, fun acc => rfl⟩
    · rw [collect_const hq]
      exact ⟨rfl, fun acc => rfl⟩
  have hpolarity : (Expr.const q).polarity = Polarity.of q := by
    rw [Expr.polarity, Expr.constant?_const]
  unfold envelopeOf envelopeFrom
  simp only [hgroups.1, hgroups.2, hpolarity]
  simp [Expr.limit_const]

theorem infers_const {b : Envelope} :
    p.Infers (.const q) b ↔ b = .between (.const q) (.const q) (.const q) (Polarity.of q) := by
  constructor
  · rintro ⟨a, -, hb⟩
    rw [envelopeOf_const] at hb
    exact (Except.ok.inj hb).symm
  · rintro rfl
    refine ⟨.start ⟨0⟩, .start _, ?_⟩
    rw [envelopeOf_const]
    rfl

theorem upperHolds_const (q : Rat) : p.UpperHolds (.const q) := by
  intro b hb
  refine ⟨fun _ => 1, fun _ => one_pos, 0, fun k _ o _ => ?_⟩
  simp [infers_const.mp hb, Envelope.between]

end Numbers

section Bounds

variable (hp : p.WellFormed) {e : Expr} (he : e.Within p.vars)
include hp he

/-- An expression with a bound below zero stays below a negative constant. -/
theorem WellFormed.ultimately_below (h : p.UpperHolds e) {b : Envelope} (hb : p.Infers e b)
    (hbelow : ProofRule.isBelowZero b.upper = true) :
    ∃ ε : ℝ, 0 < ε ∧ p.Ultimately fun k v => (e.value k v : ℝ) ≤ -ε := by
  obtain ⟨σ, hσ, hupper⟩ := h b hb
  obtain ⟨ε, hε, hle⟩ := Expr.eventually_le_of_dominates
    (hp.within_of_infers he hb).upper.canonical hσ (show (-1 : Rat) < 0 by decide) hbelow
  refine ⟨ε, hε, (hupper.and (ultimately_of_eventually hle)).mono ?_⟩
  rintro k v ⟨hvalue, hbound⟩
  have hvalue' : (e.value k v : ℝ) ≤ b.upper.value k σ := by exact_mod_cast hvalue
  linarith

theorem WellFormed.ultimately_nonpositive (h : p.UpperHolds e) (hcounter : p.CounterHolds e)
    (hyes : p.InfersNonpositive e) : p.Ultimately fun k v => (e.value k v : ℝ) ≤ 0 := by
  rcases hyes with ⟨honly, hyes⟩ | ⟨b, hb, hbelow⟩
  · apply (hcounter honly hyes).mono
    intro k v hvalue
    exact_mod_cast hvalue
  · obtain ⟨ε, hε, hle⟩ := hp.ultimately_below he h hb hbelow
    apply hle.mono
    intro k v hvalue
    linarith

end Bounds

section Change

variable (hp : p.WellFormed) (hf : p.IsFinite)
include hp hf

theorem WellFormed.meanChange_eq (k : Nat) (v : Valuation) :
    p.meanChange v = ((p.expectedNext p.guard - p.guard).value k v : ℝ) := by
  have hmean := hp.mean_value hf hp.guard k v v
  have hstill : p.guard.Still := ⟨hp.guard.canonical, hp.guard.isStill p.counter_notMem_vars⟩
  have hheight : ∀ w, (p.guard.value k w : ℝ) = p.height w := by
    intro w
    rw [height, hstill.value_eq k 0]
  simp only [hheight] at hmean
  rw [meanChange, hmean, Expr.value_sub, Rat.cast_sub, hheight]

/-- The mean change of the guard is what the analysis takes for it. -/
theorem WellFormed.ultimately_meanChange (hfollows : p.Ultimately p.Follows) :
    p.Ultimately fun k v => p.meanChange v = (p.settledChange.value k v : ℝ) := by
  apply hfollows.mono
  intro k v hv
  rw [hp.meanChange_eq hf k v, settledChange, value_settled hp.within_change hv]

end Change

section Cases

variable (hp : p.WellFormed)
include hp

theorem WellFormed.value_caseChange {c : Case} (hc : c ∈ p.cases p.guard) (k : Nat) (v : Valuation) :
    (p.caseChange c).value k v = c.value.value 0 v - p.guard.value 0 v := by
  have hcase := (hp.proper_cases hp.guard c hc).2
  have hcstill : c.value.Still := ⟨hcase.canonical, hcase.isStill p.counter_notMem_vars⟩
  have hgstill : p.guard.Still := ⟨hp.guard.canonical, hp.guard.isStill p.counter_notMem_vars⟩
  rw [caseChange, Expr.value_sub, hcstill.value_eq k 0, hgstill.value_eq k 0]

/-- Every case of the guard is taken by some outcome. -/
theorem WellFormed.exists_change {c : Case} (hc : c ∈ p.cases p.guard) (k : Nat) (v : Valuation) :
    ∃ w ∈ p.outcomes v v, p.height w.state = p.height v + (p.caseChange c).value k v := by
  obtain ⟨w, hw, hvalue⟩ := hp.sequential.exists_outcome hp.guard.canonical 0 v v hc
  rw [drawn_self] at hvalue
  refine ⟨w, hw, ?_⟩
  rw [hp.value_caseChange hc, height, height, hvalue]
  push_cast
  ring

/-- The guard changes by that of some case. -/
theorem WellFormed.exists_caseChange (k : Nat) (v : Valuation) {w : Outcome}
    (hw : w ∈ p.outcomes v v) : ∃ c ∈ p.cases p.guard,
      ((p.caseChange c).value k v : ℝ) = p.height w.state - p.height v := by
  obtain ⟨c, hc, hvalue⟩ := hp.sequential.exists_case hp.guard.canonical 0 v v hw
  rw [drawn_self] at hvalue
  refine ⟨c, hc, ?_⟩
  rw [hp.value_caseChange hc, height, height, hvalue]
  push_cast
  ring

end Cases

/-- A loop that is never entered does not run at all. -/
theorem WellFormed.survival_one_of_neverEntered (hp : p.WellFormed) (hf : p.IsFinite)
    (h : p.NeverEntered) : p.survival 1 = 0 := by
  have hnone : p.running 0 = [] := by
    apply List.filter_eq_nil_iff.mpr
    intro o ho
    have hallows := hp.initialPolarity_allows (hp.isInitial hf ho) hp.guard.canonical
    rw [decide_eq_true_eq]
    intro hpos
    have hmaybe := hallows.1 hpos
    rw [NeverEntered] at h
    simp [h] at hmaybe
  have hmass : (p.survival 1 : ℝ) = 0 := by
    rw [hp.survival_succ hf, mass, hnone]
    simp [Outcome.mean]
  exact_mod_cast hmass

end ProbLoop.Program
