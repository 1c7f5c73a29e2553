import Mathlib
import ProbLoop.Proofs.Holds
import ProbLoop.Proofs.Rules
import ProbLoop.Proofs.Source.Meaning

/-!
# Negative answers

A loop diverges as a verdict says if the bounds hold on which the verdict rests, and if it does not
leave with certainty before they do.
-/

set_option autoImplicit false

namespace ProbLoop.Program

open Analysis

variable {p : Program}

/-- The bounds on which negative answers rest hold, and deterministic variables have the values of
their closed forms. -/
structure IncreaseHolds (p : Program) : Prop where
  follows : p.Ultimately p.Follows
  change : p.UpperHolds (-p.settledChange)
  counter : p.CounterHolds (-p.settledChange)
  /-- The limit of the bound has a sign that does not depend on its constants. -/
  sign : ∀ b, p.Infers (-p.settledChange) b → ∀ a, (-b.upper).limit = .finite a → a.sign? ≠ none
  size : ∀ d, p.InfersSize d → ∃ σ : Valuation, σ.Admissible ∧
    p.Ultimately fun k v => ∀ c ∈ p.cases p.guard, |(p.caseChange c).value k v| ≤ d.value k σ

section Negative

variable (hp : p.WellFormed) (hf : p.IsFinite)
include hp

theorem WellFormed.within_of_infersSize {d : Expr} (h : p.InfersSize d) : d.Within [] := by
  obtain ⟨bs, sizes, hbs, hsizes, t, hd⟩ := h
  have hall : ∀ s ∈ sizes, s.Within [] := by
    intro s hs
    obtain ⟨b, hb, t, hrun⟩ := forall₂_exists_of_mem hsizes.flip s hs
    obtain ⟨c, hc, hinfers⟩ := forall₂_exists_of_mem hbs.flip b hb
    have hwithin := hp.within_of_infers (ProofRule.within_caseChange hp hc) hinfers
    have hensures := (Envelope.ensures_absoluteUpper hwithin).bind fun r hr =>
      Attempt.ensures_pure (a := r.1) hr
    exact (hensures t trivial).2 s hrun
  exact (Expr.ensures_eventualBound .up hall t trivial).2 d hd

section Holds

variable (h : p.IncreaseHolds)
include hf h

/-- A guard that was found not to decrease in the mean does not. -/
theorem WellFormed.drift_of_lingers (hl : p.Lingers) :
    p.Ultimately fun _ v => 0 ≤ p.meanChange v := by
  have hnonpositive := hp.ultimately_nonpositive hp.within_settledChange.neg h.change h.counter hl.1
  apply ((hp.ultimately_meanChange hf h.follows).and hnonpositive).mono
  rintro k v ⟨heq, hvalue⟩
  rw [Expr.value_neg] at hvalue
  push_cast at hvalue
  linarith

omit hf in
/-- Changes that were found to be bounded are bounded. -/
theorem WellFormed.changesBounded (hl : p.Lingers) : p.ChangesBounded := by
  obtain ⟨-, d, hd, hdominates⟩ := hl
  obtain ⟨σ, hσ, hsize⟩ := h.size d hd
  obtain ⟨C, hC⟩ := Expr.eventually_le_of_const_dominates (hp.within_of_infersSize hd).canonical hσ
    hdominates
  refine ⟨C, (hsize.and (ultimately_of_eventually hC)).mono ?_⟩
  rintro k v ⟨hcases, hbound⟩ w hw
  obtain ⟨c, hc, hchange⟩ := hp.exists_caseChange k v hw
  have hle : |((p.caseChange c).value k v : ℝ)| ≤ d.value k σ := by exact_mod_cast hcases c hc
  rw [hchange] at hle
  exact hle.trans hbound

/-- A guard that was found to increase in the mean by more than a function that vanishes increases by
at least a constant. -/
theorem WellFormed.drift_of_diverges (hd : p.Diverges) :
    ∃ ε : ℝ, 0 < ε ∧ p.Ultimately fun _ v => ε ≤ p.meanChange v := by
  obtain ⟨-, b, hb, hbounded, hnot⟩ := hd
  obtain ⟨σ, hσ, hupper⟩ := h.change b hb
  have hwithin := (hp.within_of_infers hp.within_settledChange.neg hb).upper.neg
  obtain ⟨ε, hε, hge⟩ := Expr.eventually_ge_of_not_dominates hwithin.canonical hσ (h.sign b hb)
    hbounded hnot
  refine ⟨ε, hε, (((hp.ultimately_meanChange hf h.follows).and hupper).and
    (ultimately_of_eventually hge)).mono ?_⟩
  rintro k v ⟨⟨heq, hvalue⟩, hbound⟩
  rw [Expr.value_neg] at hvalue hbound
  have hvalue' : -(p.settledChange.value k v : ℝ) ≤ b.upper.value k σ := by exact_mod_cast hvalue
  push_cast at hbound
  linarith

end Holds

end Negative

section Steps

variable {p : Program} {d : Drift} {rule : ProofRule} {v w : Verdict}

theorem tryRule_of_not_isApplicable (h : rule.isApplicable d = false) :
    p.tryRule d rule v = pure v := by
  rw [tryRule, if_neg (by simp [h])]

theorem tryRules_cons (h : p.tryRule d rule v = pure w) (rules : List ProofRule) :
    p.tryRules d (rule :: rules) v = if w.allKnown then pure w else p.tryRules d rules w := by
  rw [tryRules, h, pure_bind]

end Steps

/-- A loop whose variable grows by two as often as it falls by one. -/
def growing : Program :=
  ⟨[⟨"x", .deterministic (.const 1), .branches [(.ofSymbol (.var "x") + .const 2, 1 / 2),
    (.ofSymbol (.var "x") - .const 1, 1 / 2)]⟩], .ofSymbol (.var "x")⟩

theorem parse_growing :
    parse "x = 1\nwhile x > 0:\n    x = x + 2 @ 1/2; x - 1\nend\n" = .ok growing := by
  decide +kernel

theorem isFinite_growing : growing.IsFinite := by
  intro d hd
  rw [List.mem_singleton.mp hd]
  exact ⟨rfl, rfl⟩

theorem settledChange_growing : -growing.settledChange = .const (-1 / 2) := by cbv

theorem caseChanges_growing : (growing.cases growing.guard).map growing.caseChange =
    [.const 2, .const (-1)] := by cbv

theorem infersSize_growing {d : Expr} (h : growing.InfersSize d) : d = .const 2 := by
  obtain ⟨bs, sizes, hbs, hsizes, t, hd⟩ := h
  have hchanges : List.Forall₂ growing.Infers [.const 2, .const (-1)] bs := by
    rw [← caseChanges_growing]
    exact List.forall₂_map_left_iff.mpr hbs
  obtain ⟨b, bs, hb, hrest, rfl⟩ := List.forall₂_cons_left_iff.mp hchanges
  obtain ⟨c, cs, hc, hnil, rfl⟩ := List.forall₂_cons_left_iff.mp hrest
  obtain rfl := List.forall₂_nil_left_iff.mp hnil
  rw [infers_const] at hb hc
  subst hb hc
  obtain ⟨x, xs, ⟨s, hx⟩, hrest, rfl⟩ := List.forall₂_cons_left_iff.mp hsizes
  obtain ⟨y, ys, ⟨r, hy⟩, hnil, rfl⟩ := List.forall₂_cons_left_iff.mp hrest
  obtain rfl := List.forall₂_nil_left_iff.mp hnil
  have hx' : Except.ok x = (.ok (.const 2) : Except Error Expr) := hx.symm.trans (by cbv)
  have hy' : Except.ok y = (.ok (.const 1) : Except Error Expr) := hy.symm.trans (by cbv)
  obtain rfl := Except.ok.inj hx'
  obtain rfl := Except.ok.inj hy'
  have hd' : Except.ok d = (.ok (.const 2) : Except Error Expr) := hd.symm.trans (by cbv)
  exact Except.ok.inj hd'

theorem running_growing : growing.running 0 ≠ [] := by
  intro h
  have hlength : (growing.running 0).length = 1 := by decide +kernel
  simp [h] at hlength

theorem increaseHolds_growing : growing.IncreaseHolds where
  follows := by
    refine ⟨0, fun k _ o _ s hs hdet => ?_⟩
    have hprobabilistic : growing.isProbabilistic (.var "x") = true := by cbv
    rw [List.mem_singleton.mp hs] at hdet
    exact absurd (hprobabilistic.symm.trans hdet) (by decide)
  change := settledChange_growing ▸ upperHolds_const _
  counter := by
    intro _ _
    refine ⟨0, fun k _ o _ => ?_⟩
    show (-growing.settledChange).value k o.state ≤ 0
    rw [settledChange_growing, Expr.value_const]
    linarith
  sign := by
    intro b hb a ha
    rw [settledChange_growing, infers_const] at hb
    have hlimit : (-b.upper).limit = .finite (.const (1 / 2)) := by
      rw [hb]
      cbv
    rw [hlimit] at ha
    rw [← Limit.finite.inj ha, Expr.sign?_const]
    simp
  size := by
    intro d hd
    refine ⟨fun _ => 1, fun _ => one_pos, 0, fun k _ o _ c hc => ?_⟩
    rw [infersSize_growing hd, Expr.value_const]
    have hmem := List.mem_map_of_mem (f := growing.caseChange) hc
    rw [caseChanges_growing] at hmem
    simp only [List.mem_cons, List.not_mem_nil, or_false] at hmem
    rcases hmem with h | h
    · rw [h, Expr.value_const]
      exact abs_le.mpr ⟨by linarith, le_rfl⟩
    · rw [h, Expr.value_const]
      exact abs_le.mpr ⟨by linarith, by linarith⟩

theorem survival_growing (k : Nat) : 0 < growing.survival k := by
  have hw := wellFormed_of_parse parse_growing
  apply hw.survival_pos_of_stays isFinite_growing
  · exact running_growing
  · intro v hpos
    obtain ⟨c, hc, hchange⟩ : ∃ c ∈ growing.cases growing.guard,
        growing.caseChange c = .const 2 := by
      apply List.mem_map.mp
      rw [caseChanges_growing]
      exact List.mem_cons_self
    obtain ⟨w, hw, hheight⟩ := hw.exists_change hc 0 v
    refine ⟨w, hw, ?_⟩
    rw [hheight, hchange, Expr.value_const]
    push_cast
    linarith

/-- The changes of the guard are numbers, so bounding them draws no constants. -/
theorem envelopes_growing : ((growing.cases growing.guard).mapM fun c =>
    growing.envelopeOf (c.value - growing.guard)) =
      pure [.between (.const 2) (.const 2) (.const 2) (Polarity.of 2),
        .between (.const (-1)) (.const (-1)) (.const (-1)) (Polarity.of (-1))] := by
  have hmap : ((growing.cases growing.guard).mapM fun c =>
      growing.envelopeOf (c.value - growing.guard)) =
      ((growing.cases growing.guard).map growing.caseChange).mapM growing.envelopeOf := by
    rw [List.mapM_map]
    rfl
  rw [hmap, caseChanges_growing]
  simp only [List.mapM_cons, List.mapM_nil, envelopeOf_const, pure_bind]

theorem runRepulsing_growing :
    ProofRule.repulsing.run growing ⟨.const (1 / 2), .const (1 / 2)⟩ .start =
      pure (ProofRule.concludeRepulsing growing (.const (-1 / 2)) (.const 2) (.const (1 / 2))
        .start) := by
  have hchange : -Expr.const (1 / 2) = .const (-1 / 2) := by cbv
  have hinvariant : growing.isInvariant (.const (-1 / 2)) = pure .yes := by
    have hcounter : (Expr.const (-1 / 2)).freeSymbols.all Symbol.isCounter = true := by cbv
    have hyes : (Expr.const (-1 / 2)).isEventuallyNonpositive = .yes := by cbv
    rw [isInvariant, if_pos hcounter, hyes]
  have hpolarity : ([Envelope.between (.const 2) (.const 2) (.const 2) (Polarity.of 2),
      .between (.const (-1)) (.const (-1)) (.const (-1)) (Polarity.of (-1))].all
        (·.polarity.maybeNegative)) = false := by cbv
  have hsizes : drawing ([Envelope.between (.const 2) (.const 2) (.const 2) (Polarity.of 2),
      .between (.const (-1)) (.const (-1)) (.const (-1)) (Polarity.of (-1))].mapM fun b => do
        return (← b.absoluteUpper).1) = pure [.const 2, .const 1] := by
    funext a
    cbv
  have hsize : drawing (Expr.dominating [.const 2, .const 1]) = pure (.const 2) := by
    funext a
    cbv
  have hdecrease : -(Envelope.between (.const (-1 / 2)) (.const (-1 / 2)) (.const (-1 / 2))
      (Polarity.of (-1 / 2))).upper = .const (1 / 2) := by cbv
  unfold ProofRule.run ProofRule.runRepulsing
  simp only [hchange, hinvariant, envelopes_growing, envelopeOf_const, pure_bind, hpolarity, hsizes,
    hsize, hdecrease]
  rfl

theorem tryRules_growing :
    growing.tryRules ⟨.const (1 / 2), .const (1 / 2)⟩ ProofRule.all .start =
      pure (ProofRule.concludeRepulsing growing (.const (-1 / 2)) (.const 2) (.const (1 / 2))
        .start) := by
  have hinitial : ProofRule.initialState.run growing ⟨.const (1 / 2), .const (1 / 2)⟩ .start =
      pure .start := by
    have hmaybe : (growing.initialPolarity growing.guard).maybePositive = true := by cbv
    rw [ProofRule.run, ProofRule.runInitialState, hmaybe]
    rfl
  have hranking : ProofRule.ranking.isApplicable ⟨.const (1 / 2), .const (1 / 2)⟩ = false := by cbv
  have hdecreasing :
      ProofRule.supermartingale.isApplicable ⟨.const (1 / 2), .const (1 / 2)⟩ = false := by cbv
  have hrepulsing : ProofRule.repulsing.isApplicable ⟨.const (1 / 2), .const (1 / 2)⟩ = true := by
    cbv
  have hknown : (ProofRule.concludeRepulsing growing (.const (-1 / 2)) (.const 2)
      (.const (1 / 2)) .start).allKnown = true := by cbv
  rw [ProofRule.all, tryRules_cons (tryRule_of_run rfl hinitial), if_neg (by decide),
    tryRules_cons (tryRule_of_not_isApplicable hranking), if_neg (by decide),
    tryRules_cons (tryRule_of_not_isApplicable hdecreasing), if_neg (by decide),
    tryRules_cons (tryRule_of_run hrepulsing runRepulsing_growing), if_pos hknown]

theorem verdict_growing : ∃ v, (growing.verdict.run.run (.start ⟨0⟩)).1 = .ok v ∧
    v.past = .no ∧ v.ast = .no := by
  have hdrift : (growing.drift.run.run (.start ⟨0⟩)).1 =
      .ok ⟨.const (1 / 2), .const (1 / 2)⟩ := by cbv
  refine ⟨ProofRule.concludeRepulsing growing (.const (-1 / 2)) (.const 2) (.const (1 / 2)) .start,
    ?_, by cbv, by cbv⟩
  rw [verdict, verdictWith, ExceptT.run_bind, StateT.run_bind]
  cases hrun : growing.drift.run.run (.start ⟨0⟩) with
  | mk r a =>
    rw [hrun] at hdrift
    obtain rfl : r = _ := hdrift
    change ((growing.tryRules _ ProofRule.all .start).run.run a).1 = _
    rw [tryRules_growing]
    rfl

/-- A loop that certainly leaves after one iteration. -/
def dropped : Program :=
  ⟨[⟨"x", .deterministic (.const 5), .deterministic (.const 0)⟩], .ofSymbol (.var "x")⟩

theorem parse_dropped : parse "x = 5\nwhile x > 0:\n    x = 0\nend\n" = .ok dropped := by
  decide +kernel

end ProbLoop.Program
