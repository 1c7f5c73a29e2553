import Mathlib
import ProbLoop.Proofs.Exit
import ProbLoop.Proofs.Holds
import ProbLoop.Proofs.Rules
import ProbLoop.Proofs.Source.Meaning

/-!
# Positive answers

A loop terminates as a verdict says if the bounds hold on which the verdict rests.
-/

set_option autoImplicit false

namespace ProbLoop.Program

variable {p : Program}

/-- The bounds on which positive answers rest hold, and deterministic variables have the values of
their closed forms. -/
structure DecreaseHolds (p : Program) : Prop where
  follows : p.Ultimately p.Follows
  change : p.UpperHolds p.settledChange
  counter : p.CounterHolds p.settledChange
  cases : ∀ c ∈ p.cases p.guard, p.UpperHolds (p.caseChange c)
  /-- Cases themselves are looked at if the guard does not decrease in the mean. -/
  exits : ¬p.Ranks → ∀ c ∈ p.cases p.guard, p.UpperHolds c.value

section Positive

variable (hp : p.WellFormed) (hf : p.IsFinite)
include hp hf

theorem WellFormed.terminates_of_neverEntered (h : p.NeverEntered) : p.TerminatesInFiniteMean :=
  hp.terminatesInFiniteMean_of_survival hf (hp.survival_one_of_neverEntered hf h)

/-- Some outcome lowers the guard at least as much as the mean. -/
theorem WellFormed.exists_fall {ε : ℝ} {v : Valuation} (h : p.meanChange v ≤ -ε) :
    ∃ w ∈ p.outcomes v v, p.height w.state ≤ p.height v - ε := by
  by_contra hnone
  have hpos := hp.outcomes_pos hf v
  have hnonneg : ∀ w ∈ p.outcomes v v, 0 ≤ p.height w.state - (p.height v - ε) := by
    intro w hw
    by_contra hneg
    exact hnone ⟨w, hw, by linarith⟩
  have hmean := hp.mean_outcomes_affine hf (-(p.height v - ε)) 1 v
  have hsome : ∃ w, w ∈ p.outcomes v v := by
    by_contra hempty
    have hnil : p.outcomes v v = [] :=
      List.eq_nil_iff_forall_not_mem.mpr fun w hw => hempty ⟨w, hw⟩
    have hone := hp.mean_outcomes_const hf 1 v
    rw [hnil] at hone
    simp [Outcome.mean] at hone
  obtain ⟨w, hw⟩ := hsome
  have hle := Outcome.le_mean_of_mem (f := fun u => -(p.height v - ε) + 1 * p.height u) hpos
    (fun u hu => by linarith [hnonneg u hu]) hw
  have hprob : (0 : ℝ) < w.probability := by exact_mod_cast hpos w hw
  have hstrict : 0 < p.height w.state - (p.height v - ε) := by
    by_contra hle
    exact hnone ⟨w, hw, by linarith⟩
  have hmul := mul_pos hprob hstrict
  rw [hmean] at hle
  nlinarith

section Holds

variable (h : p.DecreaseHolds)
include h

/-- A guard that was found to decrease in the mean does so. -/
theorem WellFormed.drift_of_ranks (hr : p.Ranks) :
    ∃ ε : ℝ, 0 < ε ∧ p.Ultimately fun _ v => p.meanChange v ≤ -ε := by
  obtain ⟨b, hb, hbelow⟩ := hr
  obtain ⟨ε, hε, hle⟩ := hp.ultimately_below hp.within_settledChange h.change hb hbelow
  refine ⟨ε, hε, ((hp.ultimately_meanChange hf h.follows).and hle).mono ?_⟩
  rintro k v ⟨heq, hvalue⟩
  rw [heq]
  exact hvalue

theorem WellFormed.falls_of_ranks (hr : p.Ranks) :
    ∃ ε : ℝ, 0 < ε ∧ p.Ultimately fun _ v => p.Falls ε v := by
  obtain ⟨ε, hε, hdrift⟩ := hp.drift_of_ranks hf h hr
  refine ⟨ε, hε, hdrift.mono fun k v hv => ⟨by linarith, hp.exists_fall hf hv⟩⟩

theorem WellFormed.falls_of_decreases (hd : p.Decreases) :
    ∃ ε : ℝ, 0 < ε ∧ p.Ultimately fun _ v => p.Falls ε v := by
  obtain ⟨hchange, c, hc, b, hb, hbelow⟩ := hd
  have hnonpositive := hp.ultimately_nonpositive hp.within_settledChange h.change h.counter hchange
  obtain ⟨ε, hε, hle⟩ := hp.ultimately_below (ProofRule.within_caseChange hp hc) (h.cases c hc)
    hb hbelow
  have hmean := (hp.ultimately_meanChange hf h.follows).and hnonpositive
  refine ⟨ε, hε, (hmean.and hle).mono ?_⟩
  rintro k v ⟨⟨heq, hdrift⟩, hfall⟩
  constructor
  · rw [heq]
    exact hdrift
  · obtain ⟨w, hw, hvalue⟩ := hp.exists_change hc k v
    exact ⟨w, hw, by linarith⟩

omit hf in
/-- A case that was found to be negative leaves the loop. -/
theorem WellFormed.mayLeave_of_exits (hr : ¬p.Ranks) (he : p.Exits) :
    p.Ultimately fun _ v => p.MayLeave v := by
  obtain ⟨c, hc, b, hb, hbelow⟩ := he
  have hover := (hp.proper_cases hp.guard c hc).2
  have hstill : c.value.Still := ⟨hover.canonical, hover.isStill p.counter_notMem_vars⟩
  obtain ⟨ε, hε, hle⟩ := hp.ultimately_below hover.within (h.exits hr c hc) hb hbelow
  apply hle.mono
  intro k v hvalue
  obtain ⟨w, hw, heq⟩ := hp.sequential.exists_outcome hp.guard.canonical 0 v v hc
  rw [drawn_self] at heq
  refine ⟨w, hw, ?_⟩
  rw [height, heq, hstill.value_eq 0 k]
  linarith

theorem WellFormed.terminatesAlmostSurely_of_evidence
    (hyes : p.NeverEntered ∨ p.Ranks ∨ p.Exits ∨ p.Decreases) : p.TerminatesAlmostSurely := by
  rcases hyes with hnever | hranks | hrest
  · exact (hp.terminates_of_neverEntered hf hnever).almostSurely
  · obtain ⟨ε, hε, hfalls⟩ := hp.falls_of_ranks hf h hranks
    exact hp.terminatesAlmostSurely_of_falls hf hε hfalls
  · by_cases hranks : p.Ranks
    · obtain ⟨ε, hε, hfalls⟩ := hp.falls_of_ranks hf h hranks
      exact hp.terminatesAlmostSurely_of_falls hf hε hfalls
    · rcases hrest with hexits | hdecreases
      · exact (hp.terminatesInFiniteMean_of_mayLeave hf
          (hp.mayLeave_of_exits h hranks hexits)).almostSurely
      · obtain ⟨ε, hε, hfalls⟩ := hp.falls_of_decreases hf h hdecreases
        exact hp.terminatesAlmostSurely_of_falls hf hε hfalls

theorem WellFormed.terminatesInFiniteMean_of_evidence
    (hyes : p.NeverEntered ∨ p.Ranks ∨ p.Exits) (hleaves : p.Ranks → p.LeavesNearZero) :
    p.TerminatesInFiniteMean := by
  by_cases hranks : p.Ranks
  · obtain ⟨ε, hε, hdrift⟩ := hp.drift_of_ranks hf h hranks
    exact hp.terminatesInFiniteMean_of_drift hf hε hdrift (hleaves hranks)
  · rcases hyes with hnever | hyes | hexits
    · exact hp.terminates_of_neverEntered hf hnever
    · exact absurd hyes hranks
    · exact hp.terminatesInFiniteMean_of_mayLeave hf (hp.mayLeave_of_exits h hranks hexits)

end Holds

end Positive

/-- A loop whose variable falls by two as often as it grows by one. -/
def drifting : Program :=
  ⟨[⟨"x", .deterministic (.const 3), .branches [(.ofSymbol (.var "x") - .const 2, 1 / 2),
    (.ofSymbol (.var "x") + .const 1, 1 / 2)]⟩], .ofSymbol (.var "x")⟩

theorem parse_drifting :
    parse "x = 3\nwhile x > 0:\n    x = x - 2 @ 1/2; x + 1\nend\n" = .ok drifting := by
  decide +kernel

theorem isFinite_drifting : drifting.IsFinite := by
  intro d hd
  rw [List.mem_singleton.mp hd]
  exact ⟨rfl, rfl⟩

theorem settledChange_drifting : drifting.settledChange = .const (-1 / 2) := by cbv

theorem caseChange_drifting {c : Case} (hc : c ∈ drifting.cases drifting.guard) :
    drifting.caseChange c = .const (-2) ∨ drifting.caseChange c = .const 1 := by
  have hchanges : (drifting.cases drifting.guard).map drifting.caseChange =
      [.const (-2), .const 1] := by cbv
  have hmem := List.mem_map_of_mem (f := drifting.caseChange) hc
  rw [hchanges] at hmem
  simpa using hmem

theorem ranks_drifting : drifting.Ranks := by
  refine ⟨.between (.const (-1 / 2)) (.const (-1 / 2)) (.const (-1 / 2)) (.of (-1 / 2)), ?_, ?_⟩
  · rw [settledChange_drifting]
    exact infers_const.mpr rfl
  · cbv

theorem decreaseHolds_drifting : drifting.DecreaseHolds where
  follows := by
    refine ⟨0, fun k _ o _ s hs hdet => ?_⟩
    have hprobabilistic : drifting.isProbabilistic (.var "x") = true := by cbv
    rw [List.mem_singleton.mp hs] at hdet
    exact absurd (hprobabilistic.symm.trans hdet) (by decide)
  change := settledChange_drifting ▸ upperHolds_const _
  counter := by
    intro _ _
    refine ⟨0, fun k _ o _ => ?_⟩
    show drifting.settledChange.value k o.state ≤ 0
    rw [settledChange_drifting, Expr.value_const]
    linarith
  cases := by
    intro c hc
    rcases caseChange_drifting hc with h | h <;> exact h ▸ upperHolds_const _
  exits := fun hnot => absurd ranks_drifting hnot

theorem leavesNearZero_drifting : drifting.LeavesNearZero := by
  have hw := wellFormed_of_parse parse_drifting
  apply hw.leavesNearZero_of_falls isFinite_drifting (C := 2)
  refine ⟨0, fun k _ o _ w hmem => ?_⟩
  obtain ⟨c, hc, hchange⟩ := hw.exists_caseChange k o.state hmem
  rcases caseChange_drifting hc with h | h
  · rw [h, Expr.value_const] at hchange
    push_cast at hchange
    linarith
  · rw [h, Expr.value_const] at hchange
    push_cast at hchange
    linarith

/-- A loop whose variable is drawn anew from two positive numbers. -/
def redrawn : Program :=
  ⟨[⟨"y", .deterministic (.const 1), .branches [(.const 3, 1 / 2), (.const 1, 1 / 2)]⟩],
    .ofSymbol (.var "y")⟩

theorem parse_redrawn :
    parse "y = 1\nwhile y > 0:\n    y = 3 @ 1/2; 1\nend\n" = .ok redrawn := by
  decide +kernel

theorem guard_redrawn {k : Nat} {v : Valuation} (h : redrawn.Reaches k v) :
    0 < redrawn.guard.value 0 v := by
  have hguard : redrawn.guard.value 0 v = v (.var "y") := Expr.value_ofSymbol 0 v _
  rw [hguard]
  induction h with
  | start hinitial =>
    obtain ⟨b, hb, hvalue⟩ := hinitial _ List.mem_cons_self
    rw [List.mem_singleton.mp hb] at hvalue
    rw [Declaration.symbol] at hvalue
    rw [hvalue, Expr.value_const]
    exact one_pos
  | next _ hstep _ =>
    cases hstep with
    | assign hassigned hafter =>
      cases hafter
      obtain ⟨b, hb, rfl⟩ := hassigned
      simp only [List.mem_cons, List.not_mem_nil, or_false] at hb
      rcases hb with rfl | rfl <;> simp [Declaration.symbol, Valuation.set]

end ProbLoop.Program
