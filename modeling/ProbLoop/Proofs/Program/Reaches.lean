import ProbLoop.Proofs.Program.WellFormed
import ProbLoop.Proofs.Survival

/-!
# Reachable states

The outcomes whose probabilities are kept are among the states that may be reached at all.
-/

set_option autoImplicit false

namespace ProbLoop

/-- The outcomes of assignments without draws are results of the assignments. -/
theorem Assignments.of_mem_outcomes {ds : List Declaration}
    (hf : ∀ d ∈ ds, d.update.branches?.isSome = true) (draws : Valuation) {os : List Outcome}
    {o : Outcome} (ho : o ∈ ds.foldl (fun os d => os.flatMap (d.outcomes draws)) os) :
    ∃ b ∈ os, Assignments ds b.state o.state := by
  induction ds generalizing os with
  | nil => exact ⟨o, ho, .done o.state⟩
  | cons d ds ih =>
    obtain ⟨hd, hds⟩ := List.forall_mem_cons.mp hf
    obtain ⟨c, hc, hafter⟩ := ih hds ho
    obtain ⟨b, hb, hc⟩ := List.mem_flatMap.mp hc
    refine ⟨b, hb, ?_⟩
    unfold Declaration.outcomes at hc
    split at hc
    · next hu => simp [hu, Update.branches?] at hd
    · next bs hu =>
      obtain ⟨x, hx, rfl⟩ := List.mem_map.mp hc
      apply Assignments.assign _ hafter
      rw [hu]
      exact ⟨x, hx, rfl⟩

/-- The outcomes of initial values are initial values. -/
theorem assigns_of_mem_initialOutcomes {ds : List Declaration}
    (hf : ∀ d ∈ ds, d.initial.branches?.isSome = true) (hs : ∀ d ∈ ds, d.initial.Starts)
    (hnodup : (ds.map Declaration.symbol).Nodup) {os : List Outcome} {o : Outcome}
    (ho : o ∈ ds.foldl (fun os d => os.flatMap d.initialOutcomes) os) :
    (∃ b ∈ os, ∀ s ∉ ds.map Declaration.symbol, o.state s = b.state s) ∧
      ∀ d ∈ ds, d.initial.Assigns o.state (o.state d.symbol) := by
  induction ds generalizing os with
  | nil => exact ⟨⟨o, ho, fun _ _ => rfl⟩, by simp⟩
  | cons d ds ih =>
    obtain ⟨hd, hds⟩ := List.forall_mem_cons.mp hf
    obtain ⟨hstart, hstarts⟩ := List.forall_mem_cons.mp hs
    rw [List.map_cons, List.nodup_cons] at hnodup
    obtain ⟨⟨c, hc, hkept⟩, hassigns⟩ := ih hds hstarts hnodup.2 ho
    obtain ⟨b, hb, hc⟩ := List.mem_flatMap.mp hc
    cases hu : d.initial with
    | random r => simp [hu, Update.branches?] at hd
    | branches bs =>
      rw [Declaration.initialOutcomes, hu] at hc
      obtain ⟨x, hx, rfl⟩ := List.mem_map.mp hc
      rw [hu] at hstart
      obtain ⟨q, hq⟩ := hstart.2 x hx
      constructor
      · refine ⟨b, hb, fun s hs => ?_⟩
        rw [List.map_cons, List.mem_cons, not_or] at hs
        rw [hkept s hs.2]
        exact if_neg hs.1
      · intro c hc
        rcases List.mem_cons.mp hc with rfl | hc
        · rw [hu]
          refine ⟨x, hx, ?_⟩
          rw [hkept c.symbol hnodup.1, hq, Expr.value_const, Expr.value_const]
          exact if_pos rfl
        · exact hassigns c hc

namespace Program

variable {p : Program}

theorem WellFormed.isInitial (hp : p.WellFormed) (hf : p.IsFinite) {o : Outcome}
    (ho : o ∈ p.initialOutcomes) : p.IsInitial o.state :=
  (assigns_of_mem_initialOutcomes (fun d hd => (hf d hd).1) hp.starts hp.nodup ho).2

/-- A state in which the loop may be after some iterations is reached by them. -/
theorem WellFormed.reaches (hp : p.WellFormed) (hf : p.IsFinite) {k : Nat} {o : Outcome}
    (ho : o ∈ p.survivors k) : p.Reaches k o.state := by
  induction k generalizing o with
  | zero => exact .start (hp.isInitial hf ho)
  | succ k ih =>
    obtain ⟨b, hb, ho⟩ := List.mem_flatMap.mp ho
    obtain ⟨w, hw, rfl⟩ := List.mem_map.mp ho
    obtain ⟨c, hc, hsteps⟩ := Assignments.of_mem_outcomes hf.updates b.state hw
    rw [List.mem_singleton.mp hc] at hsteps
    exact .next (ih (List.mem_filter.mp hb).1) hsteps

/-- A loop whose guard is positive in every state that it reaches goes on with certainty. -/
theorem WellFormed.survival_eq_one (hp : p.WellFormed) (hf : p.IsFinite)
    (h : ∀ k v, p.Reaches k v → 0 < p.guard.value 0 v) (k : Nat) : p.survival k = 1 := by
  induction k with
  | zero => exact hp.survival_zero hf
  | succ k ih =>
    have hall : p.running k = p.survivors k :=
      List.filter_eq_self.mpr fun o ho => decide_eq_true (h k o.state (hp.reaches hf ho))
    have hmass : (p.survival (k + 1) : ℝ) = p.survival k := by
      rw [hp.survival_succ hf, mass, hall, Outcome.mean_one, survival]
    rw [← ih]
    exact_mod_cast hmass

end Program

end ProbLoop
