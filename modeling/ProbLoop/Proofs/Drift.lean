import Mathlib.Analysis.PSeries
import ProbLoop.Proofs.Survival

/-!
# Drift

The mean change of the guard in an iteration, and properties that hold after enough iterations
wherever the loop goes on. A loop that survives forever with positive probability and one that does
not are told apart by the mass of functions that grow along the iterations.
-/

set_option autoImplicit false

namespace ProbLoop

namespace Program

variable {p : Program}

/-- Holds after enough iterations in every state in which the loop goes on. -/
def Ultimately (p : Program) (P : Nat → Valuation → Prop) : Prop :=
  ∃ N, ∀ k, N ≤ k → ∀ o ∈ p.running k, P k o.state

theorem Ultimately.mono {P Q : Nat → Valuation → Prop} (h : p.Ultimately P)
    (hPQ : ∀ k v, P k v → Q k v) : p.Ultimately Q := by
  obtain ⟨N, hN⟩ := h
  exact ⟨N, fun k hk o ho => hPQ k _ (hN k hk o ho)⟩

theorem Ultimately.and {P Q : Nat → Valuation → Prop} (hP : p.Ultimately P)
    (hQ : p.Ultimately Q) : p.Ultimately fun k v => P k v ∧ Q k v := by
  obtain ⟨N, hN⟩ := hP
  obtain ⟨M, hM⟩ := hQ
  refine ⟨max N M, fun k hk o ho => ?_⟩
  constructor
  · exact hN k (by omega) o ho
  · exact hM k (by omega) o ho

/-- The mean change of the guard in one iteration. -/
noncomputable def meanChange (p : Program) (v : Valuation) : ℝ :=
  Outcome.mean p.height (p.outcomes v v) - p.height v

/-- From some iteration on, the guard changes by at most a constant. -/
def ChangesBounded (p : Program) : Prop :=
  ∃ C : ℝ, p.Ultimately fun _ v =>
    ∀ w ∈ p.outcomes v v, |p.height w.state - p.height v| ≤ C

theorem WellFormed.outcomes_pos (hp : p.WellFormed) (hf : p.IsFinite) (v : Valuation) :
    ∀ o ∈ p.outcomes v v, 0 < o.probability := by
  obtain ⟨q, hq, hall⟩ := hp.outcomes_spec hf
  exact fun o ho => hq.trans_le ((hall v v).1 o ho)

theorem WellFormed.mean_outcomes_const (hp : p.WellFormed) (hf : p.IsFinite) (c : ℝ)
    (v : Valuation) : Outcome.mean (fun _ => c) (p.outcomes v v) = c := by
  obtain ⟨q, -, hall⟩ := hp.outcomes_spec hf
  have hconst := Outcome.mean_const_mul (fun _ => 1) c (p.outcomes v v)
  rw [Outcome.mean_one, (hall v v).2, Rat.cast_one, mul_one] at hconst
  simpa using hconst

theorem WellFormed.mean_outcomes_affine (hp : p.WellFormed) (hf : p.IsFinite) (a b : ℝ)
    (v : Valuation) :
    Outcome.mean (fun w => a + b * p.height w) (p.outcomes v v) =
      a + b * (p.height v + p.meanChange v) := by
  rw [Outcome.mean_add (fun _ => a) (fun w => b * p.height w), hp.mean_outcomes_const hf,
    Outcome.mean_const_mul, meanChange]
  ring

/-- Leaving out the states in which the loop stops does not lower a mean to which they contribute
nothing positive. -/
theorem WellFormed.mean_le_stay (hp : p.WellFormed) (hf : p.IsFinite) {f : Valuation → ℝ}
    (h : ∀ v, p.height v ≤ 0 → f v ≤ 0) (v : Valuation) :
    Outcome.mean f (p.outcomes v v) ≤ p.stay f v := by
  apply Outcome.mean_mono (hp.outcomes_pos hf v)
  intro o _
  by_cases hpos : 0 < p.height o.state
  · rw [if_pos hpos]
  · rw [if_neg hpos]
    exact h _ (not_lt.mp hpos)

/-- What does not fall in any iteration does not fall in a whole run. -/
theorem WellFormed.mass_le_of_le_stay (hp : p.WellFormed) (hf : p.IsFinite)
    {f : Valuation → ℝ} {N : Nat}
    (h : ∀ k, N ≤ k → ∀ o ∈ p.running k, f o.state ≤ p.stay f o.state) (n : Nat) :
    p.mass N f ≤ p.mass (N + n) f := by
  induction n with
  | zero => exact le_rfl
  | succ n ih =>
    rw [← Nat.add_assoc, mass_succ]
    exact ih.trans (hp.mass_mono hf (h (N + n) (Nat.le_add_right N n)))

theorem WellFormed.mass_pos (hp : p.WellFormed) (hf : p.IsFinite) {f : Valuation → ℝ} {k : Nat}
    (hs : 0 < p.survival (k + 1)) (h : ∀ o ∈ p.running k, 0 < f o.state) : 0 < p.mass k f := by
  have hmass : (0 : ℝ) < p.mass k fun _ => 1 := by
    rw [← hp.survival_succ hf]
    exact_mod_cast hs
  have hsome : ∃ o, o ∈ p.running k := by
    by_contra hnone
    have hempty : p.running k = [] :=
      List.eq_nil_iff_forall_not_mem.mpr fun o ho => hnone ⟨o, ho⟩
    rw [mass, hempty] at hmass
    simp [Outcome.mean] at hmass
  obtain ⟨o, ho⟩ := hsome
  have hprob : (0 : ℝ) < o.probability := by exact_mod_cast hp.running_pos hf o ho
  have hle := Outcome.le_mean_of_mem (hp.running_pos hf) (fun o ho => (h o ho).le) ho
  exact (mul_pos hprob (h o ho)).trans_le hle

/-- A state in which the loop goes on comes from one in which it went on before. -/
theorem running_succ {k : Nat} {o : Outcome} (ho : o ∈ p.running (k + 1)) :
    ∃ b ∈ p.running k, ∃ w ∈ p.outcomes b.state b.state, w.state = o.state := by
  obtain ⟨b, hb, ho⟩ := List.mem_flatMap.mp (List.mem_filter.mp ho).1
  obtain ⟨w, hw, rfl⟩ := List.mem_map.mp ho
  exact ⟨b, hb, w, hw, rfl⟩

/-- The probability that the loop runs for `k` iterations tends to zero. -/
def TerminatesAlmostSurely (p : Program) : Prop :=
  Filter.Tendsto (fun k => (p.survival k : ℝ)) Filter.atTop (nhds 0)

/-- The mean number of iterations, which is the sum of the probabilities that the loop runs for `k`
of them, is finite. -/
def TerminatesInFiniteMean (p : Program) : Prop :=
  Summable fun k => (p.survival k : ℝ)

theorem WellFormed.survival_nonneg (hp : p.WellFormed) (hf : p.IsFinite) (k : Nat) :
    0 ≤ p.survival k := by
  cases k with
  | zero => rw [hp.survival_zero hf]; exact zero_le_one
  | succ k =>
    have h : (0 : ℝ) ≤ p.survival (k + 1) := by
      rw [hp.survival_succ hf]
      exact hp.mass_nonneg hf fun _ _ => zero_le_one
    exact_mod_cast h

theorem WellFormed.survival_antitone (hp : p.WellFormed) (hf : p.IsFinite) :
    Antitone p.survival := by
  apply antitone_nat_of_succ_le
  intro k
  have hfilter := Outcome.mean_filter (f := fun _ => 1) (p.survivors k)
    fun v => decide (0 < p.guard.value 0 v)
  have hle : (p.survival (k + 1) : ℝ) ≤ p.survival k := by
    rw [hp.survival_succ hf, mass, running, hfilter, survival, ← Outcome.mean_one]
    apply Outcome.mean_mono fun o ho => hp.probability_pos hf ho
    intro o _
    split
    · exact le_rfl
    · exact zero_le_one
  exact_mod_cast hle

end Program

end ProbLoop
