import Mathlib.Analysis.Complex.Exponential
import ProbLoop.Proofs.Drift

/-!
# Loops that do not terminate

If the guard does not decrease in the mean and its changes are bounded, the mean number of
iterations is infinite, and if it increases in the mean by at least a constant, the loop diverges
with positive probability. Both hold of loops that go on with positive probability after any number
of iterations, and of no others.
-/

set_option autoImplicit false

namespace ProbLoop

namespace Program

variable {p : Program}

theorem WellFormed.survival_eq_zero (hp : p.WellFormed) (hf : p.IsFinite) {k n : Nat}
    (h : p.survival k = 0) (hle : k ≤ n) : p.survival n = 0 :=
  le_antisymm (h ▸ hp.survival_antitone hf hle) (hp.survival_nonneg hf n)

/-- A loop that certainly leaves within some number of iterations terminates in finite mean. -/
theorem WellFormed.terminatesInFiniteMean_of_survival (hp : p.WellFormed) (hf : p.IsFinite)
    {k : Nat} (h : p.survival k = 0) : p.TerminatesInFiniteMean := by
  apply summable_of_ne_finset_zero (s := Finset.range k)
  intro n hn
  have hle : k ≤ n := by simpa using hn
  rw [hp.survival_eq_zero hf h hle, Rat.cast_zero]

theorem TerminatesInFiniteMean.almostSurely (h : p.TerminatesInFiniteMean) :
    p.TerminatesAlmostSurely :=
  h.tendsto_atTop_zero

theorem WellFormed.survival_pos (hp : p.WellFormed) (hf : p.IsFinite)
    (h : ¬p.TerminatesInFiniteMean) (k : Nat) : 0 < p.survival k := by
  apply lt_of_le_of_ne (hp.survival_nonneg hf k)
  intro hzero
  exact h (hp.terminatesInFiniteMean_of_survival hf hzero.symm)

/-- A loop in which some outcome always goes on may run for any number of iterations. -/
theorem WellFormed.survival_pos_of_stays (hp : p.WellFormed) (hf : p.IsFinite)
    (hstart : p.running 0 ≠ [])
    (h : ∀ v, 0 < p.height v → ∃ w ∈ p.outcomes v v, 0 < p.height w.state) (k : Nat) :
    0 < p.survival k := by
  have hsome : ∀ k, ∃ o, o ∈ p.running k := by
    intro k
    induction k with
    | zero => exact List.exists_mem_of_ne_nil _ hstart
    | succ k ih =>
      obtain ⟨o, ho⟩ := ih
      obtain ⟨w, hw, hpos⟩ := h o.state (height_pos ho)
      refine ⟨⟨w.state, o.probability * w.probability⟩, List.mem_filter.mpr ⟨?_, ?_⟩⟩
      · exact List.mem_flatMap.mpr ⟨o, ho, List.mem_map_of_mem hw⟩
      · rw [height] at hpos
        exact decide_eq_true (by exact_mod_cast hpos)
  cases k with
  | zero => rw [hp.survival_zero hf]; exact one_pos
  | succ k =>
    obtain ⟨o, ho⟩ := hsome k
    have hprob : (0 : ℝ) < o.probability := by exact_mod_cast hp.running_pos hf o ho
    have hle := Outcome.le_mean_of_mem (f := fun _ => 1) (hp.running_pos hf)
      (fun _ _ => zero_le_one) ho
    have hmass : (0 : ℝ) < p.survival (k + 1) := by
      rw [hp.survival_succ hf, mass]
      linarith
    exact_mod_cast hmass

/-- Heights that change by at most `C` grow at most linearly. -/
theorem height_le_linear {N : Nat} {C : ℝ}
    (h : ∀ k, N ≤ k → ∀ o ∈ p.running k, ∀ w ∈ p.outcomes o.state o.state,
      |p.height w.state - p.height o.state| ≤ C) :
    ∃ K : ℝ, ∀ n : Nat, ∀ o ∈ p.running (N + n), p.height o.state ≤ K + C * n := by
  obtain ⟨K, hK⟩ := ((p.running N).map fun o => p.height o.state).finite_toSet.bddAbove
  refine ⟨K, fun n => ?_⟩
  induction n with
  | zero =>
    intro o ho
    rw [Nat.add_zero] at ho
    have hle : p.height o.state ≤ K := hK (List.mem_map.mpr ⟨o, ho, rfl⟩)
    rw [Nat.cast_zero, mul_zero, add_zero]
    exact hle
  | succ n ih =>
    intro o ho
    obtain ⟨b, hb, w, hw, hstate⟩ := running_succ (k := N + n) ho
    have hchange := le_of_abs_le (h (N + n) (Nat.le_add_right N n) b hb w hw)
    have hbefore := ih b hb
    rw [← hstate]
    push_cast
    linarith

/-- The mean of the guard where the loop goes on does not fall. -/
theorem WellFormed.height_le_stay (hp : p.WellFormed) (hf : p.IsFinite) {v : Valuation}
    (h : 0 ≤ p.meanChange v) : p.height v ≤ p.stay p.height v := by
  have hstay := hp.mean_le_stay hf (f := p.height) (fun _ hv => hv) v
  rw [meanChange] at h
  linarith

/-- A loop that goes on with a probability of the order of a harmonic series has an infinite mean
number of iterations. -/
theorem WellFormed.not_terminatesInFiniteMean (hp : p.WellFormed) (hf : p.IsFinite) {N : Nat}
    {a K C : ℝ} (ha : 0 < a) (h : ∀ n : Nat, a ≤ (K + C * n) * p.survival (N + n + 1)) :
    ¬p.TerminatesInFiniteMean := by
  intro hsum
  set D := |K| + |C| + 1
  have hD : 0 < D := by positivity
  have hle : ∀ n : Nat, a / D * (1 / ((n + 1 : Nat) : ℝ)) ≤ p.survival (n + (N + 1)) := by
    intro n
    have hs : (0 : ℝ) ≤ p.survival (N + n + 1) := by exact_mod_cast hp.survival_nonneg hf _
    have hn : (0 : ℝ) ≤ n := n.cast_nonneg
    have hK := le_abs_self K
    have hC := mul_le_mul_of_nonneg_right (le_abs_self C) hn
    have hlinear : K + C * n ≤ D * (n + 1) := by
      have hKn := mul_nonneg (abs_nonneg K) hn
      have hC0 := abs_nonneg C
      simp only [D]
      linarith
    have hbound := (h n).trans (mul_le_mul_of_nonneg_right hlinear hs)
    rw [show n + (N + 1) = N + n + 1 by omega, div_mul_div_comm, mul_one]
    push_cast
    rw [div_le_iff₀ (by positivity)]
    linarith
  have hshift := (summable_nat_add_iff (N + 1)).mpr hsum
  have hharmonic := Summable.of_nonneg_of_le (fun n => by positivity) hle hshift
  rw [summable_mul_left_iff (by positivity)] at hharmonic
  exact Real.not_summable_one_div_natCast
    ((summable_nat_add_iff (f := fun n : Nat => 1 / (n : ℝ)) 1).mp hharmonic)

/-- A guard that does not decrease in the mean and changes by at most a constant leads to infinitely
many iterations in the mean, unless the loop certainly leaves. -/
theorem WellFormed.terminatesInFiniteMean_iff_of_drift (hp : p.WellFormed) (hf : p.IsFinite)
    (hdrift : p.Ultimately fun _ v => 0 ≤ p.meanChange v) (hbounded : p.ChangesBounded) :
    ¬p.TerminatesInFiniteMean ↔ ∀ k, 0 < p.survival k := by
  constructor
  · exact hp.survival_pos hf
  · intro hs
    obtain ⟨C, hchanges⟩ := hbounded
    obtain ⟨N, hN⟩ := hdrift.and hchanges
    obtain ⟨K, hK⟩ := height_le_linear fun k hk o ho => (hN k hk o ho).2
    have hgrows := hp.mass_le_of_le_stay hf fun k hk o ho => hp.height_le_stay hf (hN k hk o ho).1
    have hpos : 0 < p.mass N p.height := hp.mass_pos hf (hs (N + 1)) fun o ho => height_pos ho
    apply hp.not_terminatesInFiniteMean hf hpos
    intro n
    rw [hp.survival_succ hf, ← mass_const_mul]
    apply (hgrows n).trans
    apply hp.mass_mono hf
    intro o ho
    rw [mul_one]
    exact hK n o ho

/-- The part of the height that cannot be lost: it is below one and grows with the height. -/
noncomputable def safety (p : Program) (θ : ℝ) (v : Valuation) : ℝ :=
  1 - Real.exp (-(θ * p.height v))

theorem safety_le_one (θ : ℝ) (v : Valuation) : p.safety θ v ≤ 1 :=
  sub_le_self 1 (Real.exp_nonneg _)

theorem safety_pos {θ : ℝ} (hθ : 0 < θ) {v : Valuation} (h : 0 < p.height v) :
    0 < p.safety θ v := by
  have hexp : Real.exp (-(θ * p.height v)) < 1 :=
    Real.exp_lt_one_iff.mpr (neg_lt_zero.mpr (mul_pos hθ h))
  rw [safety]
  linarith

theorem safety_nonpos {θ : ℝ} (hθ : 0 < θ) {v : Valuation} (h : p.height v ≤ 0) :
    p.safety θ v ≤ 0 := by
  have hexp : 1 ≤ Real.exp (-(θ * p.height v)) :=
    Real.one_le_exp (neg_nonneg.mpr (mul_nonpos_of_nonneg_of_nonpos hθ.le h))
  rw [safety]
  linarith

/-- For changes by at most `C` the safety does not fall in the mean if the height grows by at least
`ε` in the mean, as long as the exponent is small. -/
theorem WellFormed.safety_le_stay (hp : p.WellFormed) (hf : p.IsFinite) {θ C ε : ℝ} (hθ : 0 < θ)
    (hC : θ * C ≤ 1) (hε : θ * C ^ 2 ≤ ε) {v : Valuation} (hdrift : ε ≤ p.meanChange v)
    (hchanges : ∀ w ∈ p.outcomes v v, |p.height w.state - p.height v| ≤ C) :
    p.safety θ v ≤ p.stay (p.safety θ) v := by
  have hstay := hp.mean_le_stay hf (f := p.safety θ) (fun _ => safety_nonpos hθ) v
  apply le_trans _ hstay
  set h := p.height v
  set E := Real.exp (-(θ * h))
  -- the exponential of a small change is at most a linear function of the change
  have hexp : ∀ w ∈ p.outcomes v v,
      1 - E * (1 + θ * h + (θ * C) ^ 2) + E * θ * p.height w.state ≤ p.safety θ w.state := by
    intro w hw
    have hx := hchanges w hw
    have hsmall : |-(θ * (p.height w.state - h))| ≤ θ * C := by
      rw [abs_neg, abs_mul, abs_of_pos hθ]
      exact mul_le_mul_of_nonneg_left hx hθ.le
    have hquad := le_of_abs_le (Real.abs_exp_sub_one_sub_id_le (hsmall.trans hC))
    have hsq : (-(θ * (p.height w.state - h))) ^ 2 ≤ (θ * C) ^ 2 := by
      rw [← sq_abs]
      exact pow_le_pow_left₀ (abs_nonneg _) hsmall 2
    have hsplit : Real.exp (-(θ * p.height w.state))
        = Real.exp (-(θ * h)) * Real.exp (-(θ * (p.height w.state - h))) := by
      rw [← Real.exp_add]
      congr 1
      ring
    have hmul := mul_le_mul_of_nonneg_left
      (show Real.exp (-(θ * (p.height w.state - h))) ≤
        1 - θ * (p.height w.state - h) + (θ * C) ^ 2 by linarith) (Real.exp_nonneg (-(θ * h)))
    rw [safety, hsplit]
    linarith
  have hmean := Outcome.mean_mono (hp.outcomes_pos hf v)
    (f := fun w => 1 - E * (1 + θ * h + (θ * C) ^ 2) + E * θ * p.height w) hexp
  rw [hp.mean_outcomes_affine hf] at hmean
  have hgain : (θ * C) ^ 2 ≤ θ * p.meanChange v := by
    rw [mul_pow, sq θ, mul_assoc]
    exact mul_le_mul_of_nonneg_left (hε.trans hdrift) hθ.le
  have hE := mul_le_mul_of_nonneg_left hgain (Real.exp_nonneg (-(θ * h)))
  rw [safety]
  linarith

/-- A small enough exponent. -/
theorem exists_exponent {C ε : ℝ} (hC : 0 ≤ C) (hε : 0 < ε) :
    ∃ θ, 0 < θ ∧ θ * C ≤ 1 ∧ θ * C ^ 2 ≤ ε := by
  refine ⟨min (1 / (C + 1)) (ε / (C ^ 2 + 1)), by positivity, ?_, ?_⟩
  · have hle := mul_le_mul_of_nonneg_right (min_le_left (1 / (C + 1)) (ε / (C ^ 2 + 1))) hC
    apply hle.trans
    rw [one_div_mul_eq_div, div_le_one (by positivity)]
    linarith
  · have hle := mul_le_mul_of_nonneg_right
      (min_le_right (1 / (C + 1)) (ε / (C ^ 2 + 1))) (sq_nonneg C)
    apply hle.trans
    rw [div_mul_eq_mul_div, div_le_iff₀ (by positivity)]
    linarith

/-- A guard that increases in the mean by at least a constant and changes by at most a constant stays
positive forever with positive probability, unless the loop certainly leaves. -/
theorem WellFormed.terminatesAlmostSurely_iff_of_drift (hp : p.WellFormed) (hf : p.IsFinite)
    {ε : ℝ} (hε : 0 < ε) (hdrift : p.Ultimately fun _ v => ε ≤ p.meanChange v)
    (hbounded : p.ChangesBounded) : ¬p.TerminatesAlmostSurely ↔ ∀ k, 0 < p.survival k := by
  constructor
  · exact fun h => hp.survival_pos hf fun hsum => h hsum.almostSurely
  · intro hs hlimit
    obtain ⟨C, hchanges⟩ := hbounded
    obtain ⟨N, hN⟩ := hdrift.and hchanges
    obtain ⟨θ, hθ, hθC, hθε⟩ := exists_exponent (abs_nonneg C) hε
    have hstep : ∀ k, N ≤ k → ∀ o ∈ p.running k,
        p.safety θ o.state ≤ p.stay (p.safety θ) o.state := by
      intro k hk o ho
      apply hp.safety_le_stay hf hθ hθC hθε (hN k hk o ho).1
      exact fun w hw => ((hN k hk o ho).2 w hw).trans (le_abs_self C)
    have hgrows := hp.mass_le_of_le_stay hf hstep
    have hpos : 0 < p.mass N (p.safety θ) :=
      hp.mass_pos hf (hs (N + 1)) fun o ho => safety_pos hθ (height_pos ho)
    have hle : ∀ n, p.mass N (p.safety θ) ≤ p.survival (n + (N + 1)) := by
      intro n
      rw [show n + (N + 1) = N + n + 1 by omega, hp.survival_succ hf]
      exact (hgrows n).trans (hp.mass_mono hf fun o _ => safety_le_one θ o.state)
    have hshift := (Filter.tendsto_add_atTop_iff_nat (N + 1)).mpr hlimit
    exact absurd (ge_of_tendsto' hshift hle) (not_le.mpr hpos)

end Program

end ProbLoop
