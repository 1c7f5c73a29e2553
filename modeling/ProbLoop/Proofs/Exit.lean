import ProbLoop.Proofs.Drift

/-!
# Loops that terminate

States from which the loop may leave lose a fixed part of their mass in every iteration, so their
mass is summable over all iterations. A guard that does not increase in the mean, but may decrease
by at least a constant, leaves every bounded region and cannot escape upwards. A guard that decreases
in the mean by at least a constant leaves in finite mean if it does not fall too far below zero.
-/

set_option autoImplicit false

namespace ProbLoop

/-- What is lost in every step is summable if what is gained is. -/
theorem summable_of_descent {a b c : Nat → ℝ} (ha : ∀ k, 0 ≤ a k) (hb : ∀ k, 0 ≤ b k)
    (hc : ∀ k, 0 ≤ c k) (hsum : Summable c) (h : ∀ k, a (k + 1) + b k ≤ a k + c k) :
    Summable b := by
  apply summable_of_sum_range_le (c := a 0 + tsum c) hb
  intro n
  have htotal : a n + ∑ k ∈ Finset.range n, b k ≤ a 0 + ∑ k ∈ Finset.range n, c k := by
    induction n with
    | zero => simp
    | succ n ih =>
      rw [Finset.sum_range_succ, Finset.sum_range_succ]
      have hstep := h n
      linarith
  have hle := hsum.sum_le_tsum (Finset.range n) fun k _ => hc k
  have hn := ha n
  linarith

/-- What a quantity that never falls by itself has gained is at most what was added. -/
theorem le_add_tsum_of_descent {a c : Nat → ℝ} (hc : ∀ k, 0 ≤ c k) (hsum : Summable c)
    (h : ∀ k, a (k + 1) ≤ a k + c k) (n : Nat) : a n ≤ a 0 + tsum c := by
  have htotal : a n ≤ a 0 + ∑ k ∈ Finset.range n, c k := by
    induction n with
    | zero => simp
    | succ n ih =>
      rw [Finset.sum_range_succ]
      have hstep := h n
      linarith
  have hle := hsum.sum_le_tsum (Finset.range n) fun k _ => hc k
  linarith

namespace Program

variable {p : Program}

/-- The probability that the loop leaves after the next iteration. -/
noncomputable def leaving (p : Program) (v : Valuation) : ℝ :=
  Outcome.mean (fun w => if 0 < p.height w then 0 else 1) (p.outcomes v v)

theorem WellFormed.leaving_nonneg (hp : p.WellFormed) (hf : p.IsFinite) (v : Valuation) :
    0 ≤ p.leaving v := by
  apply Outcome.mean_nonneg (hp.outcomes_pos hf v)
  intro o _
  split
  · exact le_rfl
  · exact zero_le_one

theorem WellFormed.stay_one (hp : p.WellFormed) (hf : p.IsFinite) (v : Valuation) :
    p.stay (fun _ => 1) v + p.leaving v = 1 := by
  rw [stay, leaving, ← Outcome.mean_add]
  apply Eq.trans _ (hp.mean_outcomes_const hf 1 v)
  apply Outcome.mean_congr
  intro o _
  split <;> simp

/-- The probabilities with which the loop leaves add up to at most one. -/
theorem WellFormed.summable_leaving (hp : p.WellFormed) (hf : p.IsFinite) :
    Summable fun k => p.mass k p.leaving := by
  apply summable_of_descent (a := fun k => p.mass k fun _ => 1) (c := fun _ => 0)
  · exact fun k => hp.mass_nonneg hf fun _ _ => zero_le_one
  · exact fun k => hp.mass_nonneg hf fun o _ => hp.leaving_nonneg hf o.state
  · exact fun _ => le_rfl
  · exact summable_zero
  · intro k
    rw [mass_succ, ← mass_add, add_zero]
    exact hp.mass_mono hf fun o _ => (hp.stay_one hf o.state).le

/-- Some outcome leaves the loop. -/
def MayLeave (p : Program) (v : Valuation) : Prop :=
  ∃ w ∈ p.outcomes v v, p.height w.state ≤ 0

/-- Outcomes have probabilities of at least `q`. -/
def LeastProbability (p : Program) (q : ℝ) : Prop :=
  ∀ v, ∀ w ∈ p.outcomes v v, q ≤ w.probability

theorem WellFormed.exists_leastProbability (hp : p.WellFormed) (hf : p.IsFinite) :
    ∃ q : ℝ, 0 < q ∧ p.LeastProbability q := by
  obtain ⟨q, hq, hall⟩ := hp.outcomes_spec hf
  refine ⟨q, by exact_mod_cast hq, fun v w hw => ?_⟩
  exact_mod_cast (hall v v).1 w hw

/-- A function that is nowhere negative and at least one at some outcome has a mean of at least
`q`. -/
theorem WellFormed.le_mean_outcomes (hp : p.WellFormed) (hf : p.IsFinite) {q : ℝ}
    (hq : p.LeastProbability q) {v : Valuation} {f : Valuation → ℝ} (h : ∀ w, 0 ≤ f w)
    {w : Outcome} (hw : w ∈ p.outcomes v v) (hone : 1 ≤ f w.state) :
    q ≤ Outcome.mean f (p.outcomes v v) := by
  have hle := Outcome.le_mean_of_mem (hp.outcomes_pos hf v) (fun o _ => h o.state) hw
  have hprob : (0 : ℝ) < w.probability := by exact_mod_cast hp.outcomes_pos hf v w hw
  have hmul := mul_le_mul_of_nonneg_left hone hprob.le
  have hqw := hq v w hw
  linarith

theorem WellFormed.le_leaving (hp : p.WellFormed) (hf : p.IsFinite) {q : ℝ}
    (hq : p.LeastProbability q) {v : Valuation} (h : p.MayLeave v) : q ≤ p.leaving v := by
  obtain ⟨w, hw, hle⟩ := h
  apply hp.le_mean_outcomes hf hq _ hw
  · rw [if_neg (not_lt.mpr hle)]
  · intro u
    split
    · exact le_rfl
    · exact zero_le_one

/-- A loop that may leave in every iteration from some one on terminates in finite mean. -/
theorem WellFormed.terminatesInFiniteMean_of_mayLeave (hp : p.WellFormed) (hf : p.IsFinite)
    (h : p.Ultimately fun _ v => p.MayLeave v) : p.TerminatesInFiniteMean := by
  obtain ⟨N, hN⟩ := h
  obtain ⟨q, hq, hleast⟩ := hp.exists_leastProbability hf
  have hsum := (summable_nat_add_iff N).mpr (hp.summable_leaving hf)
  apply (summable_nat_add_iff (N + 1)).mp
  apply Summable.of_nonneg_of_le _ _ (hsum.mul_left q⁻¹)
  · intro k
    exact_mod_cast hp.survival_nonneg hf _
  · intro k
    rw [← Nat.add_assoc, hp.survival_succ hf, ← mass_const_mul]
    apply hp.mass_mono hf
    intro o ho
    rw [inv_mul_eq_div, le_div_iff₀ hq, one_mul]
    exact hp.le_leaving hf hleast (hN (k + N) (Nat.le_add_left N k) o ho)

/-- How far below zero the guard is in the mean after an iteration that leaves the loop. -/
noncomputable def shortfall (p : Program) (v : Valuation) : ℝ :=
  Outcome.mean (fun w => max (-p.height w) 0) (p.outcomes v v)

/-- The mean of how far below zero the guard is when the loop leaves is finite. -/
def LeavesNearZero (p : Program) : Prop :=
  Summable fun k => p.mass k p.shortfall

theorem WellFormed.shortfall_nonneg (hp : p.WellFormed) (hf : p.IsFinite) (v : Valuation) :
    0 ≤ p.shortfall v :=
  Outcome.mean_nonneg (hp.outcomes_pos hf v) fun _ _ => le_max_right _ _

/-- A guard that falls by at most a constant in each iteration leaves near zero. -/
theorem WellFormed.leavesNearZero_of_falls (hp : p.WellFormed) (hf : p.IsFinite) {C : ℝ}
    (h : p.Ultimately fun _ v => ∀ w ∈ p.outcomes v v, p.height v - C ≤ p.height w.state) :
    p.LeavesNearZero := by
  obtain ⟨N, hN⟩ := h
  have hleaving := (summable_nat_add_iff N).mpr (hp.summable_leaving hf)
  apply (summable_nat_add_iff N).mp
  apply Summable.of_nonneg_of_le _ _ (hleaving.mul_left |C|)
  · exact fun k => hp.mass_nonneg hf fun o _ => hp.shortfall_nonneg hf o.state
  · intro k
    rw [← mass_const_mul]
    apply hp.mass_mono hf
    intro o ho
    have hpos := height_pos ho
    rw [shortfall, leaving, ← Outcome.mean_const_mul]
    apply Outcome.mean_mono (hp.outcomes_pos hf o.state)
    intro w hw
    have hfall := hN (k + N) (Nat.le_add_left N k) o ho w hw
    by_cases hstay : 0 < p.height w.state
    · rw [if_pos hstay, mul_zero, max_eq_right (by linarith)]
    · rw [if_neg hstay, mul_one]
      apply max_le _ (abs_nonneg C)
      have habs := le_abs_self C
      linarith

theorem stay_height (v : Valuation) :
    p.stay p.height v = p.height v + p.meanChange v + p.shortfall v := by
  rw [meanChange, add_sub_cancel, shortfall, ← Outcome.mean_add, stay]
  apply Outcome.mean_congr
  intro o _
  by_cases h : 0 < p.height o.state
  · rw [if_pos h, max_eq_right (neg_nonpos.mpr h.le), add_zero]
  · rw [if_neg h, max_eq_left (neg_nonneg.mpr (not_lt.mp h)), add_neg_cancel]

/-- A guard that decreases in the mean by at least a constant leads to finitely many iterations in
the mean if the loop leaves near zero. -/
theorem WellFormed.terminatesInFiniteMean_of_drift (hp : p.WellFormed) (hf : p.IsFinite) {ε : ℝ}
    (hε : 0 < ε) (hdrift : p.Ultimately fun _ v => p.meanChange v ≤ -ε)
    (hleaves : p.LeavesNearZero) : p.TerminatesInFiniteMean := by
  obtain ⟨N, hN⟩ := hdrift
  have hshift := (summable_nat_add_iff (f := fun k => p.mass k p.shortfall) N).mpr hleaves
  have hdescent : Summable fun k => p.mass (k + N) fun _ => ε := by
    apply summable_of_descent (a := fun k => p.mass (k + N) p.height)
      (c := fun k => p.mass (k + N) p.shortfall)
    · exact fun k => hp.mass_nonneg hf fun o ho => (height_pos ho).le
    · exact fun k => hp.mass_nonneg hf fun _ _ => hε.le
    · exact fun k => hp.mass_nonneg hf fun o _ => hp.shortfall_nonneg hf o.state
    · exact hshift
    · intro k
      rw [Nat.add_right_comm, mass_succ, ← mass_add, ← mass_add]
      apply hp.mass_mono hf
      intro o ho
      have hle := hN (k + N) (Nat.le_add_left N k) o ho
      rw [stay_height]
      linarith
  apply (summable_nat_add_iff (N + 1)).mp
  have hscaled := hdescent.mul_left ε⁻¹
  apply hscaled.congr
  intro k
  rw [← Nat.add_assoc, hp.survival_succ hf, ← mass_const_mul, inv_mul_cancel₀ hε.ne']

/-- A function of the height that stays below one; heights far above `M` are close to it. -/
noncomputable def saturation (p : Program) (M : ℝ) (v : Valuation) : ℝ :=
  p.height v / (M + p.height v)

section Saturation

variable {M : ℝ} {v : Valuation}

theorem saturation_nonneg (hM : 0 < M) (h : 0 < p.height v) : 0 ≤ p.saturation M v :=
  div_nonneg h.le (add_pos hM h).le

theorem saturation_le_one (hM : 0 < M) (h : 0 < p.height v) : p.saturation M v ≤ 1 := by
  rw [saturation, div_le_one (add_pos hM h)]
  linarith

theorem saturation_le_div (hM : 0 < M) (h : 0 < p.height v) :
    p.saturation M v ≤ p.height v / M :=
  div_le_div_of_nonneg_left h.le hM (by linarith)

theorem one_le_two_mul_saturation (hM : 0 < M) (h : M ≤ p.height v) :
    1 ≤ 2 * p.saturation M v := by
  rw [saturation, mul_div_assoc', le_div_iff₀ (by linarith)]
  linarith

/-- The function is below its tangents, and by how much. -/
theorem saturation_tangent {x y : ℝ} (hM : 0 < M) (hx : 0 < x) (hy : 0 < y) :
    y / (M + y) = x / (M + x) + M / (M + x) ^ 2 * (y - x)
      - M * (y - x) ^ 2 / ((M + x) ^ 2 * (M + y)) := by
  field_simp
  ring

/-- What is lost below a tangent when the height falls by at least `ε`. -/
noncomputable def loss (p : Program) (M ε : ℝ) (v : Valuation) : ℝ :=
  M * ε ^ 2 / (M + p.height v) ^ 3

theorem loss_nonneg {ε : ℝ} (hM : 0 < M) (h : 0 < p.height v) : 0 ≤ p.loss M ε v := by
  have hadd := add_pos hM h
  rw [loss]
  positivity

theorem saturation_le_tangent {w : Valuation} {ε : ℝ} (hM : 0 < M) (hε : 0 < ε)
    (hv : 0 < p.height v) (hw : 0 < p.height w) :
    p.saturation M w ≤ p.saturation M v + M / (M + p.height v) ^ 2 * (p.height w - p.height v)
      - p.loss M ε v * (if p.height w ≤ p.height v - ε then 1 else 0) := by
  rw [saturation, saturation_tangent hM hv hw, ← saturation]
  have hMv := add_pos hM hv
  have hMw := add_pos hM hw
  by_cases hfall : p.height w ≤ p.height v - ε
  · rw [if_pos hfall, mul_one, loss]
    apply sub_le_sub_left
    have hsq : ε ^ 2 ≤ (p.height w - p.height v) ^ 2 := by nlinarith
    apply div_le_div₀ (by positivity) (mul_le_mul_of_nonneg_left hsq hM.le) (by positivity)
    rw [pow_succ (M + p.height v) 2]
    exact mul_le_mul_of_nonneg_left (by linarith) (by positivity)
  · rw [if_neg hfall, mul_zero]
    apply sub_le_sub_left
    positivity

/-- Where the loop cannot leave, the saturation falls in the mean. -/
theorem WellFormed.stay_saturation_le (hp : p.WellFormed) (hf : p.IsFinite) {q ε : ℝ}
    (hq : p.LeastProbability q) (hM : 0 < M) (hε : 0 < ε) (hv : 0 < p.height v)
    (hdrift : p.meanChange v ≤ 0)
    (hfall : ∃ w ∈ p.outcomes v v, p.height w.state ≤ p.height v - ε) (hstay : ¬p.MayLeave v) :
    p.stay (p.saturation M) v + q * p.loss M ε v ≤ p.saturation M v := by
  have hpositive : ∀ w ∈ p.outcomes v v, 0 < p.height w.state :=
    fun w hw => not_le.mp fun hle => hstay ⟨w, hw, hle⟩
  set slope := M / (M + p.height v) ^ 2
  have hslope : 0 ≤ slope := by
    have hMv := add_pos hM hv
    positivity
  have hmean := Outcome.mean_mono (hp.outcomes_pos hf v)
    (f := fun w => p.saturation M w
      + p.loss M ε v * (if p.height w ≤ p.height v - ε then 1 else 0))
    (g := fun w => (p.saturation M v - slope * p.height v) + slope * p.height w)
    fun w hw => by
      have htangent := saturation_le_tangent hM hε hv (hpositive w hw)
      linarith
  rw [hp.mean_outcomes_affine hf, Outcome.mean_add (p.saturation M),
    Outcome.mean_const_mul] at hmean
  have hleast : q ≤ Outcome.mean (fun w => if p.height w ≤ p.height v - ε then 1 else 0)
      (p.outcomes v v) := by
    obtain ⟨w, hw, hle⟩ := hfall
    apply hp.le_mean_outcomes hf hq _ hw
    · rw [if_pos hle]
    · intro u
      split
      · exact zero_le_one
      · exact le_rfl
  have hlost := mul_le_mul_of_nonneg_left hleast (loss_nonneg (ε := ε) hM hv)
  have hchange := mul_nonpos_of_nonneg_of_nonpos hslope hdrift
  have hsame : p.stay (p.saturation M) v = Outcome.mean (p.saturation M) (p.outcomes v v) := by
    apply Outcome.mean_congr
    intro w hw
    rw [if_pos (hpositive w hw)]
  rw [hsame]
  linarith

open Classical in
/-- The loss in a state from which the loop cannot leave at once. -/
noncomputable def innerLoss (p : Program) (ε : ℝ) (v : Valuation) : ℝ :=
  if p.MayLeave v then 0 else p.loss 1 ε v

theorem innerLoss_nonneg {ε : ℝ} (h : 0 < p.height v) : 0 ≤ p.innerLoss ε v := by
  rw [innerLoss]
  split
  · exact le_rfl
  · exact loss_nonneg one_pos h

/-- Where the loop may leave, what it gains is paid for by what leaves. -/
theorem WellFormed.stay_saturation_le_of_mayLeave (hp : p.WellFormed) (hf : p.IsFinite) {q : ℝ}
    (hq0 : 0 < q) (hq : p.LeastProbability q) (hM : 0 < M) (h : p.MayLeave v) :
    p.stay (p.saturation M) v ≤ q⁻¹ * p.leaving v := by
  have hone : p.stay (p.saturation M) v ≤ 1 := by
    apply le_trans _ (hp.mean_outcomes_const hf 1 v).le
    apply Outcome.mean_mono (hp.outcomes_pos hf v)
    intro w _
    by_cases hw : 0 < p.height w.state
    · rw [if_pos hw]
      exact saturation_le_one hM hw
    · rw [if_neg hw]
      exact zero_le_one
  apply hone.trans
  rw [inv_mul_eq_div, le_div_iff₀ hq0, one_mul]
  exact hp.le_leaving hf hq h

/-- The guard does not increase in the mean, and some outcome lowers it by at least `ε`. -/
def Falls (p : Program) (ε : ℝ) (v : Valuation) : Prop :=
  p.meanChange v ≤ 0 ∧ ∃ w ∈ p.outcomes v v, p.height w.state ≤ p.height v - ε

theorem WellFormed.stay_saturation_add_le (hp : p.WellFormed) (hf : p.IsFinite) {q ε : ℝ}
    (hq0 : 0 < q) (hq : p.LeastProbability q) (hM : 0 < M) (hv : 0 < p.height v) (hε : 0 < ε)
    (hfalls : p.Falls ε v) :
    p.stay (p.saturation M) v ≤ p.saturation M v + q⁻¹ * p.leaving v := by
  have hleaving := mul_nonneg (inv_nonneg.mpr hq0.le) (hp.leaving_nonneg hf v)
  by_cases h : p.MayLeave v
  · have hpaid := hp.stay_saturation_le_of_mayLeave hf hq0 hq hM h
    have hsat := saturation_nonneg hM hv
    linarith
  · have hstep := hp.stay_saturation_le hf hq hM hε hv hfalls.1 hfalls.2 h
    have hloss := mul_nonneg hq0.le (loss_nonneg (ε := ε) hM hv)
    linarith

theorem WellFormed.stay_saturation_add_innerLoss_le (hp : p.WellFormed) (hf : p.IsFinite)
    {q ε : ℝ} (hq0 : 0 < q) (hq : p.LeastProbability q) (hv : 0 < p.height v) (hε : 0 < ε)
    (hfalls : p.Falls ε v) :
    p.stay (p.saturation 1) v + q * p.innerLoss ε v ≤
      p.saturation 1 v + q⁻¹ * p.leaving v := by
  by_cases h : p.MayLeave v
  · have hle := hp.stay_saturation_add_le hf hq0 hq one_pos hv hε hfalls
    rw [innerLoss, if_pos h, mul_zero, add_zero]
    exact hle
  · have hleaving := mul_nonneg (inv_nonneg.mpr hq0.le) (hp.leaving_nonneg hf v)
    have hstep := hp.stay_saturation_le hf hq one_pos hε hv hfalls.1 hfalls.2 h
    rw [innerLoss, if_neg h]
    linarith

/-- A state is one from which the loop may leave, one of bounded height, or one of large height. -/
theorem WellFormed.one_le_parts (hp : p.WellFormed) (hf : p.IsFinite) {q ε : ℝ} (hq0 : 0 < q)
    (hq : p.LeastProbability q) (hM : 0 < M) (hv : 0 < p.height v) (hε : 0 < ε) :
    1 ≤ q⁻¹ * p.leaving v + (1 + M) ^ 3 / ε ^ 2 * p.innerLoss ε v + 2 * p.saturation M v := by
  have hleaving := mul_nonneg (inv_nonneg.mpr hq0.le) (hp.leaving_nonneg hf v)
  have hsat := saturation_nonneg hM hv
  have hinner : 0 ≤ (1 + M) ^ 3 / ε ^ 2 * p.innerLoss ε v :=
    mul_nonneg (by positivity) (innerLoss_nonneg hv)
  by_cases h : p.MayLeave v
  · have hpaid : 1 ≤ q⁻¹ * p.leaving v := by
      rw [inv_mul_eq_div, le_div_iff₀ hq0, one_mul]
      exact hp.le_leaving hf hq h
    linarith
  · rcases le_total M (p.height v) with hhigh | hlow
    · have htwo := one_le_two_mul_saturation hM hhigh
      linarith
    · have hone : 1 ≤ (1 + M) ^ 3 / ε ^ 2 * p.innerLoss ε v := by
        rw [innerLoss, if_neg h, loss, one_mul, div_mul_div_comm, le_div_iff₀ (by positivity),
          one_mul, mul_comm]
        apply mul_le_mul_of_nonneg_right _ (by positivity)
        exact pow_le_pow_left₀ (by positivity) (by linarith) 3
      linarith

end Saturation

section Falling

variable {q ε : ℝ} {N : Nat}

/-- The part of the mass that what leaves pays for. -/
noncomputable def payment (p : Program) (q : ℝ) (k : Nat) : ℝ :=
  q⁻¹ * p.mass k p.leaving

theorem WellFormed.payment_nonneg (hp : p.WellFormed) (hf : p.IsFinite) (hq0 : 0 < q) (k : Nat) :
    0 ≤ p.payment q k :=
  mul_nonneg (inv_nonneg.mpr hq0.le)
    (hp.mass_nonneg hf fun o _ => hp.leaving_nonneg hf o.state)

theorem WellFormed.summable_payment (hp : p.WellFormed) (hf : p.IsFinite) (q : ℝ) (K : Nat) :
    Summable fun k => p.payment q (k + K) :=
  (summable_nat_add_iff (f := p.payment q) K).mpr ((hp.summable_leaving hf).mul_left q⁻¹)

theorem WellFormed.summable_innerLoss (hp : p.WellFormed) (hf : p.IsFinite) (hq0 : 0 < q)
    (hq : p.LeastProbability q) (hε : 0 < ε)
    (h : ∀ k, N ≤ k → ∀ o ∈ p.running k, p.Falls ε o.state) :
    Summable fun k => p.mass k (p.innerLoss ε) := by
  apply (summable_nat_add_iff N).mp
  have hscaled : Summable fun k => q * p.mass (k + N) (p.innerLoss ε) := by
    apply summable_of_descent (a := fun k => p.mass (k + N) (p.saturation 1))
      (c := fun k => p.payment q (k + N))
    · exact fun k => hp.mass_nonneg hf fun o ho => saturation_nonneg one_pos (height_pos ho)
    · exact fun k => mul_nonneg hq0.le
        (hp.mass_nonneg hf fun o ho => innerLoss_nonneg (height_pos ho))
    · exact fun k => hp.payment_nonneg hf hq0 (k + N)
    · exact hp.summable_payment hf q N
    · intro k
      rw [Nat.add_right_comm, mass_succ, payment, ← mass_const_mul, ← mass_const_mul, ← mass_add,
        ← mass_add]
      apply hp.mass_mono hf
      intro o ho
      exact hp.stay_saturation_add_innerLoss_le hf hq0 hq (height_pos ho) hε
        (h (k + N) (Nat.le_add_left N k) o ho)
  exact (summable_mul_left_iff hq0.ne').mp hscaled

/-- Nothing escapes upwards: the saturation grows by at most what leaves pays for. -/
theorem WellFormed.mass_saturation_le (hp : p.WellFormed) (hf : p.IsFinite) (hq0 : 0 < q)
    (hq : p.LeastProbability q) (hε : 0 < ε)
    (h : ∀ k, N ≤ k → ∀ o ∈ p.running k, p.Falls ε o.state) {M : ℝ} (hM : 0 < M) (n : Nat) :
    p.mass (n + N) (p.saturation M) ≤
      p.mass N p.height / M + tsum fun k => p.payment q (k + N) := by
  have hstep : ∀ k, p.mass (k + 1 + N) (p.saturation M) ≤
      p.mass (k + N) (p.saturation M) + p.payment q (k + N) := by
    intro k
    rw [Nat.add_right_comm, mass_succ, payment, ← mass_const_mul, ← mass_add]
    apply hp.mass_mono hf
    intro o ho
    exact hp.stay_saturation_add_le hf hq0 hq hM (height_pos ho) hε
      (h (k + N) (Nat.le_add_left N k) o ho)
  have hstart : p.mass (0 + N) (p.saturation M) ≤ p.mass N p.height / M := by
    rw [Nat.zero_add, div_eq_inv_mul, ← mass_const_mul]
    apply hp.mass_mono hf
    intro o ho
    rw [← div_eq_inv_mul]
    exact saturation_le_div hM (height_pos ho)
  have hle := le_add_tsum_of_descent (a := fun n => p.mass (n + N) (p.saturation M))
    (fun k => hp.payment_nonneg hf hq0 (k + N)) (hp.summable_payment hf q N) hstep n
  exact hle.trans (add_le_add_left hstart _)

theorem WellFormed.mass_one_le_parts (hp : p.WellFormed) (hf : p.IsFinite) (hq0 : 0 < q)
    (hq : p.LeastProbability q) {M : ℝ} (hM : 0 < M) (hε : 0 < ε) (k : Nat) :
    p.mass k (fun _ => 1) ≤ p.payment q k
      + (1 + M) ^ 3 / ε ^ 2 * p.mass k (p.innerLoss ε) + 2 * p.mass k (p.saturation M) := by
  rw [payment, ← mass_const_mul, ← mass_const_mul, ← mass_const_mul, ← mass_add, ← mass_add]
  exact hp.mass_mono hf fun o ho => hp.one_le_parts hf hq0 hq hM (height_pos ho) hε

end Falling

/-- A guard that does not increase in the mean and may always fall by at least a constant leaves the
loop almost surely. -/
theorem WellFormed.terminatesAlmostSurely_of_falls (hp : p.WellFormed) (hf : p.IsFinite) {ε : ℝ}
    (hε : 0 < ε) (h : p.Ultimately fun _ v => p.Falls ε v) : p.TerminatesAlmostSurely := by
  obtain ⟨N, hN⟩ := h
  obtain ⟨q, hq0, hq⟩ := hp.exists_leastProbability hf
  have hlimit : Filter.Tendsto (fun k => p.mass k fun _ => 1) Filter.atTop (nhds 0) := by
    apply Metric.tendsto_atTop'.mpr
    intro η hη
    -- late enough, what leaves pays for little; high enough, little of the mass is saturated
    have htail := (tendsto_sum_nat_add (p.payment q)).eventually_lt_const
      (show (0 : ℝ) < η / 8 by positivity)
    obtain ⟨K, hKN, hK⟩ := ((Filter.eventually_ge_atTop N).and htail).exists
    set A := p.mass K p.height with hmass
    have hA : 0 ≤ A := hp.mass_nonneg hf fun o ho => (height_pos ho).le
    obtain ⟨M, hM, hAM⟩ : ∃ M, 0 < M ∧ A / M ≤ η / 8 := by
      refine ⟨8 * A / η + 1, by positivity, ?_⟩
      rw [div_le_iff₀ (by positivity)]
      have hmul : η / 8 * (8 * A / η + 1) = A + η / 8 := by
        field_simp
      linarith
    have hhigh := hp.mass_saturation_le hf hq0 hq hε (fun k hk => hN k (hKN.trans hk)) hM
    rw [← hmass] at hhigh
    -- the rest is summable, so it vanishes
    have hloss := (hp.summable_innerLoss hf hq0 hq hε hN).tendsto_atTop_zero
    have hpay := (hp.summable_payment hf q 0).tendsto_atTop_zero
    have hrest := hpay.add (hloss.const_mul ((1 + M) ^ 3 / ε ^ 2))
    rw [mul_zero, add_zero] at hrest
    have hsmall := hrest.eventually_lt_const (show (0 : ℝ) < η / 4 by positivity)
    obtain ⟨n, hn⟩ := (hsmall.and (Filter.eventually_ge_atTop K)).exists_forall_of_atTop
    refine ⟨n, fun k hk => ?_⟩
    obtain ⟨hk, hKk⟩ := hn k hk.le
    have hparts := hp.mass_one_le_parts hf hq0 hq hM hε k
    have hsat := hhigh (k - K)
    rw [Nat.sub_add_cancel hKk] at hsat
    rw [Nat.add_zero] at hk
    have hnonneg : 0 ≤ p.mass k fun _ => 1 := hp.mass_nonneg hf fun _ _ => zero_le_one
    rw [Real.dist_eq, sub_zero, abs_of_nonneg hnonneg]
    linarith
  apply (Filter.tendsto_add_atTop_iff_nat 1).mp
  exact hlimit.congr fun k => (hp.survival_succ hf k).symm

end Program

end ProbLoop
