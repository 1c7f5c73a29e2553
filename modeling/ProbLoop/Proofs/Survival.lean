import ProbLoop.Proofs.Program.Execution

/-!
# Running loops

The outcomes of an iteration have positive probabilities that are bounded below and add up to one. The
probability that a loop runs for one more iteration is therefore the mass of the states in which its
guard is positive.
-/

set_option autoImplicit false

namespace ProbLoop

theorem exists_lower_bound {l : List Rat} (h : ∀ x ∈ l, 0 < x) : ∃ q, 0 < q ∧ ∀ x ∈ l, q ≤ x := by
  induction l with
  | nil => exact ⟨1, one_pos, by simp⟩
  | cons y l ih =>
    obtain ⟨hy, hl⟩ := List.forall_mem_cons.mp h
    obtain ⟨q, hq, hle⟩ := ih hl
    refine ⟨min y q, lt_min hy hq, List.forall_mem_cons.mpr ⟨min_le_left y q, ?_⟩⟩
    exact fun x hx => (min_le_right y q).trans (hle x hx)

namespace Outcome

/-- A step that divides the probability of an outcome among others, giving each at least the part
`q`. -/
structure Divides (q : Rat) (step : Outcome → List Outcome) : Prop where
  least : ∀ o : Outcome, 0 < o.probability → ∀ x ∈ step o, q * o.probability ≤ x.probability
  total_eq : ∀ o : Outcome, total (step o) = o.probability

theorem total_append (os qs : List Outcome) : total (os ++ qs) = total os + total qs := by
  induction os with
  | nil => exact (zero_add _).symm
  | cons o os ih =>
    have hcons : ∀ rs, total (o :: rs) = o.probability + total rs := fun _ => rfl
    rw [List.cons_append, hcons, hcons, ih, add_assoc]

theorem divides_choose {bs : List (Expr × Rat)} (hc : IsChoice bs) (s : Symbol) :
    ∃ q, 0 < q ∧ Divides q fun o => o.choose s bs := by
  obtain ⟨q, hq, hle⟩ := exists_lower_bound (l := bs.map (·.2)) fun x hx => by
    obtain ⟨b, hb, rfl⟩ := List.mem_map.mp hx
    exact hc.1 b hb
  refine ⟨q, hq, fun o ho x hx => ?_, fun o => ?_⟩
  · obtain ⟨b, hb, rfl⟩ := List.mem_map.mp hx
    have hb := hle b.2 (List.mem_map_of_mem hb)
    rw [mul_comm]
    exact mul_le_mul_of_nonneg_left hb ho.le
  · have hsum : ∀ l : List (Expr × Rat),
        total (o.choose s l) = o.probability * (l.map (·.2)).sum := by
      intro l
      induction l with
      | nil => exact (mul_zero _).symm
      | cons b l ih =>
        rw [List.map_cons, List.sum_cons, mul_add, ← ih]
        rfl
    rw [hsum, hc.2, mul_one]

variable {α ι : Type} {step : α → ι → Outcome → List Outcome} {l : List ι}

/-- A list of steps divides what one outcome has, whatever the steps depend on. -/
theorem divides_foldl (h : ∀ i ∈ l, ∃ q, 0 < q ∧ ∀ a, Divides q (step a i)) :
    ∃ q, 0 < q ∧ ∀ (a : α) (os : List Outcome),
      (∀ c, 0 < c → (∀ o ∈ os, c ≤ o.probability) →
        ∀ x ∈ l.foldl (fun os i => os.flatMap (step a i)) os, q * c ≤ x.probability) ∧
      total (l.foldl (fun os i => os.flatMap (step a i)) os) = total os := by
  induction l with
  | nil => exact ⟨1, one_pos, fun a os => ⟨fun c _ h x hx => by simpa using h x hx, rfl⟩⟩
  | cons i l ih =>
    obtain ⟨⟨r, hr, hstep⟩, hl⟩ := List.forall_mem_cons.mp h
    obtain ⟨q, hq, hrest⟩ := ih hl
    refine ⟨q * r, mul_pos hq hr, fun a os => ⟨fun c hc hos x hx => ?_, ?_⟩⟩
    · have hbelow : ∀ y ∈ os.flatMap (step a i), r * c ≤ y.probability := by
        intro y hy
        obtain ⟨o, ho, hy⟩ := List.mem_flatMap.mp hy
        have hco := hos o ho
        exact (mul_le_mul_of_nonneg_left hco hr.le).trans
          ((hstep a).least o (hc.trans_le hco) y hy)
      have hle := (hrest a _).1 (r * c) (mul_pos hr hc) hbelow x hx
      rwa [mul_assoc]
    · have hflat : ∀ os : List Outcome, total (os.flatMap (step a i)) = total os := by
        intro os
        induction os with
        | nil => rfl
        | cons o os ih =>
          rw [List.flatMap_cons, total_append, ih, (hstep a).total_eq]
          rfl
      rw [List.foldl_cons, (hrest a _).2, hflat]

theorem divides_foldl_one (h : ∀ i ∈ l, ∃ q, 0 < q ∧ ∀ a, Divides q (step a i)) :
    ∃ q, 0 < q ∧ ∀ (a : α) (v : Valuation),
      (∀ x ∈ l.foldl (fun os i => os.flatMap (step a i)) [⟨v, 1⟩], q ≤ x.probability) ∧
      total (l.foldl (fun os i => os.flatMap (step a i)) [⟨v, 1⟩]) = 1 := by
  obtain ⟨q, hq, hall⟩ := divides_foldl h
  refine ⟨q, hq, fun a v => ⟨fun x hx => ?_, ?_⟩⟩
  · have hle := (hall a [⟨v, 1⟩]).1 1 one_pos (by simp) x hx
    rwa [mul_one] at hle
  · rw [(hall a _).2]
    simp [total]

end Outcome

namespace Program

variable {p : Program}

/-- The outcomes of an iteration have probabilities that are bounded below and add up to one. -/
theorem WellFormed.outcomes_spec (hp : p.WellFormed) (hf : p.IsFinite) :
    ∃ q, 0 < q ∧ ∀ draws v, (∀ o ∈ p.outcomes draws v, q ≤ o.probability) ∧
      Outcome.total (p.outcomes draws v) = 1 := by
  have hdivides : ∀ d ∈ p.declarations, ∃ q, 0 < q ∧
      ∀ draws : Symbol → Rat, Outcome.Divides q (d.outcomes draws) := by
    intro d hd
    obtain ⟨before, -, hsolvable⟩ := hp.solvable.exists_solvable d hd
    cases hu : d.update with
    | random r => simpa [hu, Update.branches?] using hf.updates d hd
    | branches bs =>
      rw [hu] at hsolvable
      obtain ⟨q, hq, hdivides⟩ := Outcome.divides_choose hsolvable.1 d.symbol
      refine ⟨q, hq, fun draws => ?_⟩
      have houtcomes : d.outcomes draws = fun o => o.choose d.symbol bs := by
        funext o
        rw [Declaration.outcomes, hu]
      rw [houtcomes]
      exact hdivides
  exact Outcome.divides_foldl_one hdivides

theorem WellFormed.initialOutcomes_spec (hp : p.WellFormed) (hf : p.IsFinite) :
    (∀ o ∈ p.initialOutcomes, 0 < o.probability) ∧ Outcome.total p.initialOutcomes = 1 := by
  have hdivides : ∀ d ∈ p.declarations, ∃ q, 0 < q ∧
      ∀ _ : Unit, Outcome.Divides q d.initialOutcomes := by
    intro d hd
    have hstarts := hp.starts d hd
    cases hu : d.initial with
    | random r => simpa [hu, Update.branches?] using (hf d hd).1
    | branches bs =>
      rw [hu] at hstarts
      obtain ⟨q, hq, hdivides⟩ := Outcome.divides_choose hstarts.1 d.symbol
      refine ⟨q, hq, fun _ => ?_⟩
      have houtcomes : d.initialOutcomes = fun o => o.choose d.symbol bs := by
        funext o
        rw [Declaration.initialOutcomes, hu]
      rw [houtcomes]
      exact hdivides
  obtain ⟨q, hq, hall⟩ := Outcome.divides_foldl_one hdivides
  obtain ⟨hle, htotal⟩ := hall () (fun _ => 0)
  exact ⟨fun o ho => hq.trans_le (hle o ho), htotal⟩

/-- The outcomes of the first `k` iterations in which the loop goes on. -/
def running (p : Program) (k : Nat) : List Outcome :=
  (p.survivors k).filter fun o => decide (0 < p.guard.value 0 o.state)

/-- The value of the guard in a state. -/
noncomputable def height (p : Program) (v : Valuation) : ℝ := p.guard.value 0 v

/-- The sum of a function over the states in which the loop goes on after `k` iterations. -/
noncomputable def mass (p : Program) (k : Nat) (f : Valuation → ℝ) : ℝ := Outcome.mean f (p.running k)

/-- The mean of a function in the next iteration, as far as the loop goes on after it. -/
noncomputable def stay (p : Program) (f : Valuation → ℝ) (v : Valuation) : ℝ :=
  Outcome.mean (fun w => if 0 < p.height w then f w else 0) (p.outcomes v v)

theorem height_pos {k : Nat} {o : Outcome} (ho : o ∈ p.running k) : 0 < p.height o.state := by
  have h := (List.mem_filter.mp ho).2
  rw [decide_eq_true_eq] at h
  rw [height]
  exact_mod_cast h

theorem WellFormed.probability_pos (hp : p.WellFormed) (hf : p.IsFinite) {k : Nat} {o : Outcome}
    (ho : o ∈ p.survivors k) : 0 < o.probability := by
  induction k generalizing o with
  | zero => exact (hp.initialOutcomes_spec hf).1 o ho
  | succ k ih =>
    obtain ⟨q, hq, hall⟩ := hp.outcomes_spec hf
    obtain ⟨b, hb, ho⟩ := List.mem_flatMap.mp ho
    obtain ⟨x, hx, rfl⟩ := List.mem_map.mp ho
    exact mul_pos (ih (List.mem_filter.mp hb).1) (hq.trans_le ((hall _ _).1 x hx))

theorem WellFormed.running_pos (hp : p.WellFormed) (hf : p.IsFinite) {k : Nat} :
    ∀ o ∈ p.running k, 0 < o.probability :=
  fun _ ho => hp.probability_pos hf (List.mem_filter.mp ho).1

theorem mean_survivors_succ (f : Valuation → ℝ) (k : Nat) :
    Outcome.mean f (p.survivors (k + 1)) =
      p.mass k fun v => Outcome.mean f (p.outcomes v v) := by
  rw [mass, Outcome.mean, survivors, ← running]
  change Outcome.mean f ((p.running k).flatMap p.continuations) = _
  rw [Outcome.mean_flatMap]
  refine congrArg List.sum (List.map_congr_left fun o _ => ?_)
  exact Outcome.mean_scale o.probability (p.outcomes o.state o.state)

/-- The mass after one more iteration. -/
theorem mass_succ (f : Valuation → ℝ) (k : Nat) : p.mass (k + 1) f = p.mass k (p.stay f) := by
  have hfilter := Outcome.mean_filter (f := f) (p.survivors (k + 1))
    fun v => decide (0 < p.guard.value 0 v)
  rw [mass, running, hfilter, mean_survivors_succ]
  have hstay : ∀ v, p.stay f v = Outcome.mean
      (fun w => if decide (0 < p.guard.value 0 w) = true then f w else 0) (p.outcomes v v) := by
    intro v
    apply Outcome.mean_congr
    intro o _
    simp [height]
  exact congrArg (p.mass k) (funext fun v => (hstay v).symm)

/-- The loop runs for `k + 1` iterations if it goes on after `k`. -/
theorem WellFormed.survival_succ (hp : p.WellFormed) (hf : p.IsFinite) (k : Nat) :
    (p.survival (k + 1) : ℝ) = p.mass k fun _ => 1 := by
  obtain ⟨q, -, hall⟩ := hp.outcomes_spec hf
  rw [survival, ← Outcome.mean_one, mean_survivors_succ]
  apply Outcome.mean_congr
  intro o _
  rw [Outcome.mean_one, (hall _ _).2, Rat.cast_one]

theorem WellFormed.survival_zero (hp : p.WellFormed) (hf : p.IsFinite) : p.survival 0 = 1 :=
  (hp.initialOutcomes_spec hf).2

section Mass

variable {f g : Valuation → ℝ} {k : Nat}

theorem WellFormed.mass_mono (hp : p.WellFormed) (hf : p.IsFinite)
    (h : ∀ o ∈ p.running k, f o.state ≤ g o.state) : p.mass k f ≤ p.mass k g :=
  Outcome.mean_mono (hp.running_pos hf) h

theorem WellFormed.mass_nonneg (hp : p.WellFormed) (hf : p.IsFinite)
    (h : ∀ o ∈ p.running k, 0 ≤ f o.state) : 0 ≤ p.mass k f :=
  Outcome.mean_nonneg (hp.running_pos hf) h

theorem mass_add : (p.mass k fun v => f v + g v) = p.mass k f + p.mass k g :=
  Outcome.mean_add f g _

theorem mass_const_mul (c : ℝ) : (p.mass k fun v => c * f v) = c * p.mass k f :=
  Outcome.mean_const_mul f c _

end Mass

end Program

end ProbLoop
