import Mathlib.Data.Real.Basic
import Mathlib.Tactic.Linarith
import ProbLoop.Program.Execution
import ProbLoop.Proofs.Program.OneStep

/-!
# Means over the outcomes of an iteration

Finitely many outcomes carry all the probability of an iteration. The mean of a function over them is
taken one assignment after the other, and the mean after one iteration that is computed for an
expression is the mean of its values.
-/

set_option autoImplicit false

namespace ProbLoop

/-- Every choice of a loop is between finitely many expressions. -/
def Program.IsFinite (p : Program) : Prop :=
  ∀ d ∈ p.declarations, d.initial.branches?.isSome = true ∧ d.update.branches?.isSome = true

namespace Outcome

variable (f g : Valuation → ℝ)

/-- The sum of a function over outcomes, each with its probability. -/
def mean (os : List Outcome) : ℝ :=
  (os.map fun o => (o.probability : ℝ) * f o.state).sum

theorem mean_cons (o : Outcome) (os : List Outcome) :
    mean f (o :: os) = o.probability * f o.state + mean f os := by
  rw [mean, List.map_cons, List.sum_cons, mean]

theorem mean_append (os qs : List Outcome) : mean f (os ++ qs) = mean f os + mean f qs := by
  rw [mean, List.map_append, List.sum_append, mean, mean]

theorem mean_add (os : List Outcome) :
    mean (fun v => f v + g v) os = mean f os + mean g os := by
  rw [mean, mean, mean, ← List.sum_map_add]
  exact congrArg List.sum (List.map_congr_left fun o _ => mul_add _ _ _)

theorem mean_const_mul (c : ℝ) (os : List Outcome) :
    mean (fun v => c * f v) os = c * mean f os := by
  rw [mean, mean, ← List.sum_map_mul_left]
  exact congrArg List.sum (List.map_congr_left fun o _ => by ring)

theorem mean_zero (os : List Outcome) : mean (fun _ => 0) os = 0 := by
  have h := mean_const_mul (fun _ => 0) 0 os
  simpa using h

variable {f g}

theorem mean_congr {os : List Outcome} (h : ∀ o ∈ os, f o.state = g o.state) :
    mean f os = mean g os :=
  congrArg List.sum (List.map_congr_left fun o ho => by rw [h o ho])

theorem mean_mono {os : List Outcome} (hp : ∀ o ∈ os, 0 < o.probability)
    (h : ∀ o ∈ os, f o.state ≤ g o.state) : mean f os ≤ mean g os := by
  apply List.sum_le_sum
  intro o ho
  have hp' : (0 : ℝ) ≤ o.probability := by exact_mod_cast (hp o ho).le
  exact mul_le_mul_of_nonneg_left (h o ho) hp'

theorem mean_nonneg {os : List Outcome} (hp : ∀ o ∈ os, 0 < o.probability)
    (h : ∀ o ∈ os, 0 ≤ f o.state) : 0 ≤ mean f os := by
  rw [← mean_zero os]
  exact mean_mono hp h

/-- One outcome alone, if the function is nowhere negative. -/
theorem le_mean_of_mem {os : List Outcome} (hp : ∀ o ∈ os, 0 < o.probability)
    (h : ∀ o ∈ os, 0 ≤ f o.state) {o : Outcome} (ho : o ∈ os) :
    o.probability * f o.state ≤ mean f os := by
  induction os with
  | nil => exact absurd ho List.not_mem_nil
  | cons q os ih =>
    have hp' := List.forall_mem_cons.mp hp
    have h' := List.forall_mem_cons.mp h
    have hq : (0 : ℝ) ≤ q.probability := by exact_mod_cast hp'.1.le
    have hfirst := mul_nonneg hq h'.1
    have hrest := mean_nonneg hp'.2 h'.2
    rw [mean_cons]
    rcases List.mem_cons.mp ho with rfl | ho
    · linarith
    · have hmem := ih hp'.2 h'.2 ho
      linarith

theorem mean_one (os : List Outcome) : mean (fun _ => 1) os = total os := by
  induction os with
  | nil => simp [mean, total]
  | cons o os ih =>
    have htotal : total (o :: os) = o.probability + total os := rfl
    rw [mean_cons, ih, mul_one, htotal]
    push_cast
    rfl

theorem mean_flatMap (k : Outcome → List Outcome) (os : List Outcome) :
    mean f (os.flatMap k) = (os.map fun o => mean f (k o)).sum := by
  induction os with
  | nil => simp [mean]
  | cons o os ih => rw [List.flatMap_cons, mean_append, ih, List.map_cons, List.sum_cons]

theorem mean_filter (os : List Outcome) (keep : Valuation → Bool) :
    mean f (os.filter fun o => keep o.state) =
      mean (fun v => if keep v then f v else 0) os := by
  induction os with
  | nil => rfl
  | cons o os ih =>
    rw [mean_cons, ← ih, List.filter_cons]
    by_cases h : keep o.state = true
    · rw [if_pos h, if_pos h, mean_cons]
    · rw [if_neg h, if_neg h, mul_zero, zero_add]

theorem mean_scale (q : Rat) (os : List Outcome) :
    mean f (os.map fun o => ⟨o.state, q * o.probability⟩) = q * mean f os := by
  rw [mean, mean, List.map_map, ← List.sum_map_mul_left]
  refine congrArg List.sum (List.map_congr_left fun o _ => ?_)
  simp only [Function.comp_apply]
  push_cast
  ring

end Outcome

namespace Declaration

/-- The mean of a function over the values that a variable may be assigned, with the given draws. -/
def average (draws : Valuation) (d : Declaration) (f : Valuation → ℝ) (v : Valuation) : ℝ :=
  match d.update with
  | .branches bs => (bs.map fun b => (b.2 : ℝ) * f (v.set d.symbol (b.1.value 0 v))).sum
  | .random _ => f (v.set d.symbol (draws d.symbol))

/-- The same over the assignments of a list, the first one first. -/
def averages (draws : Valuation) (ds : List Declaration) (f : Valuation → ℝ) : Valuation → ℝ :=
  ds.foldr (average draws) f

variable {d : Declaration} {bs : List (Expr × Rat)}

theorem average_of_branches (h : d.update = .branches bs) (draws : Valuation)
    (f : Valuation → ℝ) (v : Valuation) :
    d.average draws f v =
      (bs.map fun b => (b.2 : ℝ) * f (v.set d.symbol (b.1.value 0 v))).sum := by
  rw [average, h]

theorem average_of_random {r : Distribution} (h : d.update = .random r) (draws : Valuation)
    (f : Valuation → ℝ) (v : Valuation) :
    d.average draws f v = f (v.set d.symbol (draws d.symbol)) := by
  rw [average, h]

theorem mean_outcomes (draws : Valuation) (f : Valuation → ℝ) (os : List Outcome) :
    Outcome.mean f (os.flatMap (d.outcomes draws)) = Outcome.mean (d.average draws f) os := by
  rw [Outcome.mean_flatMap, Outcome.mean]
  refine congrArg List.sum (List.map_congr_left fun o _ => ?_)
  cases hu : d.update with
  | random r => simp [average_of_random hu, Declaration.outcomes, hu, Outcome.mean]
  | branches bs =>
    rw [average_of_branches hu, Declaration.outcomes, hu, ← List.sum_map_mul_left]
    simp only [Outcome.choose, Outcome.mean, List.map_map]
    refine congrArg List.sum (List.map_congr_left fun b _ => ?_)
    simp only [Function.comp_apply]
    push_cast
    ring

theorem mean_foldl_outcomes (ds : List Declaration) (draws : Valuation) (f : Valuation → ℝ)
    (os : List Outcome) :
    Outcome.mean f (ds.foldl (fun os d => os.flatMap (d.outcomes draws)) os) =
      Outcome.mean (averages draws ds f) os := by
  induction ds generalizing os with
  | nil => rfl
  | cons d ds ih =>
    rw [List.foldl_cons, ih, mean_outcomes]
    rfl

section Value

variable {earlier : List Symbol} (n : Nat) (v : Valuation)

theorem symbol_ne_counter (d : Declaration) : d.symbol ≠ .counter := by simp [Declaration.symbol]

theorem sum_probabilities (hc : IsChoice bs) : (bs.map fun b => (b.2 : ℝ)).sum = 1 := by
  have h := congrArg (Rat.cast (K := ℝ)) hc.2
  rw [Rat.cast_list_sum, List.map_map] at h
  exact_mod_cast h

theorem value_moment (bs : List (Expr × Rat)) (k : Nat) :
    ((Update.branches bs).moment k).value n v =
      (bs.map fun b => b.2 * b.1.value n v ^ k).sum := by
  rw [Update.moment, Expr.value_sum, List.map_map]
  refine congrArg List.sum (List.map_congr_left fun b _ => ?_)
  rw [Function.comp_apply, Expr.value_scale, Expr.value_pow, mul_comm]

/-- The mean over one update that is computed is the mean of the values. -/
theorem value_meanVar (hu : d.update = .branches bs) (hd : d.update.Solvable d.symbol earlier)
    {e : Expr} (he : e.Canonical) :
    (Program.meanVar d e).value n v =
      (bs.map fun b => b.2 * e.value n (v.set d.symbol (b.1.value n v))).sum := by
  have hcounter := symbol_ne_counter d
  rw [hu] at hd
  have hm : ∀ m : Monomial, m.Canonical → Program.meanMonomial d (Monomial.value n v) m =
      (bs.map fun b => b.2 * m.value n (v.set d.symbol (b.1.value n v))).sum := by
    intro m hm
    rw [Program.meanMonomial, hu]
    split
    · next h0 =>
      have hsame : ∀ b ∈ bs, b.2 * m.value n (v.set d.symbol (b.1.value n v)) =
          b.2 * (m.without d.symbol).value n v := by
        intro b _
        rw [Monomial.value_set n v hm hcounter, h0, pow_zero, one_mul]
      rw [List.map_congr_left hsame, List.sum_map_mul_right, hd.1.2, one_mul]
    · have hlift : ((Update.branches bs).moment (m.powerOf d.symbol)).lift
          (fun k => Monomial.value n v (m.without d.symbol * k)) =
          (m.without d.symbol).value n v *
            ((Update.branches bs).moment (m.powerOf d.symbol)).value n v := by
        rw [Expr.value_eq_lift, ← Expr.lift_const_mul]
        exact Expr.lift_congr fun t _ => Monomial.value_mul n v _ _
      rw [hlift, value_moment, ← List.sum_map_mul_left]
      refine congrArg List.sum (List.map_congr_left fun b _ => ?_)
      rw [Monomial.value_set n v hm hcounter]
      ring
  have hcomb := Expr.lift_combination (fun b : Expr × Rat => b.2)
    (fun b => Monomial.value n (v.set d.symbol (b.1.value n v))) bs e
  rw [Expr.value_eq_lift, Program.lift_meanVar _ he]
  exact (Expr.lift_congr fun t ht => hm t.1 (he.monomials t ht)).trans hcomb

/-- The mean over the updates of a list that is computed is the mean of the values. -/
theorem value_meanVars {ds : List Declaration} {vars : List Symbol}
    (hf : ∀ d ∈ ds, d.update.branches?.isSome = true) (hv : ∀ d ∈ ds, d.symbol ∈ vars)
    (hcounter : Symbol.counter ∉ vars) {earlier : List Symbol} (he' : ∀ s ∈ earlier, s ∈ vars)
    (hs : SolvableFrom earlier ds) {e : Expr} (he : e.Over vars) (draws : Valuation) :
    (Program.meanVars ds e).Over vars ∧
      ((Program.meanVars ds e).value n v : ℝ) =
        averages draws ds (fun w => (e.value n w : ℝ)) v := by
  induction ds generalizing earlier v with
  | nil => exact ⟨he, rfl⟩
  | cons d ds ih =>
    obtain ⟨hfd, hf⟩ := List.forall_mem_cons.mp hf
    obtain ⟨hvd, hv⟩ := List.forall_mem_cons.mp hv
    have hearlier : ∀ s ∈ d.symbol :: earlier, s ∈ vars := List.forall_mem_cons.mpr ⟨hvd, he'⟩
    have hover := (ih v hf hv hearlier hs.2).1
    rw [Program.meanVars_cons]
    refine ⟨Program.over_meanVar hs.1 hearlier hover, ?_⟩
    cases hu : d.update with
    | random r => simp [hu, Update.branches?] at hfd
    | branches bs =>
      have hsolvable := hs.1
      rw [hu] at hsolvable
      rw [value_meanVar n v hu hs.1 hover.canonical, averages, List.foldr_cons,
        average_of_branches hu, Rat.cast_list_sum, List.map_map]
      refine congrArg List.sum (List.map_congr_left fun b hb => ?_)
      have hstill : b.1.Still :=
        ⟨(hsolvable.2 b hb).reads.canonical, ((hsolvable.2 b hb).reads.mono hearlier).isStill hcounter⟩
      rw [Function.comp_apply, hstill.value_eq n 0, ← averages, ← (ih _ hf hv hearlier hs.2).2]
      push_cast
      rfl

end Value

end Declaration

namespace Program

variable {p : Program}

theorem IsFinite.updates (hf : p.IsFinite) :
    ∀ d ∈ p.declarations, d.update.branches?.isSome = true :=
  fun d hd => (hf d hd).2

/-- The mean over the outcomes of an iteration, taken one assignment after the other. -/
theorem mean_outcomes (p : Program) (draws v : Valuation) (f : Valuation → ℝ) :
    Outcome.mean f (p.outcomes draws v) = Declaration.averages draws p.declarations f v := by
  rw [outcomes, Declaration.mean_foldl_outcomes]
  simp [Outcome.mean]

theorem counter_notMem_vars (p : Program) : Symbol.counter ∉ p.vars := by
  simp [vars, Declaration.symbol]

/-- The mean after one iteration that is computed is the mean over the outcomes. -/
theorem WellFormed.mean_value (hp : p.WellFormed) (hf : p.IsFinite) {e : Expr}
    (he : e.Over p.vars) (n : Nat) (draws v : Valuation) :
    Outcome.mean (fun w => (e.value n w : ℝ)) (p.outcomes draws v) =
      ((p.expectedNext e).value n v : ℝ) := by
  rw [p.mean_outcomes]
  exact (Declaration.value_meanVars n v hf.updates symbol_mem_vars p.counter_notMem_vars
    (fun _ h => absurd h List.not_mem_nil) hp.solvable he draws).2.symm

end Program

end ProbLoop
