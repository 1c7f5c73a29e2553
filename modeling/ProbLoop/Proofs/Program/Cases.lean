import ProbLoop.Proofs.Expr.Substitution
import ProbLoop.Proofs.Program.Execution
import ProbLoop.Proofs.Program.Sequential

/-!
# Cases of an expression

The values of the cases of an expression are those that it has after the outcomes of an iteration,
with the same probabilities. In particular each case is the value after some outcome, and the value
after each outcome is that of some case.
-/

set_option autoImplicit false

namespace ProbLoop

namespace Case

variable (ψ : Expr → ℝ)

/-- The mean of a function over cases. -/
def mean (cs : List Case) : ℝ :=
  (cs.map fun c => (c.probability : ℝ) * ψ c.value).sum

theorem mean_cons (c : Case) (cs : List Case) :
    mean ψ (c :: cs) = c.probability * ψ c.value + mean ψ cs := by
  rw [mean, List.map_cons, List.sum_cons, mean]

theorem mean_congr {ψ χ : Expr → ℝ} {cs : List Case} (h : ∀ c ∈ cs, ψ c.value = χ c.value) :
    mean ψ cs = mean χ cs :=
  congrArg List.sum (List.map_congr_left fun c hc => by rw [h c hc])

/-- The mean of a combination of functions is the combination of their means. -/
theorem mean_combination {ι : Type} (weight : ι → ℝ) (χ : ι → Expr → ℝ) (l : List ι)
    (cs : List Case) :
    mean (fun e => (l.map fun i => weight i * χ i e).sum) cs =
      (l.map fun i => weight i * mean (χ i) cs).sum := by
  induction cs with
  | nil => simp [mean]
  | cons c cs ih =>
    rw [mean_cons, ih, ← List.sum_map_mul_left, ← List.sum_map_add]
    refine congrArg List.sum (List.map_congr_left fun i _ => ?_)
    rw [mean_cons]
    ring

theorem mean_append (cs ds : List Case) : mean ψ (cs ++ ds) = mean ψ cs + mean ψ ds := by
  rw [mean, List.map_append, List.sum_append, mean, mean]

theorem mean_addTo (c : Case) (cs : List Case) :
    mean ψ (c.addTo cs) = c.probability * ψ c.value + mean ψ cs := by
  induction cs with
  | nil => rw [addTo, mean_cons]
  | cons d cs ih =>
    rw [addTo]
    split
    · next h =>
      rw [mean_cons, mean_cons, h]
      push_cast
      ring
    · rw [mean_cons, mean_cons, ih]
      ring

/-- Joining cases with equal values keeps every mean. -/
theorem mean_join (cs : List Case) : mean ψ (join cs) = mean ψ cs := by
  have hfold : ∀ (cs acc : List Case),
      mean ψ (cs.foldl (fun acc c => c.addTo acc) acc) = mean ψ acc + mean ψ cs := by
    intro cs
    induction cs with
    | nil => intro acc; simp [mean]
    | cons c cs ih =>
      intro acc
      rw [List.foldl_cons, ih, mean_addTo, mean_cons]
      ring
  rw [join, hfold]
  simp [mean]

theorem mean_flatMap (k : Case → List Case) (cs : List Case) :
    mean ψ (cs.flatMap k) = (cs.map fun c => mean ψ (k c)).sum := by
  induction cs with
  | nil => simp [mean]
  | cons c cs ih => rw [List.flatMap_cons, mean_append, ih, List.map_cons, List.sum_cons]

theorem mean_eq_zero {cs : List Case} (h : ∀ c ∈ cs, ψ c.value = 0) : mean ψ cs = 0 := by
  induction cs with
  | nil => simp [mean]
  | cons c cs ih =>
    obtain ⟨hc, hcs⟩ := List.forall_mem_cons.mp h
    rw [mean_cons, hc, mul_zero, zero_add, ih hcs]

theorem mean_nonneg {cs : List Case} (hprob : ∀ c ∈ cs, 0 < c.probability)
    (h : ∀ e, 0 ≤ ψ e) : 0 ≤ mean ψ cs := by
  apply List.sum_nonneg
  intro x hx
  obtain ⟨c, hc, rfl⟩ := List.mem_map.mp hx
  exact mul_nonneg (by exact_mod_cast (hprob c hc).le) (h c.value)

theorem mean_pos {cs : List Case} (hprob : ∀ c ∈ cs, 0 < c.probability) (h : ∀ e, 0 ≤ ψ e)
    {c : Case} (hc : c ∈ cs) (hpos : 0 < ψ c.value) : 0 < mean ψ cs := by
  obtain ⟨l, r, rfl⟩ := List.append_of_mem hc
  have hl := mean_nonneg ψ (fun d hd => hprob d (List.mem_append_left _ hd)) h
  have hr := mean_nonneg ψ (fun d (hd : d ∈ r) => hprob d (by simp [hd])) h
  have hprobc : (0 : ℝ) < c.probability := by exact_mod_cast hprob c hc
  have hterm := mul_pos hprobc hpos
  rw [mean_append, mean_cons]
  linarith

theorem mem_addTo {P : Case → Prop} {c : Case} {cs : List Case} (hc : P c) (h : ∀ d ∈ cs, P d)
    (hadd : ∀ d, P d → d.value = c.value → P ⟨d.value, d.probability + c.probability⟩) :
    ∀ d ∈ c.addTo cs, P d := by
  induction cs with
  | nil => simpa [addTo] using hc
  | cons d cs ih =>
    obtain ⟨hd, hcs⟩ := List.forall_mem_cons.mp h
    rw [addTo]
    split
    · next hvalue => exact List.forall_mem_cons.mpr ⟨hadd d hd hvalue, hcs⟩
    · exact List.forall_mem_cons.mpr ⟨hd, ih hcs⟩

theorem mem_join {P : Case → Prop} {cs : List Case} (h : ∀ c ∈ cs, P c)
    (hadd : ∀ c d, P c → P d → d.value = c.value → P ⟨d.value, d.probability + c.probability⟩) :
    ∀ c ∈ join cs, P c := by
  have hfold : ∀ (cs acc : List Case), (∀ c ∈ cs, P c) → (∀ c ∈ acc, P c) →
      ∀ c ∈ cs.foldl (fun acc c => c.addTo acc) acc, P c := by
    intro cs
    induction cs with
    | nil => exact fun acc _ hacc => hacc
    | cons c cs ih =>
      intro acc hcs hacc
      obtain ⟨hc, hcs⟩ := List.forall_mem_cons.mp hcs
      exact ih _ hcs (mem_addTo hc hacc fun d hd => hadd c d hc hd)
  exact hfold cs [] h (by simp)

/-- A case with a positive probability and a value over the given symbols. -/
def Proper (vars : List Symbol) (c : Case) : Prop :=
  0 < c.probability ∧ c.value.Over vars

end Case

namespace Program

section Unfold

variable {d : Declaration} {bs : List (Expr × Rat)}

/-- What substituting the branches of an update establishes holds of all cases. -/
theorem forall_unfoldVar {P Q : Expr → Prop} (hPQ : ∀ e, P e → Q e)
    (hd : ∀ bs, d.update = .branches bs → ∀ b ∈ bs, 0 < b.2 ∧
      ∀ e, P e → Q (e.subst d.symbol b.1))
    {cs : List Case} (h : ∀ c ∈ cs, 0 < c.probability ∧ P c.value) :
    ∀ c ∈ unfoldVar d cs, 0 < c.probability ∧ Q c.value := by
  have hkeep : ∀ c ∈ cs, 0 < c.probability ∧ Q c.value := fun c hc => (h c hc).imp_right (hPQ _)
  unfold unfoldVar
  split
  · exact hkeep
  · next bs hu =>
    apply Case.mem_join
    · intro c hc
      obtain ⟨a, ha, hc⟩ := List.mem_flatMap.mp hc
      unfold Case.unfold at hc
      split at hc
      · obtain ⟨b, hb, rfl⟩ := List.mem_map.mp hc
        obtain ⟨hpos, hsubst⟩ := hd bs hu b hb
        exact ⟨mul_pos (h a ha).1 hpos, hsubst a.value (h a ha).2⟩
      · rw [List.mem_singleton.mp hc]
        exact hkeep a ha
    · exact fun c a hc ha _ => ⟨add_pos ha.1 hc.1, ha.2⟩

/-- Unfolding a variable replaces each case by the mean of what the branches make of it. -/
theorem mean_unfoldVar_subst (hu : d.update = .branches bs) (hbs : IsChoice bs) (ψ : Expr → ℝ)
    (cs : List Case) :
    Case.mean ψ (unfoldVar d cs) =
      Case.mean (fun e => (bs.map fun b => (b.2 : ℝ) * ψ (e.subst d.symbol b.1)).sum) cs := by
  have hunfold : ∀ c : Case, Case.mean ψ (c.unfold d.symbol bs) =
      c.probability * (bs.map fun b => (b.2 : ℝ) * ψ (c.value.subst d.symbol b.1)).sum := by
    intro c
    unfold Case.unfold
    split
    · rw [Case.mean, List.map_map, ← List.sum_map_mul_left]
      refine congrArg List.sum (List.map_congr_left fun b _ => ?_)
      rw [Function.comp_apply]
      push_cast
      ring
    · next hm =>
      have hsame : ∀ b : Expr × Rat, c.value.subst d.symbol b.1 = c.value := fun b => if_neg hm
      simp only [hsame]
      rw [List.sum_map_mul_right, Declaration.sum_probabilities hbs, one_mul]
      simp [Case.mean]
  rw [unfoldVar, hu]
  simp only
  rw [Case.mean_join, Case.mean_flatMap]
  exact congrArg List.sum (List.map_congr_left fun c _ => hunfold c)

/-- Unfolding a variable takes the mean over its update. -/
theorem mean_unfoldVar (hu : d.update = .branches bs) (hbs : IsChoice bs) {cs : List Case}
    (h : ∀ c ∈ cs, c.value.Canonical) (φ : ℝ → ℝ) (n : Nat) (v : Valuation) :
    Case.mean (fun e => φ (e.value n v)) (unfoldVar d cs) =
      (bs.map fun b => (b.2 : ℝ) * Case.mean
        (fun e => φ (e.value n (v.set d.symbol (b.1.value n v)))) cs).sum := by
  rw [mean_unfoldVar_subst hu hbs, Case.mean_combination]
  refine congrArg List.sum (List.map_congr_left fun b _ => congrArg _ ?_)
  exact Case.mean_congr fun c hc => by
    rw [Expr.value_subst (h c hc) (Declaration.symbol_ne_counter d)]

end Unfold

/-- The cases of an expression when the variables of a list are unfolded, the last one first. -/
def casesFrom (ds : List Declaration) (e : Expr) : List Case :=
  ds.reverse.foldl (fun cs d => unfoldVar d cs) [⟨e, 1⟩]

theorem casesFrom_cons (d : Declaration) (ds : List Declaration) (e : Expr) :
    casesFrom (d :: ds) e = unfoldVar d (casesFrom ds e) := by
  rw [casesFrom, List.reverse_cons, List.foldl_append]
  rfl

theorem proper_casesFrom {ds : List Declaration} {vars : List Symbol}
    (hv : ∀ d ∈ ds, d.symbol ∈ vars) {earlier : List Symbol} (he' : ∀ s ∈ earlier, s ∈ vars)
    (hs : SolvableFrom earlier ds) {e : Expr} (he : e.Over vars) :
    ∀ c ∈ casesFrom ds e, c.Proper vars := by
  induction ds generalizing earlier with
  | nil =>
    intro c hc
    rw [List.mem_singleton.mp hc]
    exact ⟨one_pos, he⟩
  | cons d ds ih =>
    obtain ⟨hvd, hv⟩ := List.forall_mem_cons.mp hv
    have hearlier : ∀ s ∈ d.symbol :: earlier, s ∈ vars := List.forall_mem_cons.mpr ⟨hvd, he'⟩
    rw [casesFrom_cons]
    apply forall_unfoldVar (fun _ h => h) _ (ih hv hearlier hs.2)
    intro bs hu b hb
    have hsolvable := hs.1
    rw [hu] at hsolvable
    exact ⟨hsolvable.1.1 b hb, fun e he => he.subst ((hsolvable.2 b hb).reads.mono hearlier)⟩

theorem canonical_casesFrom {ds : List Declaration} {earlier : List Symbol}
    (hs : ReadsFrom earlier ds) {e : Expr} (he : e.Canonical) :
    ∀ c ∈ casesFrom ds e, 0 < c.probability ∧ c.value.Canonical := by
  induction ds generalizing earlier with
  | nil =>
    intro c hc
    rw [List.mem_singleton.mp hc]
    exact ⟨one_pos, he⟩
  | cons d ds ih =>
    rw [casesFrom_cons]
    apply forall_unfoldVar (fun _ h => h) _ (ih hs.2)
    intro bs hu b hb
    obtain ⟨hbs, hreads⟩ := hs.1 bs hu
    exact ⟨hbs.1 b hb, fun e he => he.subst (hreads b hb).1.canonical⟩

section Drawn

variable {ds : List Declaration} {draws v : Valuation}

/-- The given values, but those of the draws for the variables of a list that are drawn. -/
def drawnFrom (ds : List Declaration) (draws v : Valuation) : Valuation :=
  fun s => if ds.any (fun d => d.symbol == s && d.update.isRandom) then draws s else v s

@[simp] theorem drawnFrom_nil : drawnFrom [] draws v = v := by
  funext s
  simp [drawnFrom]

theorem drawnFrom_of_notMem {s : Symbol} (hs : s ∉ ds.map Declaration.symbol) :
    drawnFrom ds draws v s = v s := by
  have hnone : ds.any (fun d => d.symbol == s && d.update.isRandom) = false := by
    refine List.any_eq_false.mpr fun d hd => ?_
    have hne : d.symbol ≠ s := fun h => hs (h ▸ List.mem_map_of_mem hd)
    simp [hne]
  rw [drawnFrom, hnone]
  rfl

theorem drawnFrom_cons_of_random {d : Declaration} (hd : d.update.isRandom = true) :
    drawnFrom (d :: ds) draws v = drawnFrom ds draws (v.set d.symbol (draws d.symbol)) := by
  funext s
  simp only [drawnFrom, List.any_cons, hd, Bool.and_true, Valuation.set]
  by_cases hs : d.symbol = s
  · subst hs
    simp
  · have hs' : ¬s = d.symbol := fun h => hs h.symm
    simp [hs, hs']

theorem drawnFrom_cons_of_branches {d : Declaration} (hd : d.update.isRandom = false) :
    drawnFrom (d :: ds) draws v = drawnFrom ds draws v := by
  funext s
  simp [drawnFrom, hd]

theorem drawnFrom_set {s : Symbol} (hs : s ∉ ds.map Declaration.symbol) (q : Rat) :
    drawnFrom ds draws (v.set s q) = (drawnFrom ds draws v).set s q := by
  funext t
  by_cases ht : t = s
  · subst ht
    rw [drawnFrom_of_notMem hs]
    simp [Valuation.set]
  · simp [drawnFrom, Valuation.set, ht]

theorem isRandom_eq_any {p : Program} (hp : p.vars.Nodup) (s : Symbol) :
    p.isRandom s = p.declarations.any fun d => d.symbol == s && d.update.isRandom := by
  rw [Bool.eq_iff_iff, List.any_eq_true, isRandom, update?, declaration?]
  constructor
  · intro h
    obtain ⟨u, hu, hrandom⟩ := (Option.any_eq_true _ _).mp h
    obtain ⟨d, hfind, rfl⟩ := Option.map_eq_some_iff.mp hu
    refine ⟨d, List.mem_of_find?_eq_some hfind, ?_⟩
    have hs := List.find?_some hfind
    simp only [hrandom, Bool.and_true]
    exact hs
  · rintro ⟨d, hd, h⟩
    obtain ⟨hs, hrandom⟩ := Bool.and_eq_true_iff.mp h
    obtain rfl := beq_iff_eq.mp hs
    rw [find?_eq_some_of_nodup hp hd]
    exact hrandom

theorem drawn_eq_drawnFrom {p : Program} (hp : p.vars.Nodup) (draws v : Valuation) :
    p.drawn draws v = drawnFrom p.declarations draws v := by
  funext s
  rw [drawn, drawnFrom, isRandom_eq_any hp]

@[simp] theorem drawn_self (p : Program) (v : Valuation) : p.drawn v v = v := by
  funext s
  simp [drawn]

end Drawn

/-- Cases, with the draws for the variables that are drawn, and outcomes give the same mean to every
function of the value. -/
theorem mean_casesFrom {ds : List Declaration} {earlier : List Symbol} (hs : ReadsFrom earlier ds)
    (hn : (ds.map Declaration.symbol).Nodup)
    (hnew : ∀ s ∈ earlier, s ∉ ds.map Declaration.symbol) {e : Expr} (he : e.Canonical)
    (φ : ℝ → ℝ) (n : Nat) (draws v : Valuation) :
    Case.mean (fun e => φ (e.value n (drawnFrom ds draws v))) (casesFrom ds e) =
      Declaration.averages draws ds (fun w => φ (e.value n w)) v := by
  induction ds generalizing earlier v with
  | nil => simp [casesFrom, Case.mean, Declaration.averages]
  | cons d ds ih =>
    rw [List.map_cons, List.nodup_cons] at hn
    have hnew' : ∀ s ∈ d.symbol :: earlier, s ∉ ds.map Declaration.symbol :=
      List.forall_mem_cons.mpr ⟨hn.1, fun s hs' hmem =>
        hnew s hs' (List.mem_cons_of_mem _ hmem)⟩
    rw [casesFrom_cons, Declaration.averages, List.foldr_cons, ← Declaration.averages]
    cases hu : d.update with
    | random r =>
      rw [Declaration.average_of_random hu, ← ih hs.2 hn.2 hnew',
        drawnFrom_cons_of_random (by rw [hu]; rfl), unfoldVar, hu]
    | branches bs =>
      obtain ⟨hbs, hreads⟩ := hs.1 bs hu
      have hcanonical := canonical_casesFrom hs.2 he
      rw [Declaration.average_of_branches hu, drawnFrom_cons_of_branches (by rw [hu]; rfl),
        mean_unfoldVar hu hbs fun c hc => (hcanonical c hc).2]
      refine congrArg List.sum (List.map_congr_left fun b hb => ?_)
      obtain ⟨hwithin, hstill⟩ := hreads b hb
      -- The branch reads no variable that is assigned after it, so no draw of the rest.
      have hvalue : b.1.value n (drawnFrom ds draws v) = b.1.value 0 v := by
        rw [hstill.value_eq n 0]
        refine hwithin.value_congr (fun s hs' => drawnFrom_of_notMem fun hmem => ?_) 0
        obtain ⟨c, -, rfl⟩ := List.mem_map.mp hmem
        exact hnew' c.symbol (hs' rfl) hmem
      rw [hvalue, ← ih hs.2 hn.2 hnew', drawnFrom_set hn.1]

/-- Every outcome of an iteration is possible. -/
theorem outcomesFrom_pos {ds : List Declaration} {earlier : List Symbol}
    (hs : ReadsFrom earlier ds) (draws : Valuation) {os : List Outcome}
    (hos : ∀ o ∈ os, 0 < o.probability) :
    ∀ o ∈ ds.foldl (fun os d => os.flatMap (d.outcomes draws)) os, 0 < o.probability := by
  induction ds generalizing earlier os with
  | nil => exact hos
  | cons d ds ih =>
    apply ih hs.2
    intro o ho
    obtain ⟨a, ha, ho⟩ := List.mem_flatMap.mp ho
    cases hu : d.update with
    | random r =>
      rw [Declaration.outcomes, hu] at ho
      rw [List.mem_singleton.mp ho]
      exact hos a ha
    | branches bs =>
      rw [Declaration.outcomes, hu] at ho
      obtain ⟨b, hb, rfl⟩ := List.mem_map.mp ho
      exact mul_pos (hos a ha) ((hs.1 bs hu).1.1 b hb)

variable {p : Program}

theorem Sequential.outcomes_pos (hp : p.Sequential) (draws v : Valuation) :
    ∀ o ∈ p.outcomes draws v, 0 < o.probability :=
  outcomesFrom_pos hp.reads draws (by simp)

theorem WellFormed.proper_cases (hp : p.WellFormed) {e : Expr} (he : e.Over p.vars) :
    ∀ c ∈ p.cases e, c.Proper p.vars :=
  proper_casesFrom symbol_mem_vars (fun _ h => absurd h List.not_mem_nil) hp.solvable he

section Cases

variable (hp : p.Sequential) {e : Expr} (he : e.Canonical)
include hp he

theorem Sequential.canonical_cases :
    ∀ c ∈ p.cases e, 0 < c.probability ∧ c.value.Canonical :=
  canonical_casesFrom hp.reads he

/-- Cases and outcomes give the same mean to every function of the value. -/
theorem Sequential.mean_cases (φ : ℝ → ℝ) (n : Nat) (draws v : Valuation) :
    Case.mean (fun e => φ (e.value n (p.drawn draws v))) (p.cases e) =
      Outcome.mean (fun w => φ (e.value n w)) (p.outcomes draws v) := by
  rw [p.mean_outcomes, drawn_eq_drawnFrom hp.nodup]
  exact mean_casesFrom hp.reads hp.nodup (fun _ h => absurd h List.not_mem_nil) he φ n draws v

/-- Each case is the value after some outcome. -/
theorem Sequential.exists_outcome (n : Nat) (draws v : Valuation) {c : Case}
    (hc : c ∈ p.cases e) :
    ∃ w ∈ p.outcomes draws v, e.value n w.state = c.value.value n (p.drawn draws v) := by
  set u := p.drawn draws v
  by_contra hnone
  have hmean := hp.mean_cases he (fun x => if x = c.value.value n u then 1 else 0) n draws v
  have hzero : Outcome.mean
      (fun w => if (e.value n w : ℝ) = c.value.value n u then (1 : ℝ) else 0)
      (p.outcomes draws v) = 0 := by
    refine (Outcome.mean_congr fun w hw => ?_).trans (Outcome.mean_zero _)
    rw [if_neg]
    intro heq
    exact hnone ⟨w, hw, by exact_mod_cast heq⟩
  have hpos : 0 < Case.mean
      (fun d => if (d.value n u : ℝ) = c.value.value n u then (1 : ℝ) else 0) (p.cases e) := by
    apply Case.mean_pos _ (fun d hd => (hp.canonical_cases he d hd).1) _ hc
    · rw [if_pos rfl]
      exact one_pos
    · intro d
      split
      · exact zero_le_one
      · exact le_rfl
  linarith

/-- The value after each outcome is that of some case. -/
theorem Sequential.exists_case (n : Nat) (draws v : Valuation) {w : Outcome}
    (hw : w ∈ p.outcomes draws v) :
    ∃ c ∈ p.cases e, c.value.value n (p.drawn draws v) = e.value n w.state := by
  set u := p.drawn draws v
  have hpos := hp.outcomes_pos draws v
  by_contra hnone
  have hmean := hp.mean_cases he (fun x => if x = e.value n w.state then 1 else 0) n draws v
  have hzero : Case.mean
      (fun d => if (d.value n u : ℝ) = e.value n w.state then (1 : ℝ) else 0)
      (p.cases e) = 0 := by
    apply Case.mean_eq_zero
    intro c hc
    rw [if_neg]
    intro heq
    exact hnone ⟨c, hc, by exact_mod_cast heq⟩
  have hle := Outcome.le_mean_of_mem (f := fun u =>
    if (e.value n u : ℝ) = e.value n w.state then (1 : ℝ) else 0) hpos (fun u _ => by
      split
      · exact zero_le_one
      · exact le_rfl) hw
  rw [if_pos rfl, mul_one] at hle
  have hprob : (0 : ℝ) < w.probability := by exact_mod_cast hpos w hw
  linarith

end Cases

end Program

end ProbLoop
