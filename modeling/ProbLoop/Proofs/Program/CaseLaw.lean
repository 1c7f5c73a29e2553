import ProbLoop.Proofs.Program.Cases

/-!
# The law of the cases

The cases of an expression are its distribution after one iteration: their values are distinct, their
probabilities are positive and add up to one, and every number is taken with the same probability by
the cases and by the outcomes of running the loop body.
-/

set_option autoImplicit false

namespace ProbLoop

namespace Case

def total (cs : List Case) : Rat :=
  (cs.map (·.probability)).sum

theorem mean_one (cs : List Case) : mean (fun _ => 1) cs = total cs := by
  rw [mean, total, Rat.cast_list_sum, List.map_map]
  refine congrArg List.sum (List.map_congr_left fun c _ => ?_)
  simp

/-- The probability of the cases with a property is the mean of its indicator. -/
theorem mean_indicator (cs : List Case) (P : Expr → Prop) [DecidablePred P] :
    mean (fun e => if P e then 1 else 0) cs = total (cs.filter fun c => decide (P c.value)) := by
  rw [← mean_one]
  induction cs with
  | nil => simp [mean]
  | cons c cs ih =>
    rw [mean_cons, ih, List.filter_cons]
    by_cases h : P c.value
    · simp [h, mean_cons]
    · simp [h]

/-- Cases without two of the same value. -/
def Distinct (cs : List Case) : Prop :=
  (cs.map (·.value)).Nodup

theorem value_mem_addTo {c : Case} {cs : List Case} {e : Expr} :
    e ∈ (c.addTo cs).map (·.value) ↔ e = c.value ∨ e ∈ cs.map (·.value) := by
  induction cs with
  | nil => simp [addTo]
  | cons d cs ih =>
    rw [addTo]
    split
    · next h => simp [h]
    · rw [List.map_cons, List.mem_cons, ih, List.map_cons, List.mem_cons]
      exact or_left_comm

theorem Distinct.addTo {c : Case} {cs : List Case} (h : Distinct cs) : Distinct (c.addTo cs) := by
  induction cs with
  | nil => simp [Case.addTo, Distinct]
  | cons d cs ih =>
    obtain ⟨hd, hcs⟩ := List.nodup_cons.mp h
    rw [Case.addTo]
    split
    · exact List.nodup_cons.mpr ⟨hd, hcs⟩
    · next hne =>
      refine List.nodup_cons.mpr ⟨fun hmem => ?_, ih hcs⟩
      rcases value_mem_addTo.mp hmem with heq | hmem
      · exact hne heq
      · exact hd hmem

theorem distinct_join (cs : List Case) : Distinct (join cs) :=
  List.foldlRecOn cs _ List.nodup_nil fun _ hacc _ _ => Distinct.addTo hacc

end Case

/-- The probability of the outcomes with a property is the mean of its indicator. -/
theorem Outcome.mean_indicator (os : List Outcome) (P : Valuation → Prop) [DecidablePred P] :
    mean (fun v => if P v then 1 else 0) os = total (os.filter fun o => decide (P o.state)) := by
  rw [← mean_one, mean_filter os fun v => decide (P v)]
  exact mean_congr fun o _ => by simp

namespace Program

theorem distinct_casesFrom (ds : List Declaration) (e : Expr) :
    Case.Distinct (casesFrom ds e) := by
  induction ds with
  | nil => simp [casesFrom, Case.Distinct]
  | cons d ds ih =>
    rw [casesFrom_cons, unfoldVar]
    split
    · exact ih
    · exact Case.distinct_join _

/-- The probabilities of what a variable may be assigned add up to one. -/
theorem averages_one {ds : List Declaration} {earlier : List Symbol} (hs : ReadsFrom earlier ds)
    (draws v : Valuation) : Declaration.averages draws ds (fun _ => 1) v = 1 := by
  induction ds generalizing earlier v with
  | nil => rfl
  | cons d ds ih =>
    rw [Declaration.averages, List.foldr_cons, ← Declaration.averages]
    cases hu : d.update with
    | random r => rw [Declaration.average_of_random hu, ih hs.2]
    | branches bs =>
      have hone : ∀ b ∈ bs, (b.2 : ℝ) * Declaration.averages draws ds (fun _ => 1)
          (v.set d.symbol (b.1.value 0 v)) = b.2 := by
        intro b _
        rw [ih hs.2, mul_one]
      rw [Declaration.average_of_branches hu, List.map_congr_left hone,
        Declaration.sum_probabilities (hs.1 bs hu).1]

variable {p : Program}

section Law

variable (hp : p.Sequential) {e : Expr} (he : e.Canonical)
include hp he

/-- A number is the value of the cases with the same probability as of the outcomes. -/
theorem Sequential.total_cases (n : Nat) (draws v : Valuation) (q : Rat) :
    Case.total ((p.cases e).filter fun c => decide (c.value.value n (p.drawn draws v) = q)) =
      Outcome.total ((p.outcomes draws v).filter fun o => decide (e.value n o.state = q)) := by
  have hmean := hp.mean_cases he (fun x => if x = q then 1 else 0) n draws v
  simp only [Rat.cast_inj] at hmean
  rw [Case.mean_indicator, Outcome.mean_indicator] at hmean
  exact_mod_cast hmean

theorem Sequential.total_cases_eq_one : Case.total (p.cases e) = 1 := by
  have hmean := hp.mean_cases he (fun _ => 1) 0 0 0
  rw [Case.mean_one, p.mean_outcomes, averages_one hp.reads] at hmean
  exact_mod_cast hmean

theorem Sequential.cases_ne_nil : p.cases e ≠ [] := by
  intro hnil
  have htotal := hp.total_cases_eq_one he
  rw [hnil] at htotal
  exact zero_ne_one htotal

end Law

/-- A variable that grows by a draw or falls by one. -/
def jumping : Draft :=
  ⟨[("x", .deterministic .zero)],
    [("u", .random (.uniform 0 1)),
      ("x", .branches [(.ofSymbol (.var "x") + .ofSymbol (.var "u"), 1 / 2),
        (.ofSymbol (.var "x") - .const 1, 1 / 2)])],
    some (.ofSymbol (.var "x"))⟩

theorem canonical_jumping : jumping.Canonical := by
  intro u hu
  simp only [jumping, List.mem_cons, List.not_mem_nil, or_false] at hu
  rcases hu with rfl | rfl
  · intro bs hbs
    simp at hbs
  · intro bs hbs b hb
    obtain rfl := Update.branches.inj hbs
    simp only [List.mem_cons, List.not_mem_nil, or_false] at hb
    rcases hb with rfl | rfl
    · exact (Expr.canonical_ofSymbol _).add (Expr.canonical_ofSymbol _)
    · exact (Expr.canonical_ofSymbol _).sub (Expr.canonical_const 1)

end Program

end ProbLoop
