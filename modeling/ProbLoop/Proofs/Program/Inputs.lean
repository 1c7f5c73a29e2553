import ProbLoop.Proofs.Program.Cases

/-!
# What an iteration reads

A variable that no branch of its update mentions is written before anything reads it. So the values after
an iteration depend on the draws of the iteration and on the old values of the other variables alone.
-/

set_option autoImplicit false

namespace ProbLoop

/-- A variable that is drawn, or that some branch computes from its own value. -/
def Declaration.isInput (d : Declaration) : Bool :=
  match d.update with
  | .random _ => true
  | .branches bs => bs.any fun b => b.1.mentions d.symbol

namespace Expr

variable {vars more : List Symbol} {e : Expr}

theorem Over.of_mem (he : e.Over vars)
    (h : ∀ t ∈ e.terms, ∀ q ∈ t.1.powers, q.1 ∈ vars → q.1 ∈ more) : e.Over more := by
  refine ⟨he.toOrdered, fun t ht => ?_⟩
  have hm := he.monomials t ht
  exact ⟨hm.toCanonical, hm.base_eq_one, fun q hq => h t ht q hq (hm.mem_vars q hq)⟩

end Expr

namespace Program

/-- The symbols that may be left when the variables of a list have been unfolded. -/
def inputsFrom (vars : List Symbol) (ds : List Declaration) : List Symbol :=
  vars.filter fun s => ds.all fun d => d.symbol != s || d.isInput

theorem mem_inputsFrom {vars : List Symbol} {ds : List Declaration} {s : Symbol} :
    s ∈ inputsFrom vars ds ↔ s ∈ vars ∧ ∀ d ∈ ds, d.symbol = s → d.isInput = true := by
  rw [inputsFrom, List.mem_filter, List.all_eq_true]
  refine and_congr_right fun _ => forall₂_congr fun d _ => ?_
  simp only [Bool.or_eq_true, bne_iff_ne, ne_eq]
  exact ⟨fun h heq => h.resolve_left (fun hne => hne heq), fun h => or_iff_not_imp_left.mpr
    fun hne => h (not_not.mp hne)⟩

/-- The variables whose values an iteration reads, and those that it draws. -/
def inputs (p : Program) : List Symbol := inputsFrom p.vars p.declarations

theorem over_inputs_casesFrom {ds : List Declaration} {vars : List Symbol}
    (hv : ∀ d ∈ ds, d.symbol ∈ vars) (hn : (ds.map Declaration.symbol).Nodup)
    {earlier : List Symbol} (he' : ∀ s ∈ earlier, s ∈ vars ∧ s ∉ ds.map Declaration.symbol)
    (hs : SolvableFrom earlier ds) {e : Expr} (he : e.Over vars) :
    ∀ c ∈ casesFrom ds e, c.value.Over (inputsFrom vars ds) := by
  induction ds generalizing earlier with
  | nil =>
    intro c hc
    rw [List.mem_singleton.mp hc]
    exact he.mono fun s hs => mem_inputsFrom.mpr ⟨hs, by simp⟩
  | cons d ds ih =>
    obtain ⟨hvd, hv⟩ := List.forall_mem_cons.mp hv
    rw [List.map_cons, List.nodup_cons] at hn
    have hearlier : ∀ s ∈ d.symbol :: earlier, s ∈ vars ∧ s ∉ ds.map Declaration.symbol :=
      List.forall_mem_cons.mpr ⟨⟨hvd, hn.1⟩, fun s hs =>
        ⟨(he' s hs).1, fun hmem => (he' s hs).2 (List.mem_cons_of_mem _ hmem)⟩⟩
    have hcases := ih hv hn.2 hearlier hs.2
    have hkeep : ∀ s ∈ inputsFrom vars ds, (s = d.symbol → d.isInput = true) →
        s ∈ inputsFrom vars (d :: ds) := by
      intro s hs hd
      obtain ⟨hmem, hall⟩ := mem_inputsFrom.mp hs
      exact mem_inputsFrom.mpr ⟨hmem, List.forall_mem_cons.mpr ⟨fun heq => hd heq.symm, hall⟩⟩
    rw [casesFrom_cons, unfoldVar]
    cases hu : d.update with
    | random r =>
      have hinput : d.isInput = true := by rw [Declaration.isInput, hu]
      exact fun c hc => (hcases c hc).mono fun s hs => hkeep s hs fun _ => hinput
    | branches bs =>
      apply Case.mem_join
      · intro c hc
        obtain ⟨a, ha, hc⟩ := List.mem_flatMap.mp hc
        unfold Case.unfold at hc
        split at hc
        · next hmentions =>
          obtain ⟨b, hb, rfl⟩ := List.mem_map.mp hc
          have hsolvable := hs.1
          rw [hu] at hsolvable
          refine (hcases a ha).subst_of_mentions hmentions
            (fun s hs hne => hkeep s hs fun heq => absurd heq hne) ?_
          refine (hsolvable.2 b hb).reads.of_mem fun t ht q hq hmem => ?_
          obtain ⟨hqv, hqds⟩ := hearlier q.1 hmem
          have hnew : ∀ c ∈ ds, c.symbol = q.1 → c.isInput = true :=
            fun c hc heq => absurd (heq ▸ List.mem_map_of_mem hc) hqds
          refine hkeep q.1 (mem_inputsFrom.mpr ⟨hqv, hnew⟩) fun heq => ?_
          rw [Declaration.isInput, hu]
          exact List.any_eq_true.mpr ⟨b, hb, heq ▸ Expr.mentions_of_mem ht hq⟩
        · next hmentions =>
          rw [List.mem_singleton.mp hc]
          refine (hcases a ha).of_mem fun t ht q hq hmem => hkeep q.1 hmem fun heq => ?_
          exact absurd (heq ▸ Expr.mentions_of_mem ht hq) hmentions
      · exact fun _ _ _ h _ => h

variable {p : Program}

theorem mem_inputs {s : Symbol} :
    s ∈ p.inputs ↔ s ∈ p.vars ∧ ∀ d ∈ p.declarations, d.symbol = s → d.isInput = true :=
  mem_inputsFrom

theorem mem_vars_of_mem_inputs {s : Symbol} (hs : s ∈ p.inputs) : s ∈ p.vars :=
  (mem_inputs.mp hs).1

/-- The cases of an expression mention nothing but what the iteration reads. -/
theorem WellFormed.cases_over_inputs (hp : p.WellFormed) {e : Expr} (he : e.Over p.vars) :
    ∀ c ∈ p.cases e, c.value.Over p.inputs :=
  over_inputs_casesFrom symbol_mem_vars hp.nodup (fun _ h => absurd h List.not_mem_nil) hp.solvable he

end Program

end ProbLoop
