import ProbLoop.Proofs.Deterministic
import ProbLoop.Proofs.Product
import ProbLoop.Proofs.Program.CaseLaw
import ProbLoop.Proofs.Program.Inputs

/-!
# Determined variables follow their closed forms

In every run a determined variable has the value of its closed form from the first iteration on. If an
iteration reads it, its own recurrence does not forget the start, and the closed form is right before the
first iteration as well.
-/

set_option autoImplicit false

namespace ProbLoop

namespace Assignments

variable {ds : List Declaration} {v w : Valuation}

/-- What is not assigned keeps its value. -/
theorem eq_of_notMem (h : Assignments ds v w) {s : Symbol} (hs : s ∉ ds.map Declaration.symbol) :
    w s = v s := by
  induction h with
  | done v => rfl
  | @assign d rest v w q _ _ ih =>
    rw [List.map_cons, List.mem_cons, not_or] at hs
    rw [ih hs.2]
    exact if_neg hs.1

theorem exists_assigns (h : Assignments ds v w) (hn : (ds.map Declaration.symbol).Nodup) :
    ∀ d ∈ ds, ∃ u, d.update.Assigns u (w d.symbol) := by
  induction h with
  | done v => simp
  | @assign d rest v w q assigned after ih =>
    rw [List.map_cons, List.nodup_cons] at hn
    refine List.forall_mem_cons.mpr ⟨⟨v, ?_⟩, ih hn.2⟩
    have hq : w d.symbol = q := (after.eq_of_notMem hn.1).trans (if_pos rfl)
    rwa [hq]

/-- What is assigned is an outcome, with the new values of the drawn variables as the draws. -/
theorem exists_outcome (h : Assignments ds v w) (hn : (ds.map Declaration.symbol).Nodup)
    {os : List Outcome} {b : Outcome} (hb : b ∈ os) (hv : b.state = v) :
    ∃ o ∈ ds.foldl (fun os d => os.flatMap (d.outcomes w)) os, o.state = w := by
  induction h generalizing os b with
  | done v => exact ⟨b, hb, hv⟩
  | @assign d rest v w q assigned after ih =>
    rw [List.map_cons, List.nodup_cons] at hn
    have hq : w d.symbol = q := (after.eq_of_notMem hn.1).trans (if_pos rfl)
    obtain ⟨c, hc, hstate⟩ : ∃ c ∈ d.outcomes w b, c.state = v.set d.symbol q := by
      unfold Declaration.outcomes
      cases hu : d.update with
      | random r => exact ⟨_, List.mem_singleton_self _, by rw [hv, hq]⟩
      | branches bs =>
        rw [hu] at assigned
        obtain ⟨x, hx, rfl⟩ := assigned
        refine ⟨_, List.mem_map_of_mem hx, ?_⟩
        rw [hv]
    exact ih hn.2 (List.mem_flatMap.mpr ⟨b, hb, hc⟩) hstate

end Assignments

namespace Program

variable {p : Program}

theorem exists_outcome_of_assignments (hn : p.vars.Nodup) {v w : Valuation}
    (h : Assignments p.declarations v w) : ∃ o ∈ p.outcomes w v, o.state = w :=
  h.exists_outcome hn (b := ⟨v, 1⟩) (List.mem_singleton_self _) rfl

/-- An iteration keeps every symbol but the variables. -/
theorem eq_of_assignments {v w : Valuation} (h : Assignments p.declarations v w) {s : Symbol}
    (hs : s ∉ p.vars) : w s = v s :=
  h.eq_of_notMem hs

section OneStep

variable {ds : List Declaration}

/-- One assignment turns the mean over it into the value after it. -/
theorem WellFormed.value_meanVar_of_outcome (hp : p.WellFormed) {d : Declaration}
    (hd : d ∈ p.declarations) {e : Expr} (he : e.Over p.determined) {draws : Valuation}
    {b c : Outcome} (hc : c ∈ d.outcomes draws b) (n : Nat) :
    (meanVar d e).value n b.state = e.value n c.state := by
  by_cases hdet : d.symbol ∈ p.determined
  · obtain ⟨before, -, hsolvable⟩ := hp.solvable.exists_solvable d hd
    obtain ⟨-, value, hu, hassign⟩ := hp.exists_determined hd hdet
    have hcounter : Symbol.counter ∉ d.symbol :: p.determined := by
      rw [List.mem_cons, not_or]
      exact ⟨(Declaration.symbol_ne_counter d).symm, fun hmem =>
        p.counter_notMem_vars (mem_vars_of_mem_determined hmem)⟩
    have hstill : value.Still := ⟨hassign.reads.canonical, hassign.reads.isStill hcounter⟩
    rw [Declaration.outcomes, hu] at hc
    obtain ⟨x, hx, rfl⟩ := List.mem_map.mp hc
    rw [value_meanVar_of_determined hu hsolvable he.canonical, List.mem_singleton.mp hx,
      hstill.value_eq n 0]
  · -- What is not determined does not occur, so its new value does not matter.
    have hmentions := he.mentions_eq_false hdet (Declaration.symbol_ne_counter d)
    obtain ⟨q, hq⟩ : ∃ q, c.state = b.state.set d.symbol q := by
      unfold Declaration.outcomes at hc
      split at hc
      · rw [List.mem_singleton.mp hc]
        exact ⟨_, rfl⟩
      · obtain ⟨x, -, rfl⟩ := List.mem_map.mp hc
        exact ⟨_, rfl⟩
    rw [meanVar, hmentions, if_neg Bool.false_ne_true, hq,
      Expr.value_set_of_not_mentions he.canonical (Declaration.symbol_ne_counter d) hmentions]

/-- The mean of an expression in determined variables is its value after any outcome. -/
theorem WellFormed.value_meanVars_of_outcome (hp : p.WellFormed)
    (hds : ∀ d ∈ ds, d ∈ p.declarations) {e : Expr} (he : e.Over p.determined)
    {draws : Valuation} {os : List Outcome} {o : Outcome}
    (ho : o ∈ ds.foldl (fun os d => os.flatMap (d.outcomes draws)) os) (n : Nat) :
    (meanVars ds e).Over p.determined ∧
      ∃ b ∈ os, (meanVars ds e).value n b.state = e.value n o.state := by
  induction ds generalizing os with
  | nil => exact ⟨he, o, ho, rfl⟩
  | cons d ds ih =>
    obtain ⟨hd, hrest⟩ := List.forall_mem_cons.mp hds
    obtain ⟨hover, c, hc, hvalue⟩ := ih hrest ho
    obtain ⟨b, hb, hc⟩ := List.mem_flatMap.mp hc
    have hone : (Expr.one).Over p.vars := Expr.over_one
    rw [meanVars_cons, ← hvalue]
    exact ⟨(hp.meanVar_mul hd hover hone).1, b, hb, hp.value_meanVar_of_outcome hd hover hc n⟩

theorem WellFormed.value_expectedNext_of_outcome (hp : p.WellFormed) {e : Expr}
    (he : e.Over p.determined) {draws v : Valuation} {o : Outcome} (ho : o ∈ p.outcomes draws v)
    (n : Nat) : (p.expectedNext e).value n v = e.value n o.state := by
  obtain ⟨-, b, hb, hvalue⟩ := hp.value_meanVars_of_outcome (fun _ hd => hd) he ho n
  rwa [List.mem_singleton.mp hb] at hvalue

/-- The mean of an expression in determined variables is its only case. -/
theorem WellFormed.expectedNext_eq_case (hp : p.WellFormed) {e : Expr} (he : e.Over p.determined)
    {c : Case} (hc : c ∈ p.cases e) : p.expectedNext e = c.value := by
  have hvars : e.Over p.vars := he.mono fun s hs => mem_vars_of_mem_determined hs
  have hmean := hp.over_expectedNext hvars
  have hcase := (hp.proper_cases hvars c hc).2
  apply Expr.Still.ext ⟨hmean.canonical, hmean.isStill p.counter_notMem_vars⟩
    ⟨hcase.canonical, hcase.isStill p.counter_notMem_vars⟩
  intro v
  obtain ⟨o, ho, hvalue⟩ := hp.sequential.exists_outcome he.canonical 0 v v hc
  rw [drawn_self] at hvalue
  rw [← hvalue, hp.value_expectedNext_of_outcome he ho]

/-- The mean of an expression in determined variables reads determined variables of the iteration. -/
theorem WellFormed.expectedNext_over_inputs (hp : p.WellFormed) {e : Expr}
    (he : e.Over p.determined) : (p.expectedNext e).Over p.inputs := by
  have hvars : e.Over p.vars := he.mono fun s hs => mem_vars_of_mem_determined hs
  have hsome : p.cases e ≠ [] := by
    intro hnil
    have htotal := hp.sequential.total_cases_eq_one he.canonical
    rw [hnil] at htotal
    exact absurd htotal (by simp [Case.total])
  obtain ⟨c, hc⟩ := List.exists_mem_of_ne_nil _ hsome
  rw [hp.expectedNext_eq_case he hc]
  exact hp.cases_over_inputs hvars c hc

end OneStep

section Start

variable (φ : Monomial → Rat)

/-- Averaging over variables that do not occur in a monomial changes nothing. -/
theorem foldl_meanMonomial {ds : List Declaration} {m : Monomial} (hm : m.Canonical)
    (h : ∀ d ∈ ds, m.powerOf d.symbol = 0) :
    ds.foldl (fun ψ d => meanMonomial d ψ) φ m = φ m := by
  induction ds generalizing φ with
  | nil => rfl
  | cons d ds ih =>
    obtain ⟨hd, hds⟩ := List.forall_mem_cons.mp h
    rw [List.foldl_cons, ih _ hds, meanMonomial, if_pos hd,
      Monomial.without_of_powerOf_eq_zero hm hd]

theorem solvableFrom_append {earlier : List Symbol} {before after : List Declaration}
    (hs : SolvableFrom earlier (before ++ after)) :
    SolvableFrom earlier before ∧
      SolvableFrom ((before.map Declaration.symbol).reverse ++ earlier) after := by
  induction before generalizing earlier with
  | nil => exact ⟨trivial, hs⟩
  | cons d before ih =>
    obtain ⟨hbefore, hafter⟩ := ih hs.2
    refine ⟨⟨hs.1, hbefore⟩, ?_⟩
    rw [List.map_cons, List.reverse_cons, List.append_assoc]
    exact hafter

/-- A determined variable occurs in its own recurrence as it does in its update. -/
theorem WellFormed.coefficient_expectedNext_of_determined (hp : p.WellFormed) {d : Declaration}
    (hd : d ∈ p.declarations) {value : Expr} (hu : d.update = .branches [(value, 1)]) :
    (p.expectedNext (.term (.ofSymbol d.symbol 1) 1)).coefficient (.ofSymbol d.symbol 1) =
      value.coefficient (.ofSymbol d.symbol 1) := by
  obtain ⟨before, after, hsplit⟩ := List.append_of_mem hd
  have hsolvable := hp.solvable
  have hnodup : (p.declarations.map Declaration.symbol).Nodup := hp.nodup
  rw [hsplit] at hsolvable hnodup
  rw [List.map_append, List.map_cons] at hnodup
  obtain ⟨hbefore, hself, -⟩ := solvableFrom_append hsolvable
  rw [List.append_nil] at hself
  set s := d.symbol
  have hvar := Expr.over_term (Monomial.over_ofSymbol (symbol_mem_vars d hd) 1) 1
  have hcanonical := Monomial.canonical_ofSymbol s 1
  have hne : s ∉ before.map Declaration.symbol ∧ s ∉ after.map Declaration.symbol := by
    rw [List.nodup_append] at hnodup
    exact ⟨fun hmem => hnodup.2.2 s hmem s List.mem_cons_self rfl,
      (List.nodup_cons.mp hnodup.2.1).1⟩
  have hzero : ∀ ds : List Declaration, s ∉ ds.map Declaration.symbol →
      ∀ c ∈ ds, (Monomial.ofSymbol s 1).powerOf c.symbol = 0 := fun ds hs c hc =>
    Monomial.powerOf_ofSymbol_of_ne
      (fun heq : c.symbol = s => hs (heq ▸ List.mem_map_of_mem hc)) 1
  -- Only the own update replaces the variable.
  have hown : meanVar d (.term (.ofSymbol s 1) 1) = value := by
    have hreads := hself
    rw [hu] at hreads
    have hvalue := (hreads.2 (value, 1) List.mem_cons_self).reads
    have hcounter : Symbol.counter ∉ s :: (before.map Declaration.symbol).reverse := by
      intro hmem
      rcases List.mem_cons.mp hmem with heq | hmem
      · exact Declaration.symbol_ne_counter d heq.symm
      · obtain ⟨c, -, hc⟩ := List.mem_map.mp (List.mem_reverse.mp hmem)
        exact Declaration.symbol_ne_counter c hc
    have hleft := over_meanVar hself (fun _ h => h)
      (Expr.over_term (Monomial.over_ofSymbol List.mem_cons_self 1) 1)
    apply Expr.Still.ext ⟨hleft.canonical, hleft.isStill hcounter⟩
      ⟨hvalue.canonical, hvalue.isStill hcounter⟩
    intro v
    rw [value_meanVar_of_determined hu hself hvar.canonical, Expr.value_term,
      Monomial.value_ofSymbol, one_mul, pow_one]
    simp [Valuation.set, Symbol.value, Declaration.symbol]
  have hlinear := (hu ▸ hself).2 (value, 1) List.mem_cons_self
  have hbeforeVars : ∀ c ∈ before, c.symbol ∈ before.map Declaration.symbol :=
    fun c hc => List.mem_map_of_mem hc
  set φ : Monomial → Rat := fun m => if m = .ofSymbol s 1 then 1 else 0
  set ψ := before.foldl (fun ψ c => meanMonomial c ψ) φ
  have hψ : ∀ t ∈ value.terms, ψ t.1 = φ t.1 := by
    intro t ht
    rcases hlinear.linear t ht with h0 | hself
    · have hreads := hlinear.reads.monomials t ht
      have hover : t.1.Over (before.map Declaration.symbol) := by
        refine ⟨hreads.toCanonical, hreads.base_eq_one, fun q hq => ?_⟩
        rcases List.mem_cons.mp (hreads.mem_vars q hq) with heq | hmem
        · have hpos := Monomial.powerOf_pos hreads.toCanonical hq
          rw [heq] at hpos
          exact absurd h0 hpos.ne'
        · exact List.mem_reverse.mp hmem
      have hmean := lift_meanVars hbefore hbeforeVars φ (Expr.over_term hover 1)
      rw [Expr.lift_term, one_mul] at hmean
      have hvars := over_meanVars hbefore hbeforeVars (Expr.over_term hover 1)
      have hvanish : ∀ k : Monomial, k.powerOf s = 0 → φ k = 0 := by
        intro k hk
        refine if_neg fun heq => ?_
        rw [heq, Monomial.powerOf_ofSymbol] at hk
        exact absurd hk one_ne_zero
      have hnone : (meanVars before (.term t.1 1)).lift φ =
          (meanVars before (.term t.1 1)).lift fun _ => 0 :=
        Expr.lift_congr fun k hk => hvanish k.1 ((hvars.monomials k hk).powerOf_eq_zero hne.1)
      rw [hvanish t.1 h0]
      exact hmean.symm.trans (hnone.trans (by simp [Expr.lift_eq_sum]))
    · rw [hself]
      exact foldl_meanMonomial φ hcanonical (hzero before hne.1)
  have hordered := (hp.over_expectedNext hvar).toOrdered
  rw [Expr.coefficient_eq_lift hordered, Expr.coefficient_eq_lift hlinear.reads.toOrdered,
    ← Expr.lift_congr hψ, ← hown, lift_meanVar ψ hvar.canonical]
  refine (lift_meanVars hp.solvable symbol_mem_vars φ hvar).trans ?_
  rw [Expr.lift_term, Expr.lift_term, hsplit, List.foldl_append, List.foldl_cons,
    foldl_meanMonomial _ hcanonical (hzero after hne.2)]

/-- A determined variable that an iteration reads is not forgotten. -/
theorem WellFormed.not_forgets (hp : p.WellFormed) {s : Symbol} (hs : s ∈ p.determined)
    (hinput : s ∈ p.inputs) : ¬p.Forgets (.ofSymbol s 1) := by
  obtain ⟨d, hd, rfl⟩ := List.mem_map.mp (mem_vars_of_mem_determined hs)
  obtain ⟨-, value, hu, hassign⟩ := hp.exists_determined hd hs
  have hmentions := (mem_inputs.mp hinput).2 d hd rfl
  rw [Declaration.isInput, hu] at hmentions
  simp only [List.any_cons, List.any_nil, Bool.or_false] at hmentions
  rw [Forgets, hp.coefficient_expectedNext_of_determined hd hu]
  obtain ⟨t, ht, hmem⟩ := List.any_eq_true.mp hmentions
  obtain ⟨q, hq, heq⟩ := List.any_eq_true.mp hmem
  have hpos := Monomial.powerOf_pos (hassign.reads.monomials t ht).toCanonical hq
  rw [beq_iff_eq.mp heq] at hpos
  have hself := (hassign.linear t ht).resolve_left hpos.ne'
  obtain ⟨hcoefficient, hne⟩ := (Expr.mem_terms_iff hassign.reads.toOrdered t.1 t.2).mp ht
  rwa [← hself, hcoefficient]

end Start

section Follows

variable {n : Nat} {v : Valuation}

/-- The initial value of a determined variable is its initial moment. -/
theorem WellFormed.value_start (hp : p.WellFormed) (hv : p.IsInitial v) {s : Symbol}
    (hs : s ∈ p.determined) : (p.initialMoment (.ofSymbol s 1)).value n v = v s := by
  obtain ⟨d, hd, rfl⟩ := List.mem_map.mp (mem_vars_of_mem_determined hs)
  have hstarts := hp.starts d hd
  have hassigns := hv d hd
  have hfixed := (hp.exists_determined hd hs).1
  have hpowers : (Monomial.ofSymbol d.symbol 1).powers = [(d.symbol, 1)] := rfl
  rw [value_initialMoment, hpowers, List.map_singleton, List.prod_singleton, startPower,
    hp.initial?_eq hd]
  simp only
  cases hu : d.initial with
  | random r =>
    rw [hu] at hfixed hstarts hassigns
    cases r with
    | unknown x =>
      obtain ⟨name, rfl⟩ := hstarts x rfl
      rw [hassigns]
      simp [Update.moment, Distribution.moment, Symbol.value]
    | _ => simp [Update.isFixed] at hfixed
  | branches bs =>
    rw [hu] at hfixed hstarts hassigns
    obtain ⟨b, rfl⟩ := List.length_eq_one_iff.mp (beq_iff_eq.mp hfixed)
    obtain ⟨x, hx, hvalue⟩ := hassigns
    have hb : b.2 = 1 := by simpa using hstarts.1.2
    obtain ⟨q, hq⟩ := hstarts.2 b List.mem_cons_self
    rw [hvalue, List.mem_singleton.mp hx, hq]
    simp [Update.moment, Expr.value_sum, hb, hq]

/-- Determined variables have the values of their closed forms from the first iteration on, and those that
an iteration reads have them before it as well. -/
theorem WellFormed.follows (hp : p.WellFormed) (hv : p.Reaches n v) {s : Symbol}
    (hs : s ∈ p.determined) (h : 1 ≤ n ∨ s ∈ p.inputs) :
    v s = (p.closed (.ofSymbol s 1)).value n v := by
  have hover : ∀ {s}, s ∈ p.determined → (Monomial.ofSymbol s 1).Over p.vars :=
    fun hs => Monomial.over_ofSymbol (mem_vars_of_mem_determined hs) 1
  induction hv generalizing s with
  | start hinitial =>
    have hinput := h.resolve_left (by decide)
    rw [hp.value_closed_zero _ (hover hs) (hp.not_forgets hs hinput), hp.value_start hinitial hs]
  | @next n v w before iteration ih =>
    have hvar := Expr.over_term (Monomial.over_ofSymbol hs 1) 1
    obtain ⟨o, ho, rfl⟩ := exists_outcome_of_assignments hp.nodup iteration
    have hmean := hp.value_expectedNext_of_outcome hvar ho n
    rw [Expr.value_term, Monomial.value_ofSymbol, one_mul, pow_one] at hmean
    have hone : Expr.one.Over p.vars := Expr.over_one
    have hdetermined := (hp.expectedNext_mul hvar hone).1
    have hinputs := hp.expectedNext_over_inputs hvar
    have hsymbol : s.value n o.state = o.state s := by
      obtain ⟨d, -, rfl⟩ := List.mem_map.mp (mem_vars_of_mem_determined hs)
      rfl
    -- The closed form has no variables, and everything else is as before the iteration.
    have hsame : (p.closed (.ofSymbol s 1)).value (n + 1) o.state =
        (p.closed (.ofSymbol s 1)).value (n + 1) v := by
      refine (hp.within_closed _ (hover hs)).value_congr (fun r hr => ?_) _
      refine eq_of_assignments iteration fun hmem => ?_
      exact List.not_mem_nil (hr (isVar_of_mem_vars r hmem))
    rw [hsame, hp.value_closed_succ n v (hover hs), ← hsymbol, ← hmean, Expr.value_eq_lift]
    refine Expr.lift_congr fun t ht => ?_
    have hm := hdetermined.monomials t ht
    rw [hp.value_closed_of_determined n v hm, Monomial.value_eq, hm.base_eq_one, one_pow, mul_one]
    apply Monomial.powerProduct_congr
    intro q hq
    have hdet := hm.mem_vars q hq
    have hvalue : q.1.value n v = v q.1 := by
      obtain ⟨d, -, heq⟩ := List.mem_map.mp (mem_vars_of_mem_determined hdet)
      rw [← heq]
      rfl
    rw [hvalue]
    exact ih hdet (Or.inr ((hinputs.monomials t ht).mem_vars q hq))

end Follows

end Program

end ProbLoop
