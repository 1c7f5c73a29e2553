import ProbLoop.Program.Dependency
import ProbLoop.Proofs.Program.Execution

/-!
# Determined variables

A variable that is not probabilistic has one initial value and one branch, which reads nothing but such
variables. The mean after one iteration is multiplicative in them: they are functions of the values
before it.
-/

set_option autoImplicit false

namespace ProbLoop

namespace SymbolSet

theorem mem_ofList {ss : List Symbol} {s : Symbol} (hs : s ∈ ss) : ∃ q ∈ ofList ss, q.1 = s := by
  have hfind : Assoc.find? s (ofList ss) = some () := by
    change Assoc.find? s (ss.foldl (fun acc s => Expr.addSymbol s acc) []) = some ()
    rw [Expr.find?_addSymbols ss Assoc.sorted_nil, if_pos hs]
  exact ⟨_, Assoc.mem_of_find? hfind, rfl⟩

theorem mem_of_mem_ofList {ss : List Symbol} {q : Symbol × Unit} (hq : q ∈ ofList ss) :
    q.1 ∈ ss := by
  have hsorted : Assoc.Sorted Symbol.cmp (ofList ss) :=
    Expr.sorted_addSymbols ss Assoc.sorted_nil
  have hfind := Assoc.find?_of_mem hsorted hq
  change Assoc.find? q.1 (ss.foldl (fun acc s => Expr.addSymbol s acc) []) = _ at hfind
  rw [Expr.find?_addSymbols ss Assoc.sorted_nil] at hfind
  by_contra hnot
  rw [if_neg hnot] at hfind
  simp [Assoc.find?] at hfind

end SymbolSet

namespace Update

variable {s : Symbol} {earlier : List Symbol} {u : Update}

/-- What an update reads are its own variable and those before it. -/
theorem Solvable.mem_of_mem_parents (hu : u.Solvable s earlier) {q : Symbol × Unit}
    (hq : q ∈ u.parents) : q.1 ∈ s :: earlier := by
  cases u with
  | random d => exact absurd hq List.not_mem_nil
  | branches bs =>
    obtain ⟨hfree, hvar⟩ := List.mem_filter.mp (SymbolSet.mem_of_mem_ofList hq)
    obtain ⟨b, hb, hmem⟩ := List.mem_flatMap.mp hfree
    obtain ⟨t, ht, r, hr, heq⟩ := Expr.exists_of_mem_freeSymbols hmem hvar
    rw [← heq]
    exact ((hu.2 b hb).reads.monomials t ht).mem_vars r hr

theorem mem_parents {bs : List (Expr × Rat)} {b : Expr × Rat} (hb : b ∈ bs)
    {t : Monomial × Rat} (ht : t ∈ b.1.terms) {q : Symbol × Nat} (hq : q ∈ t.1.powers)
    (hvar : q.1.isVar = true) : ∃ r ∈ (branches bs).parents, r.1 = q.1 :=
  SymbolSet.mem_ofList (List.mem_filter.mpr
    ⟨List.mem_flatMap.mpr ⟨b, hb, Expr.mem_freeSymbols ht hq⟩, hvar⟩)

end Update

namespace Program

/-- The probabilistic variables when those of a list are looked at after the ones found. -/
def probabilisticFrom (found : List Symbol) (ds : List Declaration) : List Symbol :=
  ds.foldl (fun found d =>
    if isChanceful d || d.update.parents.any (fun q => found.contains q.1) then d.symbol :: found
    else found) found

theorem probabilisticFrom_cons (found : List Symbol) (d : Declaration) (ds : List Declaration) :
    probabilisticFrom found (d :: ds) =
      if isChanceful d || d.update.parents.any (fun q => found.contains q.1) then
        probabilisticFrom (d.symbol :: found) ds
      else probabilisticFrom found ds := by
  rw [probabilisticFrom, List.foldl_cons]
  split <;> rfl

theorem mem_probabilisticFrom_of_mem {found : List Symbol} {ds : List Declaration} {s : Symbol}
    (hs : s ∈ found) : s ∈ probabilisticFrom found ds := by
  induction ds generalizing found with
  | nil => exact hs
  | cons d ds ih =>
    rw [probabilisticFrom_cons]
    split
    · exact ih (List.mem_cons_of_mem _ hs)
    · exact ih hs

theorem mem_of_mem_probabilisticFrom {found : List Symbol} {ds : List Declaration} {s : Symbol}
    (hs : s ∈ probabilisticFrom found ds) : s ∈ found ∨ s ∈ ds.map Declaration.symbol := by
  induction ds generalizing found with
  | nil => exact Or.inl hs
  | cons d ds ih =>
    rw [List.map_cons, List.mem_cons]
    rw [probabilisticFrom_cons] at hs
    split at hs
    · rcases ih hs with hmem | hmem
      · rcases List.mem_cons.mp hmem with rfl | hmem
        · exact Or.inr (Or.inl rfl)
        · exact Or.inl hmem
      · exact Or.inr (Or.inr hmem)
    · exact (ih hs).imp_right Or.inr

/-- A variable that is not found to be probabilistic is no source of chance and reads none. -/
theorem not_chanceful_of_notMem {found earlier : List Symbol} {ds : List Declaration}
    (hs : SolvableFrom earlier ds) (hn : (ds.map Declaration.symbol).Nodup)
    (hnew : ∀ s ∈ earlier, s ∉ ds.map Declaration.symbol) {d : Declaration} (hd : d ∈ ds)
    (hnot : d.symbol ∉ probabilisticFrom found ds) :
    isChanceful d = false ∧ ∀ q ∈ d.update.parents, q.1 ∉ probabilisticFrom found ds := by
  induction ds generalizing found earlier with
  | nil => exact absurd hd List.not_mem_nil
  | cons c ds ih =>
    rw [List.map_cons, List.nodup_cons] at hn
    have hnew' : ∀ s ∈ c.symbol :: earlier, s ∉ ds.map Declaration.symbol :=
      List.forall_mem_cons.mpr ⟨hn.1, fun s hs' hmem =>
        hnew s hs' (List.mem_cons_of_mem _ hmem)⟩
    rw [probabilisticFrom_cons] at hnot ⊢
    rcases List.mem_cons.mp hd with rfl | hd
    · split at hnot
      · exact absurd (mem_probabilisticFrom_of_mem List.mem_cons_self) hnot
      · next hcond =>
        rw [if_neg hcond]
        obtain ⟨hchance, hparents⟩ := Bool.or_eq_false_iff.mp (Bool.not_eq_true _ ▸ hcond)
        refine ⟨hchance, fun q hq hmem => ?_⟩
        rcases mem_of_mem_probabilisticFrom hmem with hfound | hlater
        · have hnone := List.any_eq_false.mp hparents q hq
          exact hnone (by simpa using hfound)
        · exact hnew' q.1 (hs.1.mem_of_mem_parents hq) hlater
    · split at hnot
      · next hcond =>
        rw [if_pos hcond]
        exact ih hs.2 hn.2 hnew' hd hnot
      · next hcond =>
        rw [if_neg hcond]
        exact ih hs.2 hn.2 hnew' hd hnot

variable {p : Program}

/-- The variables whose values are functions of the number of iterations. -/
def determined (p : Program) : List Symbol :=
  p.vars.filter fun s => !p.isProbabilistic s

theorem mem_determined {s : Symbol} :
    s ∈ p.determined ↔ s ∈ p.vars ∧ p.isProbabilistic s = false := by
  simp [determined]

theorem mem_vars_of_mem_determined {s : Symbol} (hs : s ∈ p.determined) : s ∈ p.vars :=
  (mem_determined.mp hs).1

/-- A determined variable has one initial value and one branch, which reads determined variables. -/
theorem WellFormed.exists_determined (hp : p.WellFormed) {d : Declaration}
    (hd : d ∈ p.declarations) (hdet : d.symbol ∈ p.determined) :
    d.initial.isFixed = true ∧
      ∃ e, d.update = .branches [(e, 1)] ∧ e.Assignable d.symbol p.determined := by
  have hnot : d.symbol ∉ probabilisticFrom [] p.declarations := by
    have hfalse : (probabilisticFrom [] p.declarations).contains d.symbol = false :=
      (mem_determined.mp hdet).2
    simpa using hfalse
  obtain ⟨hchance, hparents⟩ := not_chanceful_of_notMem hp.solvable hp.nodup
    (fun _ h => absurd h List.not_mem_nil) hd hnot
  obtain ⟨before, hbefore, hsolvable⟩ := hp.solvable.exists_solvable d hd
  simp only [isChanceful, Bool.or_eq_false_iff, Bool.not_eq_false'] at hchance
  obtain ⟨⟨hrandom, hbranches⟩, hfixed⟩ := hchance
  refine ⟨hfixed, ?_⟩
  cases hu : d.update with
  | random r => simp [hu, Update.isRandom] at hrandom
  | branches bs =>
    rw [hu] at hsolvable hbranches hparents
    have hlength : bs.length ≤ 1 := by simpa [Update.branches?] using hbranches
    cases bs with
    | nil => exact absurd hsolvable.1.2 (by simp)
    | cons b rest =>
      obtain rfl : rest = [] := by simpa using hlength
      obtain ⟨e, q⟩ := b
      obtain rfl : q = 1 := by simpa using hsolvable.1.2
      have hassign := hsolvable.2 (e, 1) List.mem_cons_self
      refine ⟨e, rfl, ⟨hassign.reads.toOrdered, fun t ht => ?_⟩, hassign.linear⟩
      have hm := hassign.reads.monomials t ht
      refine ⟨hm.toCanonical, hm.base_eq_one, fun r hr => List.mem_cons_of_mem _ ?_⟩
      have hvars : r.1 ∈ p.vars := by
        rcases List.mem_cons.mp (hm.mem_vars r hr) with hself | hmem
        · rw [hself]
          exact symbol_mem_vars d hd
        · exact (hbefore r.1 hmem).resolve_left List.not_mem_nil
      obtain ⟨q, hq, heq⟩ := Update.mem_parents (b := (e, 1)) List.mem_cons_self ht hr
        (isVar_of_mem_vars r.1 hvars)
      have hfalse : (probabilisticFrom [] p.declarations).contains r.1 = false := by
        rw [← heq]
        simpa using hparents q hq
      exact mem_determined.mpr ⟨hvars, hfalse⟩

/-- The mean over the update of a determined variable is a substitution. -/
theorem value_meanVar_of_determined {d : Declaration} {earlier : List Symbol} {e value : Expr}
    (hu : d.update = .branches [(value, 1)]) (hd : d.update.Solvable d.symbol earlier)
    (he : e.Canonical) (n : Nat) (v : Valuation) :
    (meanVar d e).value n v = e.value n (v.set d.symbol (value.value n v)) := by
  rw [Declaration.value_meanVar n v hu hd he]
  simp

/-- The mean over an update is multiplicative in what does not mention the variable. -/
theorem meanVar_mul_of_not_mentions {d : Declaration} {a b : Expr} (ha : a.Canonical)
    (hb : b.Canonical) (h : a.mentions d.symbol = false) (n : Nat) (v : Valuation) :
    (meanVar d (a * b)).value n v = a.value n v * (meanVar d b).value n v := by
  rw [Expr.value_eq_lift, lift_meanVar _ (ha.mul hb), Expr.lift_mul, Expr.value_eq_lift n v a,
    Expr.value_eq_lift n v (meanVar d b), lift_meanVar _ hb, ← Expr.lift_mul_const]
  apply Expr.lift_congr
  intro t ht
  rw [← Expr.lift_const_mul]
  apply Expr.lift_congr
  intro u hu
  have h0 := Expr.powerOf_eq_zero_of_not_mentions h ht
  have hpower := Monomial.powerOf_mul (ha.monomials t ht) (hb.monomials u hu) d.symbol
  rw [h0, zero_add] at hpower
  have hwithout : (t.1 * u.1).without d.symbol = t.1 * u.1.without d.symbol := by
    rw [Monomial.without_mul (ha.monomials t ht) (hb.monomials u hu),
      Monomial.without_of_powerOf_eq_zero (ha.monomials t ht) h0]
  rw [meanMonomial, meanMonomial, hpower, hwithout]
  split
  · exact Monomial.value_mul n v _ _
  · rw [← Expr.lift_const_mul]
    apply Expr.lift_congr
    intro k _
    rw [Monomial.value_mul, Monomial.value_mul, Monomial.value_mul, mul_assoc]

/-- The mean over one update is multiplicative in the determined variables. -/
theorem WellFormed.meanVar_mul (hp : p.WellFormed) {d : Declaration} (hd : d ∈ p.declarations)
    {a b : Expr} (ha : a.Over p.determined) (hb : b.Over p.vars) :
    (meanVar d a).Over p.determined ∧ (meanVar d b).Over p.vars ∧
      meanVar d (a * b) = meanVar d a * meanVar d b := by
  have hcounter := p.counter_notMem_vars
  have ha' : a.Over p.vars := ha.mono fun s hs => mem_vars_of_mem_determined hs
  obtain ⟨before, hbefore, hsolvable⟩ := hp.solvable.exists_solvable d hd
  have hvars : ∀ s ∈ d.symbol :: before, s ∈ p.vars :=
    List.forall_mem_cons.mpr ⟨symbol_mem_vars d hd, fun s hs =>
      (hbefore s hs).resolve_left List.not_mem_nil⟩
  have hover : ∀ {e : Expr}, e.Over p.vars → (meanVar d e).Over p.vars :=
    fun he => over_meanVar hsolvable hvars he
  have hstill : ∀ {e : Expr}, e.Over p.vars → e.Still :=
    fun he => ⟨he.canonical, he.isStill hcounter⟩
  by_cases hdet : d.symbol ∈ p.determined
  · obtain ⟨-, value, hu, hassign⟩ := hp.exists_determined hd hdet
    have hsolvable' : d.update.Solvable d.symbol p.determined := by
      rw [hu]
      refine ⟨⟨by simp, by simp⟩, fun b hb => ?_⟩
      rw [List.mem_singleton.mp hb]
      exact hassign
    have hsame : ∀ s ∈ d.symbol :: p.determined, s ∈ p.determined :=
      List.forall_mem_cons.mpr ⟨hdet, fun _ h => h⟩
    refine ⟨over_meanVar hsolvable' hsame ha, hover hb, ?_⟩
    apply (hstill (hover (ha'.mul hb))).ext (hstill ((hover ha').mul (hover hb)))
    intro v
    rw [Expr.value_mul, value_meanVar_of_determined hu hsolvable ((ha'.mul hb).canonical),
      value_meanVar_of_determined hu hsolvable ha'.canonical,
      value_meanVar_of_determined hu hsolvable hb.canonical, Expr.value_mul]
  · -- What is not determined does not occur in the first factor.
    have hmentions := ha.mentions_eq_false hdet (Declaration.symbol_ne_counter d)
    have hsame : meanVar d a = a := by
      rw [meanVar, hmentions]
      rfl
    rw [hsame]
    refine ⟨ha, hover hb, ?_⟩
    apply (hstill (hover (ha'.mul hb))).ext (hstill (ha'.mul (hover hb)))
    intro v
    rw [Expr.value_mul, meanVar_mul_of_not_mentions ha'.canonical hb.canonical hmentions]

/-- The mean after one iteration is multiplicative in the determined variables. -/
theorem WellFormed.expectedNext_mul (hp : p.WellFormed) {a b : Expr} (ha : a.Over p.determined)
    (hb : b.Over p.vars) :
    (p.expectedNext a).Over p.determined ∧
      p.expectedNext (a * b) = p.expectedNext a * p.expectedNext b := by
  have hall : ∀ (ds : List Declaration), (∀ d ∈ ds, d ∈ p.declarations) → ∀ a b : Expr,
      a.Over p.determined → b.Over p.vars → (meanVars ds a).Over p.determined ∧
        meanVars ds (a * b) = meanVars ds a * meanVars ds b := by
    intro ds
    induction ds using List.reverseRecOn with
    | nil => exact fun _ a b ha _ => ⟨ha, rfl⟩
    | append_singleton ds d ih =>
      intro hds a b ha hb
      obtain ⟨ha', hb', hmul⟩ := hp.meanVar_mul (hds d (by simp)) ha hb
      rw [meanVars_concat, meanVars_concat, meanVars_concat, hmul]
      exact ih (fun c hc => hds c (List.mem_append_left _ hc)) _ _ ha' hb'
  exact hall p.declarations (fun _ h => h) a b ha hb

end Program

end ProbLoop
