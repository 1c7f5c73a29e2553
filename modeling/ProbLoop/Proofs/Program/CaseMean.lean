import ProbLoop.Proofs.Product
import ProbLoop.Proofs.Program.Cases
import ProbLoop.Proofs.Source.Meaning

/-!
# The mean of the cases

The mean after one iteration is computed variable by variable, with the moments of each update. The cases
follow the combinations of branches instead and keep the draws. Both are the same mean: that of the cases
in which powers of drawn variables are replaced by their moments.

One computation takes the moment of a draw when it reaches the draw, the other at the end. This makes no
difference because a branch that is substituted in between reads no later variable, so it adds no power of
a draw whose moment has been taken.
-/

set_option autoImplicit false

namespace ProbLoop

namespace Monomial

/-- Powers that are not kept leave a product as a factor. -/
theorem rest_mul (keep : Symbol → Bool) {a b : Monomial} (ha : a.Canonical) (hb : b.Canonical)
    (h : ∀ s, keep s = true → b.powerOf s = 0) : (a * b).rest keep = a.rest keep * b := by
  have hrest : (a.rest keep).Canonical := ha.filter _ ha.base_ne_zero
  apply ((ha.mul hb).filter _ (ha.mul hb).base_ne_zero).ext (hrest.mul hb) (fun s => ?_) rfl
  refine (powerOf_rest (a * b) keep s).trans ?_
  rw [powerOf_mul ha hb, powerOf_mul hrest hb, powerOf_rest]
  cases hs : keep s with
  | false => rfl
  | true => simp [h s hs]

/-- Taking out a symbol and taking out others may be done in either order. -/
theorem rest_without (keep : Symbol → Bool) (m : Monomial) (s : Symbol) :
    (m.without s).rest keep = (m.rest keep).without s := by
  simp only [rest, without, List.filter_filter, Bool.and_comm]

end Monomial

namespace Expr

variable (φ : Monomial → Rat)

theorem lift_const (q : Rat) : (const q).lift φ = q * φ .one :=
  lift_term φ .one q

theorem lift_mul_number {e : Expr} (he : e.Canonical) (q : Rat) :
    (e * const q).lift φ = e.lift φ * q := by
  rw [lift_mul, ← lift_mul_const]
  refine lift_congr fun t ht => ?_
  rw [lift_const, (he.monomials t ht).mul_one, mul_comm]

end Expr

theorem Update.Solvable.lift_moment_zero {u : Update} {s : Symbol} {earlier : List Symbol}
    (hu : u.Solvable s earlier) : (u.moment 0).lift (fun _ => 1) = 1 := by
  cases u with
  | random r => exact (Expr.lift_const _ 1).trans (one_mul 1)
  | branches bs =>
    rw [moment, Expr.lift_sum, List.map_map]
    refine (congrArg List.sum (List.map_congr_left fun b _ => ?_)).trans hu.1.2
    rw [Function.comp_apply, Expr.lift_scale,
      Expr.lift_pow_of_multiplicative (fun _ _ => (one_mul 1).symm) rfl, pow_zero, one_mul]

namespace Program

variable {p : Program} {d : Declaration} {ds : List Declaration} {earlier : List Symbol}

section Definitions

variable (p)

/-- The mean of a power of a variable over its update. -/
def updatePower (s : Symbol) (k : Nat) : Expr :=
  match p.update? s with
  | some u => u.moment k
  | none => (Expr.ofSymbol s).pow k

/-- One term of an expression when powers of drawn variables are replaced by moments. -/
def averageTerm (t : Monomial × Rat) : Expr :=
  (t.1.kept p.isRandom).powers.foldl (fun acc q => acc * p.updatePower q.1 q.2)
    (.term (t.1.rest p.isRandom) t.2)

/-- Replaces every power of a drawn variable by that moment of its update. -/
def averageDraws (e : Expr) : Expr :=
  Expr.sum (e.terms.map p.averageTerm)

/-- The mean of the cases of an expression, each averaged over its draws. -/
def caseMean (e : Expr) : Expr :=
  Expr.sum ((p.cases e).map fun c => (p.averageDraws c.value).scale c.probability)

end Definitions

section Averaged

/-- Holds of the variables of a list that are drawn. -/
def isDrawn (ds : List Declaration) (s : Symbol) : Bool :=
  ds.any fun d => d.symbol == s && d.update.isRandom

/-- The mean of the power of a drawn variable in a monomial. -/
def drawnFactor (m : Monomial) (d : Declaration) : Rat :=
  if d.update.isRandom then (d.update.moment (m.powerOf d.symbol)).lift fun _ => 1 else 1

/-- A function of monomials averaged over the variables of a list that are drawn. -/
def averaged (ds : List Declaration) (φ : Monomial → Rat) (m : Monomial) : Rat :=
  (ds.map (drawnFactor m)).prod * φ (m.rest (isDrawn ds))

variable (φ : Monomial → Rat)

theorem isDrawn_eq_false {s : Symbol} (hs : s ∉ ds.map Declaration.symbol) :
    isDrawn ds s = false := by
  refine List.any_eq_false.mpr fun d hd => ?_
  have hne : d.symbol ≠ s := fun h => hs (h ▸ List.mem_map_of_mem hd)
  simp [hne]

theorem mem_of_isDrawn {s : Symbol} (h : isDrawn ds s = true) : s ∈ ds.map Declaration.symbol := by
  by_contra hs
  rw [isDrawn_eq_false hs] at h
  exact absurd h (by decide)

theorem averaged_nil : averaged [] φ = φ := by
  funext m
  have hrest : m.rest (isDrawn []) = m := by simp [Monomial.rest, isDrawn]
  rw [averaged, hrest, List.map_nil, List.prod_nil, one_mul]

/-- Only the powers of the variables matter for their moments. -/
theorem prod_drawnFactor_congr {m k : Monomial}
    (h : ∀ d ∈ ds, m.powerOf d.symbol = k.powerOf d.symbol) :
    (ds.map (drawnFactor m)).prod = (ds.map (drawnFactor k)).prod :=
  congrArg List.prod (List.map_congr_left fun d hd => by rw [drawnFactor, drawnFactor, h d hd])

/-- The mean over a draw is a number times what the monomial is without it. -/
theorem meanMonomial_of_random {r : Distribution} (hu : d.update = .random r)
    (hd : d.update.Solvable d.symbol earlier) {m : Monomial} (hm : m.Canonical) :
    meanMonomial d φ m = drawnFactor m d * φ (m.without d.symbol) := by
  have hr : ∀ x, r ≠ .unknown x := by
    rw [hu] at hd
    exact hd
  obtain ⟨q, hq⟩ := r.moment_eq_const hr (m.powerOf d.symbol)
  have hmoment : d.update.moment (m.powerOf d.symbol) = .const q := by rw [hu]; exact hq
  have hfactor : drawnFactor m d = q := by
    rw [drawnFactor, hmoment, hu, Update.isRandom, if_pos rfl, Expr.lift_const, mul_one]
  rw [meanMonomial, hfactor]
  split
  · next h0 =>
    have hmass := hd.lift_moment_zero
    rw [← h0, hmoment, Expr.lift_const, mul_one] at hmass
    rw [hmass, one_mul]
  · rw [hmoment, Expr.lift_const, (hm.without d.symbol).mul_one]

theorem averaged_cons_of_branches (hd : d.update.isRandom = false) :
    averaged (d :: ds) φ = averaged ds φ := by
  have hdrawn : isDrawn (d :: ds) = isDrawn ds := by
    funext s
    simp [isDrawn, hd]
  funext m
  rw [averaged, averaged, hdrawn, List.map_cons, List.prod_cons, drawnFactor, hd,
    if_neg Bool.false_ne_true, one_mul]

/-- The average over one more draw. -/
theorem averaged_cons_of_random {r : Distribution} (hu : d.update = .random r)
    (hd : d.update.Solvable d.symbol earlier) (hn : d.symbol ∉ ds.map Declaration.symbol)
    {m : Monomial} (hm : m.Canonical) :
    averaged (d :: ds) φ m = averaged ds (meanMonomial d φ) m := by
  have hrest : (m.rest (isDrawn ds)).Canonical := hm.filter _ hm.base_ne_zero
  have hfactor : drawnFactor (m.rest (isDrawn ds)) d = drawnFactor m d := by
    rw [drawnFactor, drawnFactor, Monomial.powerOf_rest, isDrawn_eq_false hn,
      if_neg Bool.false_ne_true]
  have hwithout : m.rest (isDrawn (d :: ds)) = (m.rest (isDrawn ds)).without d.symbol := by
    simp only [Monomial.rest, Monomial.without, List.filter_filter]
    congr 2
    funext q
    simp only [isDrawn, List.any_cons, hu, Update.isRandom, Bool.and_true, Bool.not_or]
    rw [bne, Bool.beq_comm]
  rw [averaged, averaged, meanMonomial_of_random φ hu hd hrest, hfactor, hwithout, List.map_cons,
    List.prod_cons]
  ring

/-- A branch reads no later variable, so the draws of later variables may be averaged before it is
substituted or after. -/
theorem averaged_meanMonomial (hd : d.update.Solvable d.symbol earlier)
    (hnew : ∀ s ∈ d.symbol :: earlier, s ∉ ds.map Declaration.symbol) {m : Monomial}
    (hm : m.Canonical) :
    averaged ds (meanMonomial d φ) m = meanMonomial d (averaged ds φ) m := by
  have hn := hnew d.symbol List.mem_cons_self
  have hpower : (m.rest (isDrawn ds)).powerOf d.symbol = m.powerOf d.symbol := by
    rw [Monomial.powerOf_rest, isDrawn_eq_false hn, if_neg Bool.false_ne_true]
  have hwithout : ∀ c ∈ ds, (m.without d.symbol).powerOf c.symbol = m.powerOf c.symbol :=
    fun c hc => m.powerOf_without fun h => hn (h ▸ List.mem_map_of_mem hc)
  have hcanonical := hm.without d.symbol
  rw [averaged, meanMonomial, meanMonomial, hpower]
  split
  · rw [averaged, prod_drawnFactor_congr hwithout, Monomial.rest_without]
  · rw [← Expr.lift_const_mul]
    refine Expr.lift_congr fun t ht => ?_
    have hover := (hd.over_moment _).monomials t ht
    have hnone : ∀ s, s ∈ ds.map Declaration.symbol → t.1.powerOf s = 0 := fun s hs =>
      hover.powerOf_eq_zero fun hmem => hnew s hmem hs
    have hpowers : ∀ c ∈ ds,
        (m.without d.symbol * t.1).powerOf c.symbol = m.powerOf c.symbol := fun c hc => by
      rw [Monomial.powerOf_mul hcanonical hover.toCanonical, hwithout c hc,
        hnone c.symbol (List.mem_map_of_mem hc), add_zero]
    rw [averaged, prod_drawnFactor_congr hpowers, ← Monomial.rest_without,
      Monomial.rest_mul _ hcanonical hover.toCanonical fun s hs => hnone s (mem_of_isDrawn hs)]

end Averaged

section Mean

variable (φ : Monomial → Rat)

theorem canonical_meanVar (hd : d.update.Solvable d.symbol earlier) {e : Expr} (he : e.Canonical) :
    (meanVar d e).Canonical := by
  unfold meanVar
  split
  · apply Expr.canonical_sum
    intro x hx
    obtain ⟨t, ht, rfl⟩ := List.mem_map.mp hx
    have hrest := Expr.canonical_term ((he.monomials t ht).without d.symbol) t.2
    unfold meanTerm
    simp only
    split
    · exact hrest
    · exact hrest.mul (hd.over_moment _).canonical
  · exact he

theorem canonical_meanVars (hs : SolvableFrom earlier ds) {e : Expr} (he : e.Canonical) :
    (meanVars ds e).Canonical := by
  induction ds generalizing earlier with
  | nil => exact he
  | cons d ds ih =>
    rw [meanVars_cons]
    exact canonical_meanVar hs.1 (ih hs.2)

/-- The mean over a choice is that of what its branches make of a monomial. -/
theorem meanMonomial_of_branches {bs : List (Expr × Rat)} (hu : d.update = .branches bs)
    (hbs : IsChoice bs) :
    meanMonomial d φ = fun m => (bs.map fun b => b.2 *
      if m.powerOf d.symbol = 0 then φ (m.without d.symbol)
      else (b.1.pow (m.powerOf d.symbol)).lift fun k => φ (m.without d.symbol * k)).sum := by
  funext m
  rw [meanMonomial, hu]
  split
  · rw [List.sum_map_mul_right, hbs.2, one_mul]
  · rw [Update.moment, Expr.lift_sum, List.map_map]
    refine congrArg List.sum (List.map_congr_left fun b _ => ?_)
    rw [Function.comp_apply, Expr.lift_scale, mul_comm]

/-- Unfolding a choice in cases keeps their mean. -/
theorem mean_lift_unfoldVar {bs : List (Expr × Rat)} (hu : d.update = .branches bs)
    (hbs : IsChoice bs) {cs : List Case} (hcs : ∀ c ∈ cs, c.value.Canonical) :
    Case.mean (fun e => (e.lift φ : ℝ)) (unfoldVar d cs) =
      Case.mean (fun e => (e.lift (meanMonomial d φ) : ℝ)) cs := by
  rw [mean_unfoldVar_subst hu hbs]
  refine Case.mean_congr fun c hc => ?_
  rw [meanMonomial_of_branches φ hu hbs, Expr.lift_combination (fun b : Expr × Rat => b.2),
    Rat.cast_list_sum, List.map_map]
  refine congrArg List.sum (List.map_congr_left fun b _ => ?_)
  rw [Function.comp_apply, Rat.cast_mul,
    Expr.lift_subst φ (hcs c hc)]

/-- The mean over the updates of a list is that of the cases, averaged over the draws of the list. -/
theorem mean_lift_casesFrom (hs : SolvableFrom earlier ds) (hcounter : Symbol.counter ∉ earlier)
    (hn : (ds.map Declaration.symbol).Nodup)
    (hnew : ∀ s ∈ earlier, s ∉ ds.map Declaration.symbol) {e : Expr} (he : e.Canonical) :
    Case.mean (fun x => (x.lift (averaged ds φ) : ℝ)) (casesFrom ds e) =
      ((meanVars ds e).lift φ : ℝ) := by
  induction ds generalizing earlier φ with
  | nil => simp [casesFrom, Case.mean, averaged_nil, meanVars]
  | cons d ds ih =>
    rw [List.map_cons, List.nodup_cons] at hn
    have hnew' : ∀ s ∈ d.symbol :: earlier, s ∉ ds.map Declaration.symbol :=
      List.forall_mem_cons.mpr ⟨hn.1, fun s hs' hmem =>
        hnew s hs' (List.mem_cons_of_mem _ hmem)⟩
    have hcounter' : Symbol.counter ∉ d.symbol :: earlier := by
      rw [List.mem_cons, not_or]
      exact ⟨(Declaration.symbol_ne_counter d).symm, hcounter⟩
    have hcanonical : ∀ c ∈ casesFrom ds e, c.value.Canonical := fun c hc =>
      (canonical_casesFrom (hs.2.reads hcounter') he c hc).2
    rw [meanVars_cons, lift_meanVar φ (canonical_meanVars hs.2 he),
      ← ih (meanMonomial d φ) hs.2 hcounter' hn.2 hnew', casesFrom_cons]
    cases hu : d.update with
    | random r =>
      rw [unfoldVar, hu]
      exact Case.mean_congr fun c hc => congrArg _ <| Expr.lift_congr fun t ht =>
        averaged_cons_of_random φ hu hs.1 hn.1 ((hcanonical c hc).monomials t ht)
    | branches bs =>
      have hbs : IsChoice bs := by
        have hsolvable := hs.1
        rw [hu] at hsolvable
        exact hsolvable.1
      rw [averaged_cons_of_branches φ (by rw [hu]; rfl), mean_lift_unfoldVar _ hu hbs hcanonical]
      exact Case.mean_congr fun c hc => congrArg _ <| Expr.lift_congr fun t ht =>
        (averaged_meanMonomial φ hs.1 hnew' ((hcanonical c hc).monomials t ht)).symm

end Mean

section AverageDraws

variable (φ : Monomial → Rat)

theorem ordered_averageTerm (t : Monomial × Rat) : (p.averageTerm t).Ordered := by
  have hfold : ∀ (l : List (Symbol × Nat)) (acc : Expr), acc.Ordered →
      (l.foldl (fun acc q => acc * p.updatePower q.1 q.2) acc).Ordered := by
    intro l
    induction l with
    | nil => exact fun acc hacc => hacc
    | cons q l ih => exact fun acc _ => ih _ (Expr.ordered_mul _ _)
  exact hfold _ _ (Expr.ordered_term _ _)

theorem ordered_caseMean (e : Expr) : (p.caseMean e).Ordered := by
  apply Expr.ordered_sum
  intro x hx
  obtain ⟨c, -, rfl⟩ := List.mem_map.mp hx
  apply Expr.Ordered.scale
  apply Expr.ordered_sum
  intro x hx
  obtain ⟨t, -, rfl⟩ := List.mem_map.mp hx
  exact ordered_averageTerm t

section WellFormed

variable (hp : p.WellFormed)
include hp

theorem WellFormed.isRandom_eq_isDrawn : p.isRandom = isDrawn p.declarations :=
  funext fun s => isRandom_eq_any hp.nodup s

theorem WellFormed.updatePower_eq (hd : d ∈ p.declarations) (k : Nat) :
    p.updatePower d.symbol k = d.update.moment k := by
  rw [updatePower, update?, hp.declaration?_eq hd, Option.map_some]

theorem WellFormed.isRandom_symbol (hd : d ∈ p.declarations) :
    p.isRandom d.symbol = d.update.isRandom := by
  rw [isRandom, update?, hp.declaration?_eq hd, Option.map_some, Option.any_some]

theorem WellFormed.exists_of_isRandom {s : Symbol} (hs : p.isRandom s = true) :
    ∃ d ∈ p.declarations, d.symbol = s := by
  rw [hp.isRandom_eq_isDrawn] at hs
  exact List.mem_map.mp (mem_of_isDrawn hs)

/-- The powers of a drawn variable have numbers as moments. -/
theorem WellFormed.updatePower_eq_const {s : Symbol} (hs : p.isRandom s = true) (k : Nat) :
    ∃ q, p.updatePower s k = .const q := by
  obtain ⟨d, hd, rfl⟩ := hp.exists_of_isRandom hs
  obtain ⟨before, -, hsolvable⟩ := hp.solvable.exists_solvable d hd
  rw [hp.isRandom_symbol hd] at hs
  rw [hp.updatePower_eq hd]
  cases hu : d.update with
  | random r =>
    rw [hu] at hsolvable
    exact r.moment_eq_const hsolvable k
  | branches bs =>
    rw [hu] at hs
    exact absurd hs Bool.false_ne_true

theorem WellFormed.lift_updatePower_zero {s : Symbol} (hs : s ∈ p.vars) :
    (p.updatePower s 0).lift (fun _ => 1) = 1 := by
  obtain ⟨d, hd, rfl⟩ := List.mem_map.mp hs
  obtain ⟨before, -, hsolvable⟩ := hp.solvable.exists_solvable d hd
  rw [hp.updatePower_eq hd]
  exact hsolvable.lift_moment_zero

/-- Moments power by power are moments variable by variable. -/
theorem WellFormed.prod_updatePower {m : Monomial} (hm : m.Canonical) :
    ((m.kept p.isRandom).powers.map fun q => (p.updatePower q.1 q.2).lift fun _ => 1).prod =
      (p.declarations.map (drawnFactor m)).prod := by
  have hkept : (m.kept p.isRandom).Over p.vars := by
    refine ⟨hm.filter _ one_ne_zero, rfl, fun q hq => ?_⟩
    obtain ⟨d, hd, heq⟩ := hp.exists_of_isRandom (List.mem_filter.mp hq).2
    exact heq ▸ symbol_mem_vars d hd
  rw [prod_powers_eq_prod_vars hkept (fun s k => (p.updatePower s k).lift fun _ => 1)
    fun s hs => hp.lift_updatePower_zero hs, List.prod_toFinset _ hp.nodup, vars, List.map_map]
  refine congrArg List.prod (List.map_congr_left fun d hd => ?_)
  rw [Function.comp_apply, Monomial.powerOf_kept, hp.isRandom_symbol hd, drawnFactor]
  split
  · rw [hp.updatePower_eq hd]
  · exact hp.lift_updatePower_zero (symbol_mem_vars d hd)

theorem WellFormed.lift_averageTerm {t : Monomial × Rat} (ht : t.1.Canonical) :
    (p.averageTerm t).lift φ = t.2 * averaged p.declarations φ t.1 := by
  have hfold : ∀ (l : List (Symbol × Nat)) (acc : Expr), acc.Canonical →
      (∀ q ∈ l, p.isRandom q.1 = true) →
      (l.foldl (fun acc q => acc * p.updatePower q.1 q.2) acc).lift φ =
        acc.lift φ * (l.map fun q => (p.updatePower q.1 q.2).lift fun _ => 1).prod := by
    intro l
    induction l with
    | nil => exact fun acc _ _ => (mul_one _).symm
    | cons q l ih =>
      intro acc hacc hl
      obtain ⟨hq, hl⟩ := List.forall_mem_cons.mp hl
      obtain ⟨x, hx⟩ := hp.updatePower_eq_const hq q.2
      rw [List.foldl_cons, List.map_cons, List.prod_cons, hx, ih _ (hacc.mul (Expr.canonical_const x)) hl,
        Expr.lift_mul_number φ hacc, Expr.lift_const, mul_one, mul_assoc]
  have hrest : (t.1.rest p.isRandom).Canonical := ht.filter _ ht.base_ne_zero
  have hterm := hfold (t.1.kept p.isRandom).powers _ (Expr.canonical_term hrest t.2)
    fun q hq => (List.mem_filter.mp hq).2
  rw [averageTerm, hterm, hp.prod_updatePower ht, Expr.lift_term, averaged,
    hp.isRandom_eq_isDrawn]
  ring

theorem WellFormed.lift_caseMean {e : Expr} (he : e.Canonical) :
    ((p.caseMean e).lift φ : ℝ) =
      Case.mean (fun x => (x.lift (averaged p.declarations φ) : ℝ)) (p.cases e) := by
  rw [caseMean, Expr.lift_sum, List.map_map, Rat.cast_list_sum, List.map_map]
  refine congrArg List.sum (List.map_congr_left fun c hc => ?_)
  have hcanonical := (hp.sequential.canonical_cases he c hc).2
  have hdraws : (p.averageDraws c.value).lift φ = c.value.lift (averaged p.declarations φ) := by
    rw [averageDraws, Expr.lift_sum, List.map_map, Expr.lift_eq_sum]
    exact congrArg List.sum (List.map_congr_left fun t ht =>
      hp.lift_averageTerm φ (hcanonical.monomials t ht))
  rw [Function.comp_apply, Function.comp_apply, Expr.lift_scale, hdraws]
  push_cast
  ring

end WellFormed

/-- The mean after one iteration is that of the cases, averaged over their draws. -/
theorem expectedNext_eq_caseMean {text : String} (h : Program.parse text = .ok p) {e : Expr}
    (he : e.Canonical) : p.expectedNext e = p.caseMean e := by
  have hp := wellFormed_of_parse h
  apply (canonical_meanVars hp.solvable he).toOrdered.ext_lift (ordered_caseMean e)
  intro φ
  have hcases := mean_lift_casesFrom φ hp.solvable List.not_mem_nil hp.nodup
    (fun _ h => absurd h List.not_mem_nil) he
  exact_mod_cast hcases.symm.trans (hp.lift_caseMean φ he).symm

/-- A loop in which two other variables read one draw. -/
def entangled : Program :=
  ⟨[⟨"u", .deterministic .zero, .random (.uniform (-1) 2)⟩,
    ⟨"x", .deterministic .zero, .branches [(.ofSymbol (.var "x") + .ofSymbol (.var "u"), 1 / 2),
      (.ofSymbol (.var "x"), 1 / 2)]⟩,
    ⟨"y", .deterministic .zero, .deterministic (.ofSymbol (.var "u") * .ofSymbol (.var "x"))⟩],
    .ofSymbol (.var "y")⟩

theorem parse_entangled :
    Program.parse "u = 0\nx = 0\ny = 0\nwhile y > 0:\n    u = RV(uniform, -1, 2)\n    x = x + u @ 1/2; x\n    y = u*x\nend\n" =
      .ok entangled := by
  decide +kernel

/-- Four powers of the draw meet in `u * x * y` there, and their moments make up its mean. -/
theorem expectedNext_entangled :
    let e : Expr := .ofSymbol (.var "u") * .ofSymbol (.var "x") * .ofSymbol (.var "y")
    entangled.expectedNext e = entangled.caseMean e ∧
      entangled.caseMean e = (Expr.ofSymbol (.var "x")).pow 2 +
        (Expr.ofSymbol (.var "x")).scale (5 / 4) + .const (11 / 10) :=
  ⟨expectedNext_eq_caseMean parse_entangled
    (((Expr.canonical_ofSymbol _).mul (Expr.canonical_ofSymbol _)).mul (Expr.canonical_ofSymbol _)),
    by decide +kernel⟩

end AverageDraws

end Program

end ProbLoop
