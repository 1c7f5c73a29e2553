import ProbLoop.Program.OneStep
import ProbLoop.Proofs.Program.Descent
import ProbLoop.Proofs.Program.WellFormed

/-!
# The mean after one iteration

The mean over an update, and so the mean after one iteration, is a linear operator on polynomials
over the variables. It maps a monomial to a multiple of itself and monomials below it in the descent.
-/

set_option autoImplicit false

namespace ProbLoop

variable {vars : List Symbol}

theorem Distribution.moment_eq_const {d : Distribution} (hd : ∀ x, d ≠ .unknown x) (k : Nat) :
    ∃ q, d.moment k = .const q := by
  unfold moment
  split
  · exact ⟨1, rfl⟩
  · cases d with
    | unknown x => exact absurd rfl (hd x)
    | _ => exact ⟨_, rfl⟩

/-- A power of what is assigned to a variable has that power of the variable, or less of it. -/
theorem Expr.Assignable.powerBelow_pow {e : Expr} {s : Symbol} {earlier : List Symbol}
    (he : e.Assignable s earlier) (k : Nat) : (e.pow k).All (Monomial.PowerBelow s k) := by
  have hlinear : e.All (Monomial.PowerBelow s 1) := by
    intro t ht
    refine ⟨(he.reads.monomials t ht).toCanonical, ?_⟩
    rcases he.linear t ht with h0 | h1
    · exact Or.inr (by omega)
    · exact Or.inl h1
  have hone : Monomial.one.PowerBelow s 0 := ⟨Monomial.canonical_one, Or.inl rfl⟩
  have hpow := Expr.all_pow (P := Monomial.PowerBelow s) (fun _ _ _ _ => Monomial.PowerBelow.mul)
    hone hlinear k
  rwa [one_mul] at hpow

namespace Update

variable {s : Symbol} {earlier : List Symbol} {u : Update}

theorem Solvable.over_moment (hu : u.Solvable s earlier) (k : Nat) :
    (u.moment k).Over (s :: earlier) := by
  cases u with
  | random d =>
    obtain ⟨q, hq⟩ := d.moment_eq_const hu k
    change (d.moment k).Over _
    rw [hq]
    exact Expr.over_const q
  | branches bs =>
    apply Expr.over_sum
    intro e he
    obtain ⟨b, hb, rfl⟩ := List.mem_map.mp he
    exact ((hu.2 b hb).reads.pow k).scale b.2

theorem Solvable.powerBelow_moment (hu : u.Solvable s earlier) {k : Nat} (hk : 0 < k) :
    (u.moment k).All (Monomial.PowerBelow s k) := by
  cases u with
  | random d =>
    obtain ⟨q, hq⟩ := d.moment_eq_const hu k
    change (d.moment k).All _
    rw [hq]
    exact Expr.all_const ⟨Monomial.canonical_one, Or.inr hk⟩
  | branches bs =>
    apply Expr.all_sum
    intro e he
    obtain ⟨b, hb, rfl⟩ := List.mem_map.mp he
    exact Expr.all_scale ((hu.2 b hb).powerBelow_pow k)

end Update

namespace Program

section MeanVar

variable {d : Declaration} {earlier : List Symbol} (φ : Monomial → Rat)

/-- The mean of one monomial over the update of one variable. -/
def meanMonomial (d : Declaration) (φ : Monomial → Rat) (m : Monomial) : Rat :=
  if m.powerOf d.symbol = 0 then φ (m.without d.symbol)
  else (d.update.moment (m.powerOf d.symbol)).lift fun k => φ (m.without d.symbol * k)

theorem lift_meanTerm (t : Monomial × Rat) :
    (meanTerm d t).lift φ = t.2 * meanMonomial d φ t.1 := by
  unfold meanTerm meanMonomial
  simp only
  split
  · rw [Expr.lift_term]
  · rw [Expr.lift_mul, Expr.lift_term]

theorem lift_meanVar {e : Expr} (he : e.Canonical) :
    (meanVar d e).lift φ = e.lift (meanMonomial d φ) := by
  unfold meanVar
  split
  · rw [Expr.lift_sum, List.map_map, Expr.lift_eq_sum]
    exact congrArg List.sum (List.map_congr_left fun t _ => lift_meanTerm φ t)
  · next h =>
    apply Expr.lift_congr
    intro t ht
    have h0 := Expr.powerOf_eq_zero_of_not_mentions (by simpa using h) ht
    rw [meanMonomial, if_pos h0, Monomial.without_of_powerOf_eq_zero (he.monomials t ht) h0]

variable (hd : d.update.Solvable d.symbol earlier)
include hd

theorem over_meanVar (hv : ∀ s ∈ d.symbol :: earlier, s ∈ vars) {e : Expr} (he : e.Over vars) :
    (meanVar d e).Over vars := by
  unfold meanVar
  split
  · apply Expr.over_sum
    intro x hx
    obtain ⟨t, ht, rfl⟩ := List.mem_map.mp hx
    have hrest := Expr.over_term ((he.monomials t ht).without d.symbol) t.2
    unfold meanTerm
    simp only
    split
    · exact hrest
    · exact hrest.mul ((hd.over_moment _).mono hv)
  · exact he

/-- Unfolding one more variable keeps every monomial from rising in the descent. -/
theorem descendsTo_meanVar {ss : List Symbol} (hs : ∀ s ∈ ss, s ∉ d.symbol :: earlier)
    {m : Monomial} {e : Expr} (he : e.Canonical) (hm : e.All (Monomial.DescendsTo · ss m)) :
    (meanVar d e).All (Monomial.DescendsTo · (ss ++ [d.symbol]) m) := by
  unfold meanVar
  split
  · apply Expr.all_sum
    intro x hx
    obtain ⟨t, ht, rfl⟩ := List.mem_map.mp hx
    have hc := he.monomials t ht
    unfold meanTerm
    simp only
    split
    · next h0 =>
      rw [Monomial.without_of_powerOf_eq_zero hc h0]
      exact Expr.all_term ((hm t ht).keep d.symbol)
    · next h0 =>
      refine Expr.all_mul (P := fun k => k = t.1.without d.symbol) ?_ (Expr.all_term rfl)
        (Q := fun k => k.PowerBelow d.symbol (t.1.powerOf d.symbol) ∧ k.Over (d.symbol :: earlier))
        fun u hu => ⟨hd.powerBelow_moment (Nat.pos_of_ne_zero h0) u hu, (hd.over_moment _).monomials u hu⟩
      rintro k q rfl ⟨hq, hover⟩
      exact (hm t ht).step hc hq fun s hs' => ⟨hover.powerOf_eq_zero (hs s hs'),
        fun h => hs s hs' (h ▸ List.mem_cons_self)⟩
  · exact hm.mono fun k hk => hk.keep d.symbol

end MeanVar

section Iteration

variable {earlier : List Symbol} {ds : List Declaration}

/-- The mean over the updates of a list of variables, the last one first. -/
def meanVars (ds : List Declaration) (e : Expr) : Expr :=
  ds.reverse.foldl (fun acc d => meanVar d acc) e

theorem meanVars_cons (d : Declaration) (ds : List Declaration) (e : Expr) :
    meanVars (d :: ds) e = meanVar d (meanVars ds e) := by
  rw [meanVars, List.reverse_cons, List.foldl_append]
  rfl

theorem meanVars_concat (ds : List Declaration) (d : Declaration) (e : Expr) :
    meanVars (ds ++ [d]) e = meanVars ds (meanVar d e) := by
  rw [meanVars, List.reverse_append]
  rfl

theorem solvableFrom_concat (d : Declaration) :
    SolvableFrom earlier (ds ++ [d]) ↔
      SolvableFrom earlier ds ∧
        d.update.Solvable d.symbol ((ds.map Declaration.symbol).reverse ++ earlier) := by
  induction ds generalizing earlier with
  | nil => simp [SolvableFrom]
  | cons c ds ih =>
    rw [List.cons_append, SolvableFrom, ih, SolvableFrom, and_assoc, List.map_cons,
      List.reverse_cons, List.append_assoc]
    rfl

theorem over_meanVars (hs : SolvableFrom [] ds) (hv : ∀ d ∈ ds, d.symbol ∈ vars) {e : Expr}
    (he : e.Over vars) : (meanVars ds e).Over vars := by
  induction ds using List.reverseRecOn generalizing e with
  | nil => exact he
  | append_singleton ds d ih =>
    obtain ⟨hds, hd⟩ := solvableFrom_concat d |>.mp hs
    rw [meanVars_concat]
    apply ih hds fun c hc => hv c (List.mem_append_left _ hc)
    apply over_meanVar hd ?_ he
    intro s hs'
    rcases List.mem_cons.mp hs' with rfl | hs'
    · exact hv d (by simp)
    · obtain ⟨c, hc, rfl⟩ : ∃ c ∈ ds, c.symbol = s := by simpa using hs'
      exact hv c (List.mem_append_left _ hc)

theorem descendsTo_meanVars (hs : SolvableFrom [] ds) (hv : ∀ d ∈ ds, d.symbol ∈ vars)
    (hn : (ds.map Declaration.symbol).Nodup) {ss : List Symbol}
    (hss : ∀ d ∈ ds, d.symbol ∉ ss) {m : Monomial} {e : Expr} (he : e.Over vars)
    (hm : e.All (Monomial.DescendsTo · ss m)) :
    (meanVars ds e).All
      (Monomial.DescendsTo · (ss ++ (ds.map Declaration.symbol).reverse) m) := by
  induction ds using List.reverseRecOn generalizing e ss with
  | nil => simpa [meanVars] using hm
  | append_singleton ds d ih =>
    obtain ⟨hds, hd⟩ := solvableFrom_concat d |>.mp hs
    have hv' : ∀ c ∈ ds, c.symbol ∈ vars := fun c hc => hv c (List.mem_append_left _ hc)
    have hmem : ∀ s ∈ d.symbol :: ((ds.map Declaration.symbol).reverse ++ []),
        ∃ c ∈ ds ++ [d], c.symbol = s := by
      intro s hs'
      rcases List.mem_cons.mp hs' with rfl | hs'
      · exact ⟨d, by simp, rfl⟩
      · obtain ⟨c, hc, hcs⟩ : ∃ c ∈ ds, c.symbol = s := by simpa using hs'
        exact ⟨c, List.mem_append_left _ hc, hcs⟩
    have hfresh : ∀ s ∈ ss, s ∉ d.symbol :: ((ds.map Declaration.symbol).reverse ++ []) := by
      intro s hs' hmem'
      obtain ⟨c, hc, rfl⟩ := hmem s hmem'
      exact hss c hc hs'
    have hstep := descendsTo_meanVar hd hfresh he.canonical hm
    have hover : (meanVar d e).Over vars := over_meanVar hd (fun s hs' => by
      obtain ⟨c, hc, rfl⟩ := hmem s hs'
      exact hv c hc) he
    rw [List.map_append, List.nodup_append] at hn
    rw [meanVars_concat, List.map_append, List.reverse_append]
    have hfresh' : ∀ c ∈ ds, c.symbol ∉ ss ++ [d.symbol] := by
      intro c hc hcs
      rcases List.mem_append.mp hcs with hcs | hcs
      · exact hss c (List.mem_append_left _ hc) hcs
      · exact hn.2.2 _ (List.mem_map_of_mem hc) d.symbol (by simp) (List.mem_singleton.mp hcs)
    simpa using ih hds hv' hn.1 hfresh' hover hstep

theorem lift_meanVars (hs : SolvableFrom [] ds) (hv : ∀ d ∈ ds, d.symbol ∈ vars)
    (φ : Monomial → Rat) {e : Expr} (he : e.Over vars) :
    (meanVars ds e).lift φ = e.lift (ds.foldl (fun ψ d => meanMonomial d ψ) φ) := by
  induction ds using List.reverseRecOn generalizing e with
  | nil => rfl
  | append_singleton ds d ih =>
    obtain ⟨hds, hd⟩ := solvableFrom_concat d |>.mp hs
    have hover : (meanVar d e).Over vars := by
      refine over_meanVar hd (fun s hs' => ?_) he
      rcases List.mem_cons.mp hs' with rfl | hs'
      · exact hv d (by simp)
      · obtain ⟨c, hc, rfl⟩ : ∃ c ∈ ds, c.symbol = s := by simpa using hs'
        exact hv c (List.mem_append_left _ hc)
    rw [meanVars_concat, ih hds (fun c hc => hv c (List.mem_append_left _ hc)) hover,
      lift_meanVar _ he.canonical, List.foldl_append]
    rfl

end Iteration

variable {p : Program}

theorem symbol_mem_vars : ∀ d ∈ p.declarations, d.symbol ∈ p.vars :=
  fun _ hd => List.mem_map_of_mem hd

theorem isVar_of_mem_vars : ∀ s ∈ p.vars, s.isVar = true := by
  intro s hs
  obtain ⟨d, -, rfl⟩ := List.mem_map.mp hs
  rfl

theorem WellFormed.over_expectedNext (hp : p.WellFormed) {e : Expr} (he : e.Over p.vars) :
    (p.expectedNext e).Over p.vars :=
  over_meanVars hp.solvable symbol_mem_vars he

/-- The mean after one iteration is linear. -/
theorem WellFormed.lift_expectedNext (hp : p.WellFormed) (φ : Monomial → Rat) {e : Expr}
    (he : e.Over p.vars) :
    (p.expectedNext e).lift φ = e.lift fun m => (p.expectedNext (Expr.term m 1)).lift φ := by
  have hlin : ∀ {e : Expr}, e.Over p.vars → (p.expectedNext e).lift φ =
      e.lift (p.declarations.foldl (fun ψ d => meanMonomial d ψ) φ) :=
    fun he => lift_meanVars hp.solvable symbol_mem_vars φ he
  rw [hlin he]
  apply Expr.lift_congr
  intro t ht
  rw [hlin (Expr.over_term (he.monomials t ht) 1), Expr.lift_term, one_mul]

/-- A monomial that is reached by unfolding all variables is the same or comes before it. -/
theorem below_of_descendsTo {k m : Monomial} (hk : k.Over p.vars) (hm : m.Over p.vars)
    (h : k.DescendsTo p.vars.reverse m) : k = m ∨ (p.rank k).Below (p.rank m) := by
  refine h.imp_right fun h => ?_
  change LexLt _ _
  rw [rank, rank, hk.isPlain isVar_of_mem_vars, hm.isPlain isVar_of_mem_vars]
  exact h.append_right rfl

/-- The mean of a monomial after one iteration is a multiple of it and monomials below it. -/
theorem WellFormed.below_expectedNext (hp : p.WellFormed) {m : Monomial} (hm : m.Over p.vars) :
    (p.expectedNext (Expr.term m 1)).All fun k => k = m ∨ (p.rank k).Below (p.rank m) := by
  have hover := hp.over_expectedNext (Expr.over_term hm 1)
  have hself : m.DescendsTo [] m := Or.inl rfl
  have hd := descendsTo_meanVars hp.solvable symbol_mem_vars hp.nodup
    (fun _ _ => List.not_mem_nil) (Expr.over_term hm 1) (Expr.all_term hself)
  exact fun t ht => below_of_descendsTo (hover.monomials t ht) hm (hd t ht)

end Program

end ProbLoop
