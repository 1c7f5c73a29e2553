import ProbLoop.Proofs.Asymptotics.Canonicalize
import ProbLoop.Proofs.Asymptotics.Within

/-!
# Folding candidates

Each candidate is compared only with the one kept so far. Since dominance is transitive, the one kept at
the end dominates all candidates if any two of them can be compared, and the canonical expression by which
it is replaced still does.
-/

set_option autoImplicit false

namespace ProbLoop.Expr

variable {direction side : Direction} {g : Growth} {e f r : Expr}

/-! ### Canonical expressions keep the order -/

/-- Only the growth and the side of a diverging expression count. -/
theorem dominates_of_diverges (he : e.Diverges side g) (hr : r.Diverges side g)
    (h : e.dominates f direction = true) : r.dominates f direction = true := by
  rw [dominates_iff] at h ⊢
  cases h with
  | same heq =>
    subst heq
    refine .infinite hr he ?_
    split
    · exact .refl g
    · exact .refl g
  | finite ha _ _ => exact absurd (he.limit.symm.trans ha) (Limit.infinite_ne_finite _ _)
  | apart hi hj hlt => exact .apart ((rank?_of_diverges hr he).trans hi) hj hlt
  | infinite hk hl hkl =>
    obtain rfl := Limit.infinite_injective (he.limit.symm.trans hk.limit)
    obtain rfl := he.leads.growth_eq hk.leads
    exact .infinite hr hl hkl

/-- Of a finite limit with a known sign, other than zero, only the sign counts. -/
theorem dominates_of_sign? (he : e.Canonical) (hf : f.Canonical) (hr : r.Canonical) {a b : Expr}
    (ha : e.limit = .finite a) (hb : r.limit = .finite b) (hasign : a.sign? = some side.sign)
    (hbsign : b.sign? = some side.sign) (h : e.dominates f direction = true) :
    r.dominates f direction = true := by
  have hfinite : ∀ {l : Expr}, f.limit = .finite l → dominatesFinite a l direction = true →
      dominatesFinite b l direction = true := by
    intro l hl hal
    have hla := ordered_of_limit_finite he ha
    have hlo := ordered_of_limit_finite hf hl
    rw [dominatesFinite_iff hla hlo] at hal
    rw [dominatesFinite_iff (ordered_of_limit_finite hr hb) hlo]
    rcases direction.eq_or_eq_opposite side with rfl | rfl
    · exact Or.inr (Or.inl hbsign)
    · -- On the inner side the other limit has to be there as well.
      refine Or.inr (Or.inr (Or.inl ?_))
      rcases hal with rfl | houter | hinner | hsub
      · exact hasign
      · exact absurd (Option.some.inj (hasign.symm.trans houter)) direction.sign_opposite_ne
      · exact hinner
      · exact sign?_of_sub_opposite hla hlo hsub hasign
  rw [dominates_iff] at h ⊢
  cases h with
  | same heq =>
    subst heq
    exact .finite hb ha (hfinite ha ((dominatesFinite_iff (ordered_of_limit_finite he ha)
      (ordered_of_limit_finite he ha)).mpr (Or.inl rfl)))
  | finite ha' hl hal =>
    obtain rfl := Limit.finite.inj (ha.symm.trans ha')
    exact .finite hb hl (hfinite hl hal)
  | apart hi hj hlt => exact .apart (by rw [hb, ← hi, ha]; rfl) hj hlt
  | infinite hk _ _ => exact absurd (hk.limit.symm.trans ha) (Limit.infinite_ne_finite _ _)

/-- An expression that is not settled has a limit with a known sign, or its growth is unbounded. -/
theorem Leads.limit_cases (h : e.Leads side g) (hsettled : e.isSettled = false) :
    (g = ⟨1, 0⟩ ∧ ∃ a, e.limit = .finite a ∧ a.sign? = some side.sign) ∨
      (1 ≤ g.magnitude ∧ g ≠ ⟨1, 0⟩) := by
  have hdep := dependsOnCounter_of_not_isSettled hsettled
  obtain ⟨d, hd, hosc, hdg, hsign⟩ := h
  have hlimit : e.limit = dominantLimit d := by rw [limit, if_pos hdep, hd]
  have hone : ¬g.magnitude < 1 := by
    intro hsmall
    have hzero : e.limit.isZero = true := by
      rw [hlimit, dominantLimit, hdg, if_pos hsmall]
      rfl
    rw [isSettled, hzero, Bool.or_true, Bool.true_or] at hsettled
    exact Bool.false_ne_true hsettled.symm
  by_cases hunit : g = ⟨1, 0⟩
  · refine Or.inl ⟨hunit, d.coefficient, ?_, hsign⟩
    simp [hlimit, dominantLimit, hdg, hunit, hosc]
  · exact Or.inr ⟨not_lt.mp hone, hunit⟩

/-- The canonical expression dominates whatever the given one dominates. -/
theorem Leads.bound_dominates (he : e.Canonical) (hf : f.Canonical) (hleads : e.Leads side g)
    (hsettled : e.isSettled = false) {c : Symbol} (hc : c.isPositive = true)
    (h : e.dominates f direction = true) : (g.bound side c).dominates f direction = true := by
  have hg := hleads.magnitude_pos he
  rcases hleads.limit_cases hsettled with ⟨rfl, a, ha, hasign⟩ | ⟨hone, hne⟩
  · have hlimit : ((⟨1, 0⟩ : Growth).bound side c).limit = .finite ((⟨1, 0⟩ : Growth).bound side c) :=
      limit_of_not_dependsOnCounter (dependsOnCounter_bound_unit hc)
    refine dominates_of_sign? he hf (canonical_term (Growth.canonical_monomial hg c) _) ha hlimit
      hasign ?_ h
    rw [Growth.bound, monomial_unit, sign?_positive hc]
  · exact dominates_of_diverges (hleads.diverges hone hne)
      ((leads_bound hg hc).diverges hone hne) h

/-! ### The candidate that is kept -/

/-- Any two of the candidates can be compared, in at least one direction and one way round. -/
def Comparable (fs : List Expr) : Prop :=
  ∀ f ∈ fs, ∀ h ∈ fs, ∃ direction,
    f.dominates h direction = true ∨ h.dominates f direction = true

theorem Comparable.of_subset {fs gs : List Expr} (h : Comparable gs) (hsub : ∀ f ∈ fs, f ∈ gs) :
    Comparable fs :=
  fun f hf g hg => h f (hsub f hf) g (hsub g hg)

/-- What can be compared in one direction can be compared in the other one. -/
theorem Comparable.total {fs : List Expr} (h : Comparable fs) (hcanonical : ∀ f ∈ fs, f.Canonical)
    (direction : Direction) (hf : f ∈ fs) (hr : r ∈ fs) :
    f.dominates r direction = true ∨ r.dominates f direction = true := by
  obtain ⟨other, hcompared⟩ := h f hf r hr
  rcases direction.eq_or_eq_opposite other with rfl | rfl
  · exact hcompared
  · rw [or_comm, ← direction.opposite_opposite]
    exact hcompared.imp (dominates_opposite (hcanonical f hf) (hcanonical r hr))
      (dominates_opposite (hcanonical r hr) (hcanonical f hf))

/-- What dominates the candidates that are left dominates the one that is dropped. -/
theorem dominates_dropped {kept dropped : Expr} {rest : List Expr}
    (hcanonical : ∀ f ∈ kept :: dropped :: rest, f.Canonical)
    (hdropped : kept.dominates dropped direction = true)
    (hrest : ∀ f ∈ kept :: rest, (dominantOf direction kept rest).dominates f direction = true) :
    ∀ f ∈ kept :: dropped :: rest,
      (dominantOf direction kept rest).dominates f direction = true := by
  obtain ⟨hkept, hdropped', hothers⟩ := by simpa only [List.forall_mem_cons] using hcanonical
  have hlast : (dominantOf direction kept rest).Canonical :=
    List.forall_mem_cons.mpr ⟨hkept, hothers⟩ _ (List.mem_cons.mpr (dominantOf_mem direction kept rest))
  obtain ⟨hfirst, hlater⟩ := List.forall_mem_cons.mp hrest
  simp only [List.forall_mem_cons]
  exact ⟨hfirst, dominates_trans hlast hkept hdropped' hfirst hdropped, hlater⟩

/-- The candidate that is kept at the end dominates all candidates. -/
theorem dominantOf_dominates (direction : Direction) {kept : Expr} {fs : List Expr}
    (hcanonical : ∀ f ∈ kept :: fs, f.Canonical) (hcomparable : Comparable (kept :: fs)) :
    ∀ f ∈ kept :: fs, (dominantOf direction kept fs).dominates f direction = true := by
  induction fs generalizing kept with
  | nil => exact List.forall_mem_singleton.mpr (dominates_refl kept direction)
  | cons f rest ih =>
    have hswap : ∀ e, e ∈ kept :: f :: rest ↔ e ∈ f :: kept :: rest := fun e =>
      (List.Perm.swap f kept rest).mem_iff
    have hskip : ∀ e ∈ kept :: rest, e ∈ kept :: f :: rest := by
      simp +contextual
    have hdrop : ∀ e ∈ f :: rest, e ∈ kept :: f :: rest := fun e => List.mem_cons_of_mem kept
    rw [dominantOf]
    split
    · next hdominates =>
      exact dominates_dropped hcanonical hdominates
        (ih (fun e he => hcanonical e (hskip e he)) (hcomparable.of_subset hskip))
    · next hnot =>
      have hdominates : f.dominates kept direction = true :=
        (hcomparable.total hcanonical direction List.mem_cons_self
          (hdrop f List.mem_cons_self)).resolve_left hnot
      rw [if_pos hdominates]
      intro e he
      exact dominates_dropped (fun e he => hcanonical e ((hswap e).mpr he)) hdominates
        (ih (fun e he => hcanonical e (hdrop e he)) (hcomparable.of_subset hdrop)) e ((hswap e).mp he)

/-- A bound that is found dominates every candidate. -/
theorem eventualBound_dominates {fs : List Expr} (hne : fs ≠ []) (hcanonical : ∀ f ∈ fs, f.Canonical)
    (hcomparable : Comparable fs) (supply : Supply) :
    ∃ u, ((eventualBound direction fs).run.run supply).1 = .ok u ∧
      ∀ f ∈ fs, u.dominates f direction = true := by
  obtain ⟨first, rest, rfl⟩ := List.exists_cons_of_ne_nil hne
  have hall := dominantOf_dominates direction hcanonical hcomparable
  have hlast : (dominantOf direction first rest).Canonical :=
    hcanonical _ (List.mem_cons.mpr (dominantOf_mem direction first rest))
  refine ⟨((dominantOf direction first rest).canonicalize.run supply).1, rfl, fun f hf => ?_⟩
  rcases canonicalize_cases hlast with hkept | ⟨side, g, hsettled, hleads, hdrawn⟩
  · rw [hkept]
    exact hall f hf
  · rw [hdrawn]
    exact hleads.bound_dominates hlast (hcanonical f hf) hsettled rfl (hall f hf)

/-- In each direction dominance is a preorder, whatever symbols the coefficients contain. Folding
candidates of which any two can be compared therefore loses none of them: there is an upper bound, which
dominates them all upward, and a lower bound, which dominates them all downward. -/
theorem folding_dominates :
    (∀ (direction : Direction) (f : Expr), f.dominates f direction = true) ∧
      (∀ (direction : Direction) (f g h : Expr), f.Built → g.Built → h.Built →
        f.dominates g direction = true → g.dominates h direction = true →
          f.dominates h direction = true) ∧
      ∀ fs : List Expr, fs ≠ [] → (∀ f ∈ fs, f.Built) → Comparable fs →
        (∀ supply, ∃ u, ((dominating fs).run.run supply).1 = .ok u ∧
          ∀ f ∈ fs, u.dominates f .up = true) ∧
        ∀ supply, ∃ l, ((dominated fs).run.run supply).1 = .ok l ∧
          ∀ f ∈ fs, l.dominates f .down = true := by
  refine ⟨fun direction f => dominates_refl f direction, fun direction f g h hf hg hh =>
    dominates_trans hf.canonical hg.canonical hh.canonical, fun fs hne hbuilt hcomparable => ?_⟩
  have hcanonical : ∀ f ∈ fs, f.Canonical := fun f hf => (hbuilt f hf).canonical
  exact ⟨eventualBound_dominates hne hcanonical hcomparable,
    eventualBound_dominates hne hcanonical hcomparable⟩

/-- Candidates with constants in their coefficients, one of which vanishes. -/
def rivals : List Expr :=
  [ofSymbol (.positive "a") * counter + ofSymbol (.real "x0"), exponential (1 / 2),
    counter.pow 2 * ofSymbol (.positive "b") - ofSymbol (.real "x0") * counter]

/-- The quadratic candidate is the upper bound, with a fresh constant, and the one that vanishes is the
lower bound. The quadratic growth dominates it through the linear one. -/
theorem folding_rivals :
    ((dominating rivals).run.run ⟨5⟩).1 = .ok (ofSymbol (.positive "c5") * counter.pow 2) ∧
      (∀ f ∈ rivals, (ofSymbol (.positive "c5") * counter.pow 2).dominates f .up = true) ∧
      ((dominated rivals).run.run ⟨5⟩).1 = .ok (exponential (1 / 2)) ∧
      (∀ f ∈ rivals, (exponential (1 / 2)).dominates f .down = true) ∧
      (counter.pow 2).dominates (exponential (1 / 2)) .up = true := by
  have hbuilt : ∀ f ∈ rivals, f.Built := by
    simp only [rivals, List.forall_mem_cons]
    exact ⟨.add (.mul (.ofSymbol _) (.ofSymbol _)) (.ofSymbol _), .exponential _,
      .sub (.mul (.pow (.ofSymbol _) 2) (.ofSymbol _)) (.mul (.ofSymbol _) (.ofSymbol _)),
      List.forall_mem_nil _⟩
  have hupper : ((dominating rivals).run.run ⟨5⟩).1 =
      .ok (ofSymbol (.positive "c5") * counter.pow 2) := by
    decide +kernel
  have hlower : ((dominated rivals).run.run ⟨5⟩).1 = .ok (exponential (1 / 2)) := by
    decide +kernel
  have hup : ∀ f ∈ rivals, ∀ h ∈ rivals, f.dominates h .up = true ∨ h.dominates f .up = true := by
    decide +kernel
  have hfold := folding_dominates.2.2 rivals (by simp [rivals]) hbuilt
    fun f hf h hh => ⟨.up, hup f hf h hh⟩
  obtain ⟨u, hu, hdominates⟩ := hfold.1 ⟨5⟩
  obtain ⟨l, hl, hdominated⟩ := hfold.2 ⟨5⟩
  obtain rfl := Except.ok.inj (hu.symm.trans hupper)
  obtain rfl := Except.ok.inj (hl.symm.trans hlower)
  have hlinear : (counter.pow 2).dominates (ofSymbol (.positive "a") * counter) .up = true := by
    decide +kernel
  have hvanishing : (ofSymbol (.positive "a") * counter).dominates (exponential (1 / 2)) .up =
      true := by decide +kernel
  exact ⟨hupper, hdominates, hlower, hdominated, folding_dominates.2.1 .up _ _ _ (.pow (.ofSymbol _) 2)
    (.mul (.ofSymbol _) (.ofSymbol _)) (.exponential _) hlinear hvanishing⟩

end ProbLoop.Expr
