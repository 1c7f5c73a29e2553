import ProbLoop.Proofs.Asymptotics.Drawn
import ProbLoop.Proofs.Expr.Negation
import ProbLoop.Proofs.Expr.Renaming

/-!
# Bounds of negated expressions

The dominant part of a negated expression is that of the expression with its coefficient negated, so limits
and eventual signs are mirrored. Splitting on an unknown sign and folding the two cases upward picks the one
that tends to plus infinity, and folding downward the other one. Either way the bound of an expression and
the opposite bound of its negation are both kept, or both replaced by a fresh constant times the same growth.
-/

set_option autoImplicit false

namespace ProbLoop

/-! ### Dominant parts and limits -/

/-- The dominant part of the negated expression. -/
def Dominant.negated (d : Dominant) : Dominant := { d with coefficient := -d.coefficient }

/-- The limit of the negated expression. -/
def Limit.negated : Limit → Limit
  | finite a => finite (-a)
  | posInf => negInf
  | negInf => posInf
  | signedInf c => signedInf (-c)
  | undefined => undefined

namespace Expr

variable {direction side : Direction} {c e : Expr} {d : Dominant} {g : Growth}

@[simp] theorem growths_neg (e : Expr) : (-e).growths = e.growths := by
  rw [growths, terms_neg, List.map_map]
  rfl

theorem dominant?_neg (e : Expr) : (-e).dominant? = e.dominant?.map Dominant.negated := by
  rw [dominant?, growths_neg, dominant?, Option.map_map]
  refine congrArg (fun f => Option.map f _) (funext fun g => ?_)
  have hleading : (-e).terms.filter (fun t => Growth.ofMonomial t.1 == g) =
      (e.terms.filter fun t => Growth.ofMonomial t.1 == g).map fun t => (t.1, -t.2) := by
    rw [terms_neg, List.filter_map]
    rfl
  dsimp only
  rw [hleading, Function.comp_apply, Dominant.negated, Dominant.mk.injEq]
  refine ⟨rfl, ?_, ?_⟩
  · rw [← ofTerms_neg, List.filter_map, List.map_map, List.map_map]
    rfl
  · rw [List.any_map]
    rfl

theorem dominantLimit_neg (d : Dominant) : dominantLimit d.negated = (dominantLimit d).negated := by
  have hsign : d.negated.coefficient.sign? = d.coefficient.sign?.map Sign.flip := flip_sign? _
  unfold dominantLimit
  rw [hsign]
  change (if d.growth.magnitude < 1 then _ else if d.oscillates then _ else
    if d.growth.magnitude = 1 ∧ d.growth.degree = 0 then _ else _) = _
  split
  · rfl
  · split
    · rfl
    · split
      · rfl
      · cases d.coefficient.sign? with
        | none => rfl
        | some s => cases s <;> rfl

theorem limit_neg (e : Expr) : (-e).limit = e.limit.negated := by
  rw [limit, limit, dependsOnCounter_neg, dominant?_neg]
  split
  · cases e.dominant? with
    | none => rfl
    | some d => exact dominantLimit_neg d
  · rfl

theorem flip_eventualSign? (e : Expr) : (-e).eventualSign? = e.eventualSign?.map Sign.flip := by
  rw [eventualSign?, eventualSign?, dependsOnCounter_neg, dominant?_neg, flip_sign?]
  split
  · cases e.dominant? with
    | none => rfl
    | some d =>
      rw [Option.map_some]
      change (if d.oscillates = true then none else (-d.coefficient).sign?) = _
      rw [flip_sign?]
      dsimp only
      split <;> rfl
  · rfl

/-! ### Canonical expressions -/

@[simp] theorem isCanonical_neg (e : Expr) : (-e).isCanonical = e.isCanonical := by
  obtain ⟨ts⟩ := e
  unfold isCanonical
  rw [terms_neg]
  match ts with
  | [] => rfl
  | [(m, q)] =>
    simp only [List.map_cons, List.map_nil]
    rw [Number.abs_eq, abs_neg, ← Number.abs_eq]
  | _ :: _ :: _ => rfl

@[simp] theorem isSettled_neg (e : Expr) : (-e).isSettled = e.isSettled := by
  have hzero : (-e).limit.isZero = e.limit.isZero := by
    rw [limit_neg]
    cases e.limit <;> simp [Limit.negated, Limit.isZero]
  rw [isSettled, isSettled, dependsOnCounter_neg, hzero, isCanonical_neg]

theorem Leads.neg (h : e.Leads side g) : (-e).Leads side.opposite g := by
  obtain ⟨d, hd, hosc, hg, hsign⟩ := h
  refine ⟨d.negated, by rw [dominant?_neg, hd, Option.map_some], hosc, hg, ?_⟩
  rw [Dominant.negated, flip_sign?, hsign]
  cases side <;> rfl

theorem Leads.canonicalOf? (he : e.Canonical) (h : e.Leads side g) :
    e.canonicalOf? = some (g.bound side) := by
  have hg := h.magnitude_pos he
  obtain ⟨d, hd, hosc, rfl, hsign⟩ := h
  rw [Expr.canonicalOf?, hd]
  dsimp only
  rw [if_neg (by simp [hosc]), hsign]
  cases side with
  | up => exact congrArg some (funext fun c => ofSymbol_mul_order hg c)
  | down =>
    refine congrArg some (funext fun c => ?_)
    rw [ofSymbol_mul_order hg, scale_term, one_mul]
    rfl

theorem canonicalize_of_leads (he : e.Canonical) (h : e.Leads side g) (hsettled : e.isSettled = false) :
    e.canonicalize = g.bound side <$> Supply.draw "c" := by
  rw [canonicalize, if_neg (by simp [hsettled]), h.canonicalOf? he]
  rfl

/-- An expression and its negation are both kept, or replaced on opposite sides with the same growth. -/
theorem canonicalize_neg (he : e.Canonical) :
    (e.canonicalize = pure e ∧ (-e).canonicalize = pure (-e)) ∨
      ∃ side g, e.Leads side g ∧ e.canonicalize = g.bound side <$> Supply.draw "c" ∧
        (-e).canonicalize = g.bound side.opposite <$> Supply.draw "c" := by
  cases hsettled : e.isSettled with
  | true =>
    exact Or.inl ⟨canonicalize_of_isSettled hsettled,
      canonicalize_of_isSettled ((isSettled_neg e).trans hsettled)⟩
  | false =>
    have hsettled' : (-e).isSettled = false := (isSettled_neg e).trans hsettled
    by_cases hleads : ∃ side g, e.Leads side g
    · obtain ⟨side, g, hleads⟩ := hleads
      exact Or.inr ⟨side, g, hleads, canonicalize_of_leads he hleads hsettled,
        canonicalize_of_leads he.neg hleads.neg hsettled'⟩
    · have hkept : ∀ {f : Expr}, f.Canonical → (¬∃ side g, f.Leads side g) →
          f.canonicalize = pure f := by
        intro f hf hnot
        rcases canonicalize_cases hf with h | ⟨side, g, -, hleads, -⟩
        · exact h
        · exact absurd ⟨side, g, hleads⟩ hnot
      refine Or.inl ⟨hkept he hleads, hkept he.neg ?_⟩
      rintro ⟨side, g, h⟩
      have hback := h.neg
      rw [neg_neg_of_ordered he.toOrdered] at hback
      exact hleads ⟨side.opposite, g, hback⟩

end Expr

theorem Growth.neg_bound (g : Growth) (side : Direction) (c : Symbol) :
    -(g.bound side c) = g.bound side.opposite c :=
  (Expr.ordered_term _ _).neg.ext_lift (Expr.ordered_term _ _) fun φ => by
    rw [Expr.lift_neg, Expr.lift_term, Growth.bound, Expr.lift_term, Direction.factor_opposite,
      neg_mul]

namespace Expr

variable {direction side : Direction} {c e : Expr} {d : Dominant} {g : Growth}

/-! ### Splitting and folding -/

/-- The value that the coefficient gets in the candidate on one side. -/
def target (p : Symbol) : Direction → Expr
  | .up => ofSymbol p
  | .down => -ofSymbol p

theorem still_target {p : Symbol} (hp : p.isPositive = true) (side : Direction) :
    (target p side).Still := by
  have hstill : (ofSymbol p).Still := still_ofSymbol (ne_counter_of_isPositive hp)
  cases side with
  | up => exact hstill
  | down => exact ⟨hstill.toCanonical.neg, all_neg hstill.still⟩

theorem realValue_target (p : Symbol) (side : Direction) (n : Nat) (x : RealValuation) :
    (target p side).realValue n x = side.factor * p.realValue n x := by
  cases side with
  | up =>
    rw [target, realValue_ofSymbol]
    simp [Direction.factor]
  | down =>
    rw [target, realValue_neg, realValue_ofSymbol]
    simp [Direction.factor]

/-- An expression that is canonical and has a canonical dominant part is nothing but this part. -/
theorem eq_bound_of_isCanonical {p : Symbol} (h : e.isCanonical = true)
    (hpart : e.dominantPart g = g.bound side p) : e = g.bound side p := by
  obtain ⟨ts⟩ := e
  match ts, h with
  | [t], _ =>
    have hterms : [t].filter (fun t => Growth.ofMonomial t.1 == g) = (g.bound side p).terms :=
      congrArg Expr.terms hpart
    have hsublist := List.filter_sublist (p := fun t => Growth.ofMonomial t.1 == g) (l := [t])
    rw [hterms, terms_bound] at hsublist
    have heq := hsublist.eq_of_length rfl
    rw [← heq, ← terms_bound]

section Candidates

variable {s : Solvable} {p : Symbol} (hsplits : e.Splits d s) (hp : p.isPositive = true)
include hsplits hp

theorem canonical_candidate (side : Direction) : (e.solveFor s (target p side)).Canonical :=
  hsplits.canonical_solveFor (still_target hp side) hsplits.canonical

theorem diverges_candidate (side : Direction) :
    (e.solveFor s (target p side)).Diverges side d.growth :=
  ⟨hsplits.limit_solveFor (still_target hp side) hp (realValue_target p side),
    hsplits.leads_solveFor (still_target hp side) hp (realValue_target p side)⟩

theorem dominantPart_candidate (side : Direction) :
    (e.solveFor s (target p side)).dominantPart d.growth = d.growth.bound side p := by
  rw [hsplits.solveFor_eq (still_target hp side) hp (realValue_target p side)]
  exact dominantPart_add_bound
    (hsplits.canonical_solveFor (still_target hp side) (hsplits.canonical.filter _))
    (magnitude_pos hsplits.canonical hsplits.dominant) (ne_counter_of_isPositive hp)
    ((hsplits.below_solveFor (still_target hp side)).mono fun _ h => h.2)

/-- Of the two candidates, folding picks the one that tends to the infinity of its direction. -/
theorem dominantOf_candidates (direction : Direction) :
    dominantOf direction (e.solveFor s (target p .down)) [e.solveFor s (target p .up)] =
      e.solveFor s (target p direction) := by
  have hdown : (e.solveFor s (target p .down)).limit.rank? = some (-1) := by
    rw [(diverges_candidate hsplits hp .down).limit]
    rfl
  have hup : (e.solveFor s (target p .up)).limit.rank? = some 1 := by
    rw [(diverges_candidate hsplits hp .up).limit]
    rfl
  cases direction with
  | up =>
    have hnot : ¬(e.solveFor s (target p .down)).dominates (e.solveFor s (target p .up)) .up = true := by
      rw [dominates_of_rank hdown hup (by decide)]
      norm_num [Direction.factor]
    have hpicks : (e.solveFor s (target p .up)).dominates (e.solveFor s (target p .down)) .up = true :=
      (dominates_of_rank hup hdown (by decide)).mpr (by norm_num [Direction.factor])
    rw [dominantOf, if_neg hnot, if_pos hpicks, dominantOf]
  | down =>
    have hkeeps : (e.solveFor s (target p .down)).dominates (e.solveFor s (target p .up)) .down = true :=
      (dominates_of_rank hdown hup (by decide)).mpr (by norm_num [Direction.factor])
    rw [dominantOf, if_pos hkeeps, dominantOf]

/-- A candidate is canonical already, or it is replaced by a canonical expression of the same growth. -/
theorem canonicalize_candidate (side : Direction) :
    (e.solveFor s (target p side) = d.growth.bound side p ∧
      (e.solveFor s (target p side)).canonicalize = pure (e.solveFor s (target p side))) ∨
    (e.solveFor s (target p side)).canonicalize = d.growth.bound side <$> Supply.draw "c" := by
  have hdiverges := diverges_candidate hsplits hp side
  cases hsettled : (e.solveFor s (target p side)).isSettled with
  | false =>
    exact Or.inr (canonicalize_of_leads (canonical_candidate hsplits hp side) hdiverges.leads hsettled)
  | true =>
    refine Or.inl ⟨eq_bound_of_isCanonical ?_ (dominantPart_candidate hsplits hp side),
      canonicalize_of_isSettled hsettled⟩
    have hzero : (e.solveFor s (target p side)).limit.isZero = false := by
      rw [hdiverges.limit]
      cases side <;> rfl
    rwa [isSettled, dependsOnCounter_of_limit hdiverges.limit, hzero, Bool.not_true, Bool.false_or,
      Bool.false_or] at hsettled

end Candidates

/-- Splitting an expression with an unknown sign and folding the two cases leads to a fresh constant times
the growth of the dominant part, on the side of the direction. -/
theorem run_splitBound_of_signed (he : e.Canonical) (hlimit : e.limit = .signedInf c)
    (hd : e.dominant? = some d) {s : Solvable} (hs : c.solvable? = some s) (direction : Direction)
    (supply : Supply) : ∃ x later, supply.Draws later x ∧
      (do eventualBound direction (← e.splitSign) : Attempt Supply Expr).run.run supply =
        (.ok (d.growth.bound direction x), later) := by
  obtain ⟨d', -, hsplits⟩ := exists_splits he hlimit hs
  obtain rfl := Option.some.inj (hd.symm.trans hsplits.dominant)
  have hsplit : e.splitSign.run.run supply =
      (.ok [e.solveFor s (target (.positive ("e" ++ toString supply.next)) .down),
        e.solveFor s (target (.positive ("e" ++ toString supply.next)) .up)],
        ⟨supply.next + 1⟩) := by
    rw [splitSign]
    simp only [hlimit, hs]
    rfl
  have hp : (Symbol.positive ("e" ++ toString supply.next)).isPositive = true := rfl
  rw [Attempt.run_bind_ok hsplit, eventualBound, dominantOf_candidates hsplits hp]
  rcases canonicalize_candidate hsplits hp direction with ⟨heq, hkept⟩ | hdrawn
  · rw [hkept, heq]
    exact ⟨_, _, Supply.draws_next 'e' supply, rfl⟩
  · rw [hdrawn]
    refine ⟨_, _, (Supply.draws_next 'c' ⟨supply.next + 1⟩).mono supply.later_draw (.refl _), rfl⟩

theorem splitBound_of_settled (h : ∀ c, e.limit ≠ .signedInf c) :
    (do eventualBound direction (← e.splitSign) : Attempt Supply Expr) = liftM e.canonicalize := by
  rw [splitSign_of_settled h, pure_bind]
  rfl

theorem run_draw (make : Symbol → Expr) (supply : Supply) :
    (liftM (make <$> Supply.draw "c") : Attempt Supply Expr).run.run supply =
      (.ok (make (.positive (String.singleton 'c' ++ toString supply.next))), ⟨supply.next + 1⟩) :=
  rfl

/-- The bound of an expression and the opposite bound of its negation: the expression itself and its
negation, or fresh constants times the same growth on opposite sides. -/
inductive Mirrored (e : Expr) (drawn drawn' : Symbol → Prop) : Expr → Expr → Prop
  | kept : Mirrored e drawn drawn' e (-e)
  | bound {side : Direction} {g : Growth} {x x' : Symbol} (hg : 0 < g.magnitude) (hx : drawn x)
      (hx' : drawn' x') : Mirrored e drawn drawn' (g.bound side x) (g.bound side.opposite x')

/-- Where a bound of an expression is found, the opposite bound of its negation is found later on. -/
theorem splitBound_neg (direction : Direction) (he : e.Canonical) {supply later : Supply} {r : Expr}
    (h : (do eventualBound direction (← e.splitSign) : Attempt Supply Expr).run.run supply =
      (.ok r, later)) (supply' : Supply) :
    ∃ r' later', (do eventualBound direction.opposite (← (-e).splitSign) :
        Attempt Supply Expr).run.run supply' = (.ok r', later') ∧
      e.Mirrored (supply.Draws later) (supply'.Draws later') r r' := by
  by_cases hsigned : ∃ c, e.limit = .signedInf c
  · obtain ⟨c, hlimit⟩ := hsigned
    have hlimit' : (-e).limit = .signedInf (-c) := by rw [limit_neg, hlimit, Limit.negated]
    obtain ⟨d, hd, -⟩ := dominant_of_limit_signedInf hlimit
    have hd' : (-e).dominant? = some d.negated := by rw [dominant?_neg, hd, Option.map_some]
    obtain ⟨s, hs⟩ : ∃ s, c.solvable? = some s := by
      cases hs : c.solvable? with
      | some s => exact ⟨s, rfl⟩
      | none =>
        rw [splitSign] at h
        simp only [hlimit, hs] at h
        cases h
    have hs' := solvable?_neg c
    rw [hs, Option.map_some] at hs'
    obtain ⟨x, last, hx, hrun⟩ := run_splitBound_of_signed he hlimit hd hs direction supply
    obtain ⟨x', later', hx', hrun'⟩ :=
      run_splitBound_of_signed he.neg hlimit' hd' hs' direction.opposite supply'
    obtain ⟨hr, rfl⟩ := Prod.mk.inj (h.symm.trans hrun)
    obtain rfl := Except.ok.inj hr
    exact ⟨_, _, hrun', .bound (magnitude_pos he hd) hx hx'⟩
  · have hsettled : ∀ c, e.limit ≠ .signedInf c := fun c hc => hsigned ⟨c, hc⟩
    have hsettled' : ∀ c, (-e).limit ≠ .signedInf c := by
      intro c hc
      have hback := limit_neg (-e)
      rw [neg_neg_of_ordered he.toOrdered, hc, Limit.negated] at hback
      exact hsettled _ hback
    rw [splitBound_of_settled hsettled] at h
    rw [splitBound_of_settled hsettled']
    rcases canonicalize_neg he with ⟨hkept, hkept'⟩ | ⟨side, g, hleads, hdrawn, hdrawn'⟩
    · rw [hkept] at h
      obtain ⟨hr, rfl⟩ := Prod.mk.inj h
      obtain rfl := Except.ok.inj hr
      rw [hkept']
      exact ⟨_, _, rfl, .kept⟩
    · rw [hdrawn, run_draw] at h
      obtain ⟨hr, rfl⟩ := Prod.mk.inj h
      obtain rfl := Except.ok.inj hr
      rw [hdrawn', run_draw]
      exact ⟨_, _, rfl, .bound (hleads.magnitude_pos he) (Supply.draws_next 'c' supply)
        (Supply.draws_next 'c' supply')⟩

/-! ### Renaming the drawn constants -/

theorem value_bound (g : Growth) (side : Direction) (c : Symbol) (n : Nat) (v : Valuation) :
    (g.bound side c).value n v = side.factor * (c.value n v * (n ^ g.degree * g.magnitude ^ n)) := by
  simp only [Growth.bound, Growth.monomial, value_term, Monomial.value_mul, Monomial.value_ofSymbol,
    Monomial.value_exponential, Symbol.value, pow_one]

theorem rename_bound {ρ : Equiv.Perm Symbol} (hcounter : ρ .counter = .counter) (hg : 0 < g.magnitude)
    {x : Symbol} (hx : x ≠ .counter) : (g.bound side x).rename ρ = g.bound side (ρ x) := by
  have hcanonical : ∀ c, (g.bound side c).Canonical :=
    fun c => canonical_term (Growth.canonical_monomial hg c) _
  have hne : ρ x ≠ .counter := fun h => hx (ρ.injective (h.trans hcounter.symm))
  refine ((hcanonical x).rename ρ).ext_value (hcanonical _) (N := 0) fun n _ v _ => ?_
  have hvalue : x.value n (v ∘ ρ) = (ρ x).value n v := by
    rw [Symbol.value_of_ne_counter hx, Symbol.value_of_ne_counter hne]
    rfl
  rw [value_rename hcounter, value_bound, value_bound, hvalue]

/-- The two bounds are opposite, up to a renaming of the drawn constants. It does not matter how symbols are
renamed that occur neither in the expression nor in the first bound. -/
theorem Mirrored.exists_renaming {P drawn drawn' : Symbol → Prop} {r r' : Expr}
    (h : e.Mirrored drawn drawn' r r') (he : e.Uses P) (hdrawn : ∀ s, drawn s → s.isPositive = true) :
    ∃ ρ : Equiv.Perm Symbol, (∀ s, ρ s ≠ s → drawn s ∨ drawn' s) ∧
      ∀ σ : Equiv.Perm Symbol, σ .counter = .counter → (∀ s, P s ∨ drawn s → σ s = ρ s) →
        r' = -r.rename σ := by
  cases h with
  | kept =>
    refine ⟨1, fun s hs => absurd rfl hs, fun σ hcounter hσ => ?_⟩
    rw [(he.mono fun s hs => hσ s (Or.inl hs)).rename_eq hcounter]
  | @bound side g x x' hg hx hx' =>
    refine ⟨Equiv.swap x x', fun s hs => ?_, fun σ hcounter hσ => ?_⟩
    · rcases eq_or_ne s x with rfl | hne
      · exact Or.inl hx
      · rcases eq_or_ne s x' with rfl | hne'
        · exact Or.inr hx'
        · exact absurd (Equiv.swap_apply_of_ne_of_ne hne hne') hs
    · rw [rename_bound hcounter hg (ne_counter_of_isPositive (hdrawn x hx)), hσ x (Or.inr hx),
        Equiv.swap_apply_left, Growth.neg_bound]

end Expr

end ProbLoop
