import ProbLoop.Proofs.Envelope.Within
import ProbLoop.Proofs.Program.Given

/-!
# The symbols of envelopes

The bounds of envelopes are put together from what the program says, from bounds of other envelopes and from
fresh constants. So if only symbols that may be used at some state stand in the expressions that are asked
about and in the envelopes of other monomials, only symbols that may be used afterwards stand in the bounds.
-/

set_option autoImplicit false

namespace ProbLoop

open Analysis

/-- The bounds of an envelope are made from symbols with a property. -/
structure Envelope.Uses (P : Symbol → Prop) (b : Envelope) : Prop where
  lower : b.lower.Uses P
  upper : b.upper.Uses P
  absolute : ∀ e, b.absolute = some e → e.Uses P

theorem Envelope.Uses.mono {P Q : Symbol → Prop} {b : Envelope} (h : b.Uses P)
    (hPQ : ∀ s, P s → Q s) : b.Uses Q :=
  ⟨h.lower.mono hPQ, h.upper.mono hPQ, fun e he => (h.absolute e he).mono hPQ⟩

theorem Envelope.uses_between {P : Symbol → Prop} {e lower upper : Expr} {polarity : Polarity}
    (hl : lower.Uses P) (hu : upper.Uses P) : (Envelope.between e lower upper polarity).Uses P :=
  ⟨hl, hu, fun _ h => by cases h⟩

/-! ### Drawing -/

section Drawing

variable {P : Supply → Symbol → Prop} (hP : Vocabulary P) {s : Supply} {H : Prop}
include hP

theorem Envelope.advances_absoluteUpper {b : Envelope} (hb : H → b.Uses (P s)) :
    b.absoluteUpper.Advances Supply.Later s fun s' r => H → r.1.Uses (P s') := by
  unfold absoluteUpper
  cases h : b.absolute with
  | some value => exact Attempt.advances_pure (.refl s) fun hH => (hb hH).absolute value h
  | none =>
    have hbounds : H → ∀ f ∈ [b.upper, -b.lower], f.Uses (P s) := fun hH =>
      List.forall_mem_cons.mpr ⟨(hb hH).upper, List.forall_mem_singleton.mpr (hb hH).lower.neg⟩
    exact (Expr.advances_eventualBound hP .up hbounds).bind Supply.progress_later
      fun _ s' _ hvalue => Attempt.advances_pure (.refl s') hvalue

namespace Program

theorem advances_startOn (possible : Bool) {side : Expr → Expr}
    (h : ∀ {s' : Supply} {e : Expr}, e.Uses (P s') → (side e).Uses (P s')) :
    (startOn possible side).Advances Supply.Later s fun s' fs => ∀ f ∈ fs, f.Uses (P s') := by
  apply Attempt.advances_ite
  · exact fun _ => Attempt.advances_lift s.later_draw (List.forall_mem_singleton.mpr
      (h (Expr.uses_ofSymbol (hP.drawn (Supply.draws_next 'd' s)))))
  · exact fun _ => Attempt.advances_pure (.refl s) fun _ hf => absurd hf List.not_mem_nil

theorem advances_startingValues (polarity : Polarity) :
    (startingValues polarity).Advances Supply.Later s fun s' starts =>
      ∀ f ∈ starts, f.Uses (P s') := by
  rw [startingValues_eq]
  apply (advances_startOn hP _ fun h => h).bind Supply.progress_later
  intro above s' _ habove
  apply (advances_startOn hP _ fun h => h.neg).bind Supply.progress_later
  intro below s'' hlater hbelow
  apply Attempt.advances_pure (.refl s'')
  split
  · exact List.forall_mem_singleton.mpr Expr.uses_zero
  · exact fun f hf => (List.mem_append.mp hf).elim (fun hf => (habove f hf).later hP hlater)
      (hbelow f)

theorem advances_candidates {factors : List Rat} {inhomogeneous : Expr} {starts : List Expr}
    (hi : H → inhomogeneous.Uses (P s)) (hstarts : ∀ f ∈ starts, f.Uses (P s)) :
    (candidates factors inhomogeneous starts).Advances Supply.Later s fun s' fs =>
      H → ∀ f ∈ fs, f.Uses (P s') := by
  have hsolutions : ∀ f ∈ factors.flatMap fun c => starts.map fun start =>
      Recurrence.solve c inhomogeneous start, H → f.Uses (P s) := by
    intro f hf hH
    obtain ⟨c, -, hf⟩ := List.mem_flatMap.mp hf
    obtain ⟨start, hstart, rfl⟩ := List.mem_map.mp hf
    exact Recurrence.uses_solve (hP.given Symbol.given_counter) c (hi hH) (hstarts start hstart)
  unfold candidates
  apply Attempt.Advances.bind Supply.progress_later
  · exact Attempt.Advances.forall_mapM Supply.progress_later
      (R := fun s' (fs : List Expr) => H → ∀ f ∈ fs, f.Uses (P s'))
      (fun hlater h hH f hf => (h hH f hf).later hP hlater) (.refl s)
      fun f hf s' hlater => Expr.advances_splitSign hP fun hH => (hsolutions f hf hH).later hP hlater
  · intro parts s' _ hparts
    refine Attempt.advances_pure (.refl s') fun hH f hf => ?_
    obtain ⟨fs, hfs, hf⟩ := List.mem_flatten.mp hf
    exact hparts fs hfs hH f hf

theorem advances_absoluteBounds {bs : List Envelope} (h : ∀ b ∈ bs, H → b.Uses (P s)) :
    (absoluteBounds bs).Advances Supply.Later s fun s' fs => ∀ f ∈ fs, H → f.Uses (P s') := by
  apply Attempt.Advances.forall_mapM Supply.progress_later
    (fun hlater h hH => (h hH).later hP hlater) (.refl s)
  intro b hb s' hlater
  apply (Envelope.advances_absoluteUpper hP fun hH =>
    (h b hb hH).mono fun _ => hP.mono hlater).bind Supply.progress_later
  intro r s'' _ hr
  exact Attempt.advances_pure (.refl s'') fun hH => (hr hH).shift (hP.given Symbol.given_counter) _

theorem advances_envelopeOfAlternating {m : Monomial} {least greatest : Rat} {rests : List Envelope}
    (h : ∀ b ∈ rests, H → b.Uses (P s)) :
    (envelopeOfAlternating m least greatest rests).Advances Supply.Later s fun s' b =>
      H → b.Uses (P s') := by
  unfold envelopeOfAlternating
  apply (advances_absoluteBounds hP h).bind Supply.progress_later
  intro bounds s₁ _ hbounds
  apply (Expr.advances_eventualBound hP .up fun hH f hf => hbounds f hf hH).bind
    Supply.progress_later
  intro inhomogeneous s₂ _ hi
  apply (advances_startingValues hP _).bind Supply.progress_later
  intro starts s₃ hlater hstarts
  apply (advances_candidates hP (fun hH => (hi hH).later hP hlater) hstarts).bind
    Supply.progress_later
  intro fs s₄ _ hfs
  apply (Expr.advances_eventualBound hP .up hfs).bind Supply.progress_later
  intro bound s₅ _ hbound
  exact Attempt.advances_pure (.refl s₅) fun hH => Envelope.uses_between (hbound hH).neg (hbound hH)

theorem advances_envelopeOfMonotone {m : Monomial} {least greatest : Rat} {rests : List Envelope}
    {polarity : Polarity} (h : ∀ b ∈ rests, H → b.Uses (P s)) :
    (envelopeOfMonotone m least greatest rests polarity).Advances Supply.Later s fun s' b =>
      H → b.Uses (P s') := by
  have hcounter : ∀ {s : Supply}, P s .counter := hP.given Symbol.given_counter
  have huppers : H → ∀ f ∈ rests.map fun b => b.upper.shift (-1), f.Uses (P s) := by
    intro hH f hf
    obtain ⟨b, hb, rfl⟩ := List.mem_map.mp hf
    exact (h b hb hH).upper.shift hcounter _
  have hlowers : H → ∀ f ∈ rests.map fun b => b.lower.shift (-1), f.Uses (P s) := by
    intro hH f hf
    obtain ⟨b, hb, rfl⟩ := List.mem_map.mp hf
    exact (h b hb hH).lower.shift hcounter _
  have hpair : ∀ {s : Supply} {e : Expr}, (H → e.Uses (P s)) →
      H → ∀ f ∈ [e, Expr.zero], f.Uses (P s) := fun he hH =>
    List.forall_mem_cons.mpr ⟨he hH, List.forall_mem_singleton.mpr Expr.uses_zero⟩
  have hlast : ∀ {s : Supply} {upper lower : Expr}, (H → upper.Uses (P s)) → (H → lower.Uses (P s)) →
      (if polarity.maybeNegative then
        pure lower >>= fun lower => pure (Envelope.between (.term m 1) lower upper polarity)
      else Expr.dominating [lower, Expr.zero] >>= fun lower =>
        pure (Envelope.between (.term m 1) lower upper polarity) :
        Attempt Supply Envelope).Advances Supply.Later s fun s' b => H → b.Uses (P s') := by
    intro s upper lower hupper hlower
    apply Attempt.advances_ite
    · exact fun _ => Attempt.advances_pure (.refl s) fun hH =>
        Envelope.uses_between (hlower hH) (hupper hH)
    · intro _
      apply (Expr.advances_eventualBound hP .up (hpair hlower)).bind Supply.progress_later
      intro lower s' hlater hlower
      exact Attempt.advances_pure (.refl s') fun hH =>
        Envelope.uses_between (hlower hH) ((hupper hH).later hP hlater)
  unfold envelopeOfMonotone
  apply (Expr.advances_eventualBound hP .up huppers).bind Supply.progress_later
  intro above s₁ hs₁ habove
  apply (Expr.advances_eventualBound hP .down fun hH f hf =>
    (hlowers hH f hf).later hP hs₁).bind Supply.progress_later
  intro below s₂ hs₂ hbelow
  apply (advances_startingValues hP _).bind Supply.progress_later
  intro starts s₃ hs₃ hstarts
  apply (advances_candidates hP (fun hH => (habove hH).later hP (hs₂.trans hs₃)) hstarts).bind
    Supply.progress_later
  intro uppers s₄ hs₄ huppers
  apply (Expr.advances_eventualBound hP .up huppers).bind Supply.progress_later
  intro upper s₅ hs₅ hupper
  apply (advances_candidates hP (fun hH => (hbelow hH).later hP (hs₃.trans (hs₄.trans hs₅)))
    fun f hf => (hstarts f hf).later hP (hs₄.trans hs₅)).bind Supply.progress_later
  intro lowers s₆ hs₆ hlowers
  apply (Expr.advances_eventualBound hP .down hlowers).bind Supply.progress_later
  intro lower s₇ hs₇ hlower
  have hupper := fun hH => (hupper hH).later hP (hs₆.trans hs₇)
  apply Attempt.advances_ite
  · exact fun _ => hlast hupper hlower
  · intro _
    apply (Expr.advances_eventualBound hP .down (hpair hupper)).bind Supply.progress_later
    intro upper s₈ hs₈ hupper
    exact hlast hupper fun hH => (hlower hH).later hP hs₈

end Program

end Drawing

/-! ### Putting envelopes together -/

/-- Analyses that follow one another: the tables of closed forms and branches stay right, and what may be
used once may be used later. It does not matter which constants are drawn or what else is looked up. -/
structure Analysis.Course (p : Program) (P : Supply → Symbol → Prop) (T : Analysis → Analysis → Prop) :
    Prop extends Progress T where
  closedForms : ∀ {a a' : Analysis}, T a a' → p.Fresh () a'.closedForms
  branches : ∀ {a a' : Analysis}, T a a' → a'.branches.Sound p.HasBranches []
  words : ∀ {a a' : Analysis} {c : Symbol}, T a a' → P a.supply c → P a'.supply c
  with_supply : ∀ {a : Analysis} {s : Supply}, T a a → a.supply.Later s → T a { a with supply := s }
  with_closedForms : ∀ {a : Analysis} {t : ClosedForms}, T a a → p.Fresh () t →
    T a { a with closedForms := t }
  with_branches : ∀ {a : Analysis} {t : Memo Monomial (List Branch)}, T a a →
    t.Sound p.HasBranches [] → T a { a with branches := t }

/-- A monomial without drawn constants, for a program that is well-formed. -/
structure Program.Poses (p : Program) (m : Monomial) : Prop where
  wellFormed : p.WellFormed
  given : m.Given

/-- The computation goes on with an analysis, and under a hypothesis the bounds of its answer are made from
what may be used afterwards. -/
abbrev Analysis.Worded (P : Supply → Symbol → Prop) (T : Analysis → Analysis → Prop) (H : Prop)
    (a : Analysis) (x : Attempt Analysis Envelope) : Prop :=
  x.Advances T a fun a' b => H → b.Uses (P a'.supply)

namespace Program

variable {p : Program} {P : Supply → Symbol → Prop} {T : Analysis → Analysis → Prop}
  (hT : Course p P T) {a : Analysis} {H : Prop}

theorem uses_constantGroup {Q : Symbol → Prop} {e : Expr} (he : e.Uses Q) :
    ((Assoc.find? Monomial.one (e.collect Symbol.isVar)).getD Expr.zero).Uses Q := by
  cases hf : Assoc.find? Monomial.one (e.collect Symbol.isVar) with
  | none => exact Expr.uses_zero
  | some c => exact (he.collect _ (Assoc.mem_of_find? hf)).2

include hT

theorem advances_drawing {α : Type} {x : Attempt Supply α} {R : Supply → α → Prop} (ha : T a a)
    (hx : x.Advances Supply.Later a.supply R) :
    (drawing x).Advances T a fun a' r => R a'.supply r :=
  hx.within (fun _ hs => hT.with_supply ha hs) fun _ _ h => h

theorem advances_branchesOf (ha : T a a) (m : Monomial) :
    (p.branchesOf m).Advances T a fun _ bs => p.branches m = .ok bs := by
  obtain ⟨t, ht, hrun⟩ := run_branchesOf (hT.branches ha) m
  rw [Attempt.Advances, hrun]
  exact ⟨hT.with_branches ha ht, fun bs hbs => hbs⟩

theorem advances_onMoments {α : Type} {x : Attempt ClosedForms α} (hx : x.Steady p.Fresh)
    (ha : T a a) :
    (onMoments x).Advances T a fun _ r => (x.run.run a.closedForms).1 = .ok r :=
  ⟨hT.with_closedForms ha (hx () a.closedForms (hT.closedForms ha)).1, fun _ hr => hr⟩

theorem advances_substDeterministic (ha : T a a) {e : Expr}
    (he : H → p.WellFormed ∧ e.Uses Symbol.Given) :
    (onMoments (p.substDeterministic e)).Advances T a fun _ value => H → value.Uses Symbol.Given :=
  (advances_onMoments hT (p.steady_substDeterministic e) ha).mono fun _ _ _ hvalue hH =>
    (he hH).1.uses_substDeterministic (he hH).2 (hT.closedForms ha) hvalue

/-- Adding up bounds that are made from what may be used. -/
theorem advances_addEnvelopes {envelope : Monomial → Attempt Analysis Envelope}
    {groups : List (Monomial × Expr)} (ha : T a a)
    (h : ∀ g ∈ groups, ∀ a', T a a' → Worded P T H a' (envelope g.1))
    (hgroups : H → ∀ g ∈ groups, g.2.Uses (P a.supply)) {acc : Expr × Expr × Polarity}
    (hacc : H → acc.1.Uses (P a.supply) ∧ acc.2.1.Uses (P a.supply)) :
    (addEnvelopes envelope acc groups).Advances T a fun a' r =>
      H → r.1.Uses (P a'.supply) ∧ r.2.1.Uses (P a'.supply) := by
  induction groups generalizing a acc with
  | nil => exact Attempt.advances_pure ha hacc
  | cons g groups ih =>
    obtain ⟨henvelope, hrest⟩ := List.forall_mem_cons.mp h
    obtain ⟨lower, upper, polarity⟩ := acc
    rw [addEnvelopes]
    split
    · exact ih ha hrest (fun hH => (List.forall_mem_cons.mp (hgroups hH)).2) hacc
    · apply (henvelope a ha).bind hT.toProgress
      intro b a' ha' hb
      have hwords : ∀ {e : Expr}, e.Uses (P a.supply) → e.Uses (P a'.supply) :=
        fun he => he.mono fun _ => hT.words ha'
      have hc : H → g.2.Uses (P a'.supply) := fun hH => hwords (hgroups hH g List.mem_cons_self)
      have hl : H → lower.Uses (P a'.supply) := fun hH => hwords (hacc hH).1
      have hu : H → upper.Uses (P a'.supply) := fun hH => hwords (hacc hH).2
      have hnext : ∀ {acc : Expr × Expr × Polarity},
          (H → acc.1.Uses (P a'.supply) ∧ acc.2.1.Uses (P a'.supply)) →
          (addEnvelopes envelope acc groups).Advances T a'
            fun a'' r => H → r.1.Uses (P a''.supply) ∧ r.2.1.Uses (P a''.supply) :=
        ih (hT.reached ha') (fun g hg a'' ha'' => hrest g hg a'' (hT.trans ha' ha''))
          fun hH g hg => hwords (hgroups hH g (List.mem_cons_of_mem _ hg))
      split
      · exact hnext fun hH => ⟨(hl hH).add ((hc hH).mul (hb hH).lower),
          (hu hH).add ((hc hH).mul (hb hH).upper)⟩
      · exact hnext fun hH => ⟨(hl hH).add ((hc hH).mul (hb hH).upper),
          (hu hH).add ((hc hH).mul (hb hH).lower)⟩
      · exact hnext fun hH => ⟨hl hH, hu hH⟩
      · exact Attempt.advances_throw (hT.reached ha') _

section Envelopes

variable (hP : Vocabulary P)
include hP

theorem advances_envelopeFrom {envelope : Monomial → Attempt Analysis Envelope} {e : Expr}
    (ha : T a a) (he : H → p.WellFormed ∧ e.Uses (P a.supply))
    (h : ∀ k a', T a a' → Worded P T (p.Poses k) a' (envelope k)) :
    Worded P T H a (envelopeFrom envelope e) := by
  unfold envelopeFrom
  apply (advances_addEnvelopes hT ha
    (fun g hg a' ha' => (h g.1 a' ha').mono fun _ _ _ hb hH =>
      hb ⟨(he hH).1, Expr.given_of_mem_collect (he hH).2 hg⟩)
    (fun hH g hg => ((he hH).2.collect g hg).2)
    fun hH => ⟨uses_constantGroup (he hH).2, uses_constantGroup (he hH).2⟩).bind hT.toProgress
  rintro ⟨lower, upper, polarity⟩ a₁ ha₁ hsums
  dsimp only at hsums ⊢
  apply Attempt.advances_ite
  · exact fun _ => Attempt.advances_pure (hT.reached ha₁) fun hH =>
      Envelope.uses_between (hsums hH).1 (hsums hH).2
  · intro _
    apply (advances_drawing hT (hT.reached ha₁)
      (Expr.advances_splitBound hP .up fun hH => (hsums hH).2)).bind hT.toProgress
    intro upper a₂ ha₂ hu
    apply (advances_drawing hT (hT.reached ha₂) (Expr.advances_splitBound hP .down fun hH =>
      (hsums hH).1.mono fun _ => hT.words ha₂)).bind hT.toProgress
    intro lower a₃ ha₃ hl
    exact Attempt.advances_pure (hT.reached ha₃) fun hH =>
      Envelope.uses_between (hl hH) ((hu hH).mono fun _ => hT.words ha₃)

variable {m : Monomial} {envelope : Monomial → Attempt Analysis Envelope} (ha : T a a)
include ha

theorem advances_envelopeOfRandom {random rest : Monomial}
    (h : ∀ a', T a a' → Worded P T H a' (envelope rest)) :
    Worded P T H a (p.envelopeOfRandom envelope m random rest) := by
  unfold envelopeOfRandom
  apply (Attempt.advances_ofExcept (R := fun _ _ => True) ha fun _ _ => trivial).bind hT.toProgress
  rintro ⟨low, high⟩ a₁ ha₁ -
  dsimp only
  split
  · exact Attempt.advances_pure (hT.reached ha₁) fun _ =>
      Envelope.uses_between (Expr.uses_const low) (Expr.uses_const high)
  · apply (h a₁ ha₁).bind hT.toProgress
    intro b a₂ ha₂ hb
    have hcandidates : H → ∀ f ∈ [b.lower.scale low, b.lower.scale high, b.upper.scale low,
        b.upper.scale high], f.Uses (P a₂.supply) := by
      intro hH f hf
      simp only [List.mem_cons, List.not_mem_nil, or_false] at hf
      rcases hf with rfl | rfl | rfl | rfl
      · exact (hb hH).lower.scale low
      · exact (hb hH).lower.scale high
      · exact (hb hH).upper.scale low
      · exact (hb hH).upper.scale high
    apply (advances_drawing hT (hT.reached ha₂)
      (Expr.advances_eventualBound hP .down hcandidates)).bind hT.toProgress
    intro lower a₃ ha₃ hlower
    apply (advances_drawing hT (hT.reached ha₃) (Expr.advances_eventualBound hP .up
      fun hH f hf => (hcandidates hH f hf).mono fun _ => hT.words ha₃)).bind hT.toProgress
    intro upper a₄ ha₄ hupper
    exact Attempt.advances_pure (hT.reached ha₄) fun hH =>
      Envelope.uses_between ((hlower hH).mono fun _ => hT.words ha₄) (hupper hH)

theorem advances_envelopeOfDeterministic :
    Worded P T (p.Poses m) a (p.envelopeOfDeterministic m) := by
  unfold envelopeOfDeterministic
  apply (advances_substDeterministic hT ha fun hm : p.Poses m =>
    ⟨hm.wellFormed, Expr.uses_given hm.given 1⟩).bind hT.toProgress
  intro value a₁ ha₁ hvalue
  apply (advances_drawing hT (hT.reached ha₁) (Expr.advances_canonicalize hP fun hm =>
    (hvalue hm).mono fun _ hc => hP.given hc)).bind hT.toProgress
  intro bound a₂ ha₂ hbound
  exact Attempt.advances_pure (hT.reached ha₂) fun hm =>
    Envelope.uses_between (hbound hm) (hbound hm)

theorem advances_envelopeOfPower {k : Nat}
    (h : ∀ a', T a a' → Worded P T H a' (envelope (m.root k))) :
    Worded P T H a (envelopeOfPower envelope m k) := by
  unfold envelopeOfPower
  apply (h a ha).bind hT.toProgress
  intro b a₁ ha₁ hb
  apply (advances_drawing hT (hT.reached ha₁)
    (Expr.advances_canonicalize hP fun hH => (hb hH).lower.pow k)).bind hT.toProgress
  intro lower a₂ ha₂ hlower
  apply (advances_drawing hT (hT.reached ha₂) (Expr.advances_canonicalize hP fun hH =>
    ((hb hH).upper.pow k).mono fun _ => hT.words ha₂)).bind hT.toProgress
  intro upper a₃ ha₃ hupper
  exact Attempt.advances_pure (hT.reached ha₃) fun hH =>
    Envelope.uses_between ((hlower hH).mono fun _ => hT.words ha₃) (hupper hH)

theorem advances_envelopeOfRecurrence
    (h : ∀ k a', T a a' → Worded P T (p.Poses k) a' (envelope k)) :
    Worded P T (p.Poses m) a (p.envelopeOfRecurrence envelope m) := by
  unfold envelopeOfRecurrence
  apply (advances_branchesOf hT ha m).bind hT.toProgress
  intro bs a₁ ha₁ hbs
  have hrests : ∀ b ∈ bs, ∀ a', T a₁ a' →
      Worded P T (p.Poses m) a' (envelopeFrom envelope b.rest) :=
    fun b hb a' ha' => advances_envelopeFrom hT hP (hT.reached ha')
      (fun hm => ⟨hm.wellFormed, (hm.wellFormed.uses_branches hm.given hbs b hb).mono
        fun _ hc => hP.given hc⟩)
      fun k a'' ha'' => h k a'' (hT.trans ha₁ (hT.trans ha' ha''))
  apply (Attempt.Advances.forall_mapM hT.toProgress
    (fun ha' hb hm => (hb hm).mono fun _ => hT.words ha') (hT.reached ha₁) hrests).bind
      hT.toProgress
  intro rests a₂ ha₂ hrests
  dsimp only
  split
  · apply Attempt.advances_ite
    · exact fun _ => advances_drawing hT (hT.reached ha₂)
        (advances_envelopeOfAlternating hP hrests)
    · exact fun _ => advances_drawing hT (hT.reached ha₂) (advances_envelopeOfMonotone hP hrests)
  · exact Attempt.advances_throw (hT.reached ha₂) _

/-- The envelope of a monomial, where the envelopes of others that are asked for are made from what may be
used. -/
theorem advances_envelopeBy
    (h : ∀ k a', T a a' → Worded P T (p.Poses k) a' (envelope k)) :
    Worded P T (p.Poses m) a (p.envelopeBy envelope m) := by
  unfold envelopeBy
  apply Attempt.advances_ite
  · exact fun _ => advances_envelopeOfRandom hT hP ha fun a' ha' =>
      (h _ a' ha').mono fun _ _ _ hb hm => hb ⟨hm.wellFormed, hm.given.rest p.isRandom⟩
  · intro _
    apply Attempt.advances_ite
    · exact fun _ => advances_envelopeOfDeterministic hT hP ha
    · intro _
      apply Attempt.advances_ite
      · exact fun _ => advances_envelopeOfPower hT hP ha fun a' ha' =>
          (h _ a' ha').mono fun _ _ _ hb hm => hb ⟨hm.wellFormed, hm.given.root fun q hq =>
            (oddPart_dvd _).trans (Monomial.powerGcd_dvd q hq)⟩
      · exact fun _ => advances_envelopeOfRecurrence hT hP ha h

end Envelopes

end Program

end ProbLoop
