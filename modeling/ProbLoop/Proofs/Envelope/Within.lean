import ProbLoop.Proofs.Asymptotics.Within
import ProbLoop.Proofs.Envelope.Known
import ProbLoop.Proofs.Program.Cases

/-!
# Envelopes without variables

The bounds of an envelope mention the counter and constants, but no variables. What an analysis keeps
in its tables is of this kind at any time.
-/

set_option autoImplicit false

namespace ProbLoop

variable {p : Program}

/-- The bounds of an envelope have no variables. -/
structure Envelope.Within (b : Envelope) : Prop where
  lower : b.lower.Within []
  upper : b.upper.Within []
  absolute : ∀ e, b.absolute = some e → e.Within []

theorem Envelope.within_between {e lower upper : Expr} {polarity : Polarity}
    (hl : lower.Within []) (hu : upper.Within []) :
    (Envelope.between e lower upper polarity).Within :=
  ⟨hl, hu, fun _ h => by simp [between] at h⟩

theorem Envelope.ensures_absoluteUpper {b : Envelope} (hb : b.Within) :
    b.absoluteUpper.Ensures (fun _ => True) (·.1.Within []) := by
  unfold absoluteUpper
  cases h : b.absolute with
  | some value => exact Attempt.ensures_pure (hb.absolute value h)
  | none =>
    apply Attempt.Ensures.bind (P := (·.Within []))
    · apply Expr.ensures_eventualBound
      intro f hf
      simp only [List.mem_cons, List.not_mem_nil, or_false] at hf
      rcases hf with rfl | rfl
      · exact hb.upper
      · exact hb.lower.neg
    · exact fun value hvalue => Attempt.ensures_pure hvalue

/-- An analysis that is coherent, with envelopes without variables. -/
abbrev Analysis.Regular (p : Program) (pending : List Monomial) (a : Analysis) : Prop :=
  a.Knows p (fun m => p.WellFormed ∧ m.Over p.vars) (fun _ b => b.Within) pending

variable {pending : List Monomial}

namespace Program

open Analysis

section Bounds

variable {envelope : Monomial → Attempt Analysis Envelope}

theorem ensures_addEnvelopes {groups : List (Monomial × Expr)}
    (h : ∀ g ∈ groups, (envelope g.1).Ensures (Regular p pending) Envelope.Within ∧ g.2.Within [])
    {acc : Expr × Expr × Polarity} (hl : acc.1.Within []) (hu : acc.2.1.Within []) :
    (addEnvelopes envelope acc groups).Ensures (Regular p pending) fun r =>
      r.1.Within [] ∧ r.2.1.Within [] := by
  induction groups generalizing acc with
  | nil => exact Attempt.ensures_pure ⟨hl, hu⟩
  | cons g groups ih =>
    obtain ⟨⟨henvelope, hc⟩, hgroups⟩ := List.forall_mem_cons.mp h
    obtain ⟨lower, upper, polarity⟩ := acc
    rw [addEnvelopes]
    split
    · exact ih hgroups hl hu
    · apply henvelope.bind
      intro b hb
      split
      · exact ih hgroups (hl.add (hc.mul hb.lower)) (hu.add (hc.mul hb.upper))
      · exact ih hgroups (hl.add (hc.mul hb.upper)) (hu.add (hc.mul hb.lower))
      · exact ih hgroups hl hu
      · exact Attempt.ensures_throw _

/-- Splitting and folding a bound. -/
theorem ensures_splitBound (direction : Direction) {e : Expr} (he : e.Within []) :
    (drawing do Expr.eventualBound direction (← e.splitSign)).Ensures (Regular p pending) (·.Within []) :=
  ensures_drawing ((Expr.ensures_splitSign he).bind fun _ hfs =>
    Expr.ensures_eventualBound direction hfs)

theorem within_constantGroup {e : Expr} (he : e.Within p.vars) :
    ((Assoc.find? Monomial.one (e.collect Symbol.isVar)).getD Expr.zero).Within [] := by
  cases hf : Assoc.find? Monomial.one (e.collect Symbol.isVar) with
  | none => exact Expr.within_zero
  | some c => exact (he.collect _ (Assoc.mem_of_find? hf)).2

theorem ensures_envelopeFrom {e : Expr} (he : e.Within p.vars)
    (h : ∀ m : Monomial, m.Over p.vars → (envelope m).Ensures (Regular p pending) Envelope.Within) :
    (envelopeFrom envelope e).Ensures (Regular p pending) Envelope.Within := by
  have hconstant := within_constantGroup he
  unfold envelopeFrom
  have hgroups : ∀ g ∈ e.collect Symbol.isVar,
      (envelope g.1).Ensures (Regular p pending) Envelope.Within ∧ g.2.Within [] := by
    intro g hg
    obtain ⟨hover, hwithin⟩ := he.collect g hg
    exact ⟨h g.1 hover, hwithin⟩
  apply (ensures_addEnvelopes hgroups hconstant hconstant).bind
  rintro ⟨lower, upper, polarity⟩ ⟨hl, hu⟩
  simp only at hl hu ⊢
  apply Attempt.ensures_ite
  · exact Attempt.ensures_pure (Envelope.within_between hl hu)
  · apply (ensures_splitBound .up hu).bind
    intro upper hupper
    apply (ensures_splitBound .down hl).bind
    intro lower hlower
    exact Attempt.ensures_pure (Envelope.within_between hlower hupper)

theorem ensures_envelopeOfRandom {m random rest : Monomial}
    (h : (envelope rest).Ensures (Regular p pending) Envelope.Within) :
    (p.envelopeOfRandom envelope m random rest).Ensures (Regular p pending) Envelope.Within := by
  unfold envelopeOfRandom
  apply Attempt.Ensures.bind (P := fun _ => True) (Attempt.ensures_ofExcept fun _ _ => trivial)
  rintro ⟨low, high⟩ -
  simp only
  split
  · exact Attempt.ensures_pure
      (Envelope.within_between (Expr.within_const low) (Expr.within_const high))
  · apply h.bind
    intro b hb
    have hcandidates : ∀ f ∈ [b.lower.scale low, b.lower.scale high, b.upper.scale low,
        b.upper.scale high], f.Within [] := by
      intro f hf
      simp only [List.mem_cons, List.not_mem_nil, or_false] at hf
      rcases hf with rfl | rfl | rfl | rfl
      · exact hb.lower.scale low
      · exact hb.lower.scale high
      · exact hb.upper.scale low
      · exact hb.upper.scale high
    apply (ensures_drawing (Expr.ensures_eventualBound .down hcandidates)).bind
    intro lower hlower
    apply (ensures_drawing (Expr.ensures_eventualBound .up hcandidates)).bind
    intro upper hupper
    exact Attempt.ensures_pure (Envelope.within_between hlower hupper)

theorem ensures_envelopeOfPower {m : Monomial} {k : Nat}
    (h : (envelope (m.root k)).Ensures (Regular p pending) Envelope.Within) :
    (envelopeOfPower envelope m k).Ensures (Regular p pending) Envelope.Within := by
  unfold envelopeOfPower
  apply h.bind
  intro b hb
  apply (ensures_drawing (Expr.ensures_canonicalize (hb.lower.pow k))).bind
  intro lower hlower
  apply (ensures_drawing (Expr.ensures_canonicalize (hb.upper.pow k))).bind
  intro upper hupper
  exact Attempt.ensures_pure (Envelope.within_between hlower hupper)

end Bounds

section Deterministic

variable (hp : p.WellFormed) {m : Monomial} (hm : m.Over p.vars)
  (hdet : (m.symbols.all fun s => !p.isProbabilistic s) = true)
include hp hm

include hdet

/-- The value of a monomial in deterministic variables has no variables left. -/
theorem WellFormed.within_settled_term : (p.settled (.term m 1)).Within [] := by
  have hself : m.Over m.symbols :=
    ⟨hm.toCanonical, hm.base_eq_one, fun q hq => List.mem_map_of_mem hq⟩
  have hvars : ∀ s ∈ m.symbols, s.isVar = true ∧ s ∈ p.vars := by
    intro s hs
    obtain ⟨q, hq, rfl⟩ := List.mem_map.mp hs
    exact ⟨isVar_of_mem_vars _ (hm.mem_vars q hq), hm.mem_vars q hq⟩
  refine (hp.within_settled (Expr.over_term hself 1).within hvars).mono fun s hs => ?_
  obtain ⟨hs, hprobabilistic⟩ := List.mem_filter.mp hs
  have hnot := List.all_eq_true.mp hdet s hs
  rw [hprobabilistic] at hnot
  exact absurd hnot (by decide)

theorem WellFormed.ensures_envelopeOfDeterministic :
    (p.envelopeOfDeterministic m).Ensures (Regular p pending) Envelope.Within := by
  unfold envelopeOfDeterministic
  apply (ensures_onMoments
    (hp.keeps_fresh_substDeterministic (Expr.over_term hm 1).within).ensures).bind
  rintro value rfl
  apply (ensures_drawing (Expr.ensures_canonicalize (hp.within_settled_term hm hdet))).bind
  intro bound hbound
  exact Attempt.ensures_pure (Envelope.within_between hbound hbound)

end Deterministic

section Recurrences

theorem ensures_startOn (possible : Bool) {side : Expr → Expr}
    (h : ∀ e : Expr, e.Within [] → (side e).Within []) :
    (startOn possible side).Ensures (fun _ => True) fun fs => ∀ f ∈ fs, f.Within [] := by
  apply Attempt.ensures_ite
  · apply Attempt.ensures_lift
    intro s e he
    rw [List.mem_singleton.mp he]
    exact h _ (Expr.within_positive _)
  · exact Attempt.ensures_pure (by simp)

theorem ensures_startingValues (polarity : Polarity) :
    (startingValues polarity).Ensures (fun _ => True) fun starts => ∀ s ∈ starts, s.Within [] := by
  rw [startingValues_eq]
  apply (ensures_startOn polarity.maybePositive fun _ h => h).bind
  intro above habove
  apply (ensures_startOn polarity.maybeNegative fun _ h => h.neg).bind
  intro below hbelow
  apply Attempt.ensures_pure
  intro f hf
  split at hf
  · rw [List.mem_singleton.mp hf]
    exact Expr.within_zero
  · rcases List.mem_append.mp hf with hf | hf
    · exact habove f hf
    · exact hbelow f hf

theorem ensures_candidates {factors : List Rat} {inhomogeneous : Expr} {starts : List Expr}
    (hi : inhomogeneous.Within []) (hs : ∀ s ∈ starts, s.Within []) :
    (candidates factors inhomogeneous starts).Ensures (fun _ => True) fun fs =>
      ∀ f ∈ fs, f.Within [] := by
  unfold candidates
  apply Attempt.Ensures.bind (P := fun parts : List (List Expr) =>
    ∀ fs ∈ parts, ∀ f ∈ fs, f.Within [])
  · apply Attempt.Ensures.forall_mapM
    intro f hf
    obtain ⟨c, -, hf⟩ := List.mem_flatMap.mp hf
    obtain ⟨s, hs', rfl⟩ := List.mem_map.mp hf
    exact Expr.ensures_splitSign (Recurrence.within_solve c hi (hs s hs'))
  · intro parts hparts
    apply Attempt.ensures_pure
    intro f hf
    obtain ⟨fs, hfs, hf⟩ := List.mem_flatten.mp hf
    exact hparts fs hfs f hf

theorem ensures_absoluteBounds {bs : List Envelope} (h : ∀ b ∈ bs, b.Within) :
    (absoluteBounds bs).Ensures (fun _ => True) fun fs => ∀ f ∈ fs, f.Within [] := by
  apply Attempt.Ensures.forall_mapM
  intro b hb
  apply (Envelope.ensures_absoluteUpper (h b hb)).bind
  rintro ⟨value, b'⟩ hvalue
  exact Attempt.ensures_pure (hvalue.shift _)

theorem ensures_envelopeOfAlternating {m : Monomial} {least greatest : Rat}
    {rests : List Envelope} (h : ∀ b ∈ rests, b.Within) :
    (envelopeOfAlternating m least greatest rests).Ensures (fun _ => True) Envelope.Within := by
  unfold envelopeOfAlternating
  apply (ensures_absoluteBounds h).bind
  intro bounds hbounds
  apply (Expr.ensures_eventualBound .up hbounds).bind
  intro inhomogeneous hi
  apply (ensures_startingValues _).bind
  intro starts hstarts
  apply (ensures_candidates hi hstarts).bind
  intro fs hfs
  apply (Expr.ensures_eventualBound .up hfs).bind
  intro bound hbound
  exact Attempt.ensures_pure (Envelope.within_between hbound.neg hbound)

theorem ensures_envelopeOfMonotone {m : Monomial} {least greatest : Rat}
    {rests : List Envelope} {polarity : Polarity} (h : ∀ b ∈ rests, b.Within) :
    (envelopeOfMonotone m least greatest rests polarity).Ensures (fun _ => True)
      Envelope.Within := by
  have hpair : ∀ e : Expr, e.Within [] → ∀ f ∈ [e, Expr.zero], f.Within [] := by
    intro e he f hf
    simp only [List.mem_cons, List.not_mem_nil, or_false] at hf
    rcases hf with rfl | rfl
    · exact he
    · exact Expr.within_zero
  have huppers : ∀ f ∈ rests.map fun b => b.upper.shift (-1), f.Within [] := by
    intro f hf
    obtain ⟨b, hb, rfl⟩ := List.mem_map.mp hf
    exact (h b hb).upper.shift _
  have hlowers : ∀ f ∈ rests.map fun b => b.lower.shift (-1), f.Within [] := by
    intro f hf
    obtain ⟨b, hb, rfl⟩ := List.mem_map.mp hf
    exact (h b hb).lower.shift _
  unfold envelopeOfMonotone
  apply (Expr.ensures_eventualBound .up huppers).bind
  intro above habove
  apply (Expr.ensures_eventualBound .down hlowers).bind
  intro below hbelow
  apply (ensures_startingValues _).bind
  intro starts hstarts
  apply (ensures_candidates habove hstarts).bind
  intro uppers huppers
  apply (Expr.ensures_eventualBound .up huppers).bind
  intro upper hupper
  apply (ensures_candidates hbelow hstarts).bind
  intro lowers hlowers
  apply (Expr.ensures_eventualBound .down hlowers).bind
  intro lower hlower
  have hlast : ∀ upper : Expr, upper.Within [] →
      (if polarity.maybeNegative then
        pure lower >>= fun lower => pure (Envelope.between (.term m 1) lower upper polarity)
      else Expr.dominating [lower, Expr.zero] >>= fun lower =>
        pure (Envelope.between (.term m 1) lower upper polarity) :
        Attempt Supply Envelope).Ensures (fun _ => True) Envelope.Within := by
    intro upper hupper
    apply Attempt.ensures_ite
    · exact (Attempt.ensures_pure hlower).bind fun _ h =>
        Attempt.ensures_pure (Envelope.within_between h hupper)
    · exact (Expr.ensures_eventualBound .up (hpair lower hlower)).bind fun _ h =>
        Attempt.ensures_pure (Envelope.within_between h hupper)
  apply Attempt.ensures_ite
  · exact (Attempt.ensures_pure hupper).bind hlast
  · exact (Expr.ensures_eventualBound .down (hpair upper hupper)).bind hlast

end Recurrences

/-- The branch of a monomial in a case. -/
def caseBranch (m : Monomial) (c : Case) : Branch :=
  ⟨m, c.value.coefficient m, c.value - Expr.term m (c.value.coefficient m), c.probability⟩

theorem WellFormed.branches_eq (hp : p.WellFormed) {m : Monomial} (hm : m.Over p.vars) :
    p.branches m = .ok ((p.cases (.term m 1)).map (caseBranch m)) := by
  have hcase : ∀ c ∈ p.cases (.term m 1), Branch.ofCase m c = .ok (caseBranch m c) := by
    intro c hc
    have hplain := (hp.proper_cases (Expr.over_term hm 1) c hc).2.isPlain isVar_of_mem_vars
    simp only [Branch.ofCase, hplain.collected, Expr.constant?_const, caseBranch]
  unfold branches
  generalize p.cases (.term m 1) = cs at hcase
  induction cs with
  | nil => rfl
  | cons c cs ih =>
    obtain ⟨hc, hcs⟩ := List.forall_mem_cons.mp hcase
    rw [List.mapM_cons, hc, ih hcs]
    rfl

/-- What is left of an expression without its multiple of a monomial. -/
theorem over_rest {vars : List Symbol} (m : Monomial) {c : Case} (hc : c.value.Over vars) :
    (caseBranch m c).rest.Over vars := by
  refine hc.sub ?_
  cases hfind : Assoc.find? m c.value.terms with
  | none =>
    rw [Expr.coefficient, hfind, Option.getD_none]
    exact Expr.over_zero
  | some q => exact Expr.over_term (hc.monomials _ (Assoc.mem_of_find? hfind)) _

/-- What is left of a monomial in its cases is made of the variables. -/
theorem WellFormed.over_branches (hp : p.WellFormed) {m : Monomial} (hm : m.Over p.vars)
    {bs : List Branch} (h : p.branches m = .ok bs) : ∀ b ∈ bs, b.rest.Over p.vars := by
  obtain rfl := Except.ok.inj (h.symm.trans (hp.branches_eq hm))
  intro b hb
  obtain ⟨c, hc, rfl⟩ := List.mem_map.mp hb
  exact over_rest m (hp.proper_cases (Expr.over_term hm 1) c hc).2

theorem WellFormed.ensures_envelopeOfRecurrence (hp : p.WellFormed)
    {envelope : Monomial → Attempt Analysis Envelope} {m : Monomial} (hm : m.Over p.vars)
    (h : ∀ k : Monomial, k.Over p.vars → (envelope k).Ensures (Regular p pending) Envelope.Within) :
    (p.envelopeOfRecurrence envelope m).Ensures (Regular p pending) Envelope.Within := by
  unfold envelopeOfRecurrence
  apply (ensures_branchesOf p m).bind
  intro bs hbs
  have hover := hp.over_branches hm hbs
  apply (Attempt.Ensures.forall_mapM fun b hb => ensures_envelopeFrom (hover b hb).within h).bind
  intro rests hrests
  dsimp only
  split
  · apply Attempt.ensures_ite
    · exact ensures_drawing (ensures_envelopeOfAlternating hrests)
    · exact ensures_drawing (ensures_envelopeOfMonotone hrests)
  · exact Attempt.ensures_throw _

theorem oddPart_dvd (k : Nat) : oddPart k ∣ k := by
  induction k using oddPart.induct with
  | case1 => rw [oddPart, if_pos rfl]
  | case2 k hk heven ih =>
    rw [oddPart, if_neg hk, if_pos heven]
    exact ih.trans (Nat.div_dvd_of_dvd (Nat.dvd_of_mod_eq_zero heven))
  | case3 k hk hodd => rw [oddPart, if_neg hk, if_neg hodd]

/-- Envelopes without variables are put together to envelopes without variables. -/
theorem establishes_within (p : Program) :
    p.Establishes (fun m => p.WellFormed ∧ m.Over p.vars) fun _ b => b.Within := by
  rintro pending envelope henvelope m ⟨hp, hm⟩
  have hbounds : ∀ k : Monomial, k.Over p.vars →
      (envelope k).Ensures (Regular p pending) Envelope.Within :=
    fun k hk => (henvelope k).mono fun b hb => hb ⟨hp, hk⟩
  apply Attempt.ensures_ite
  · exact ensures_envelopeOfRandom (hbounds _ (hm.filter _ hm.base_eq_one))
  · split
    · next hdet => exact hp.ensures_envelopeOfDeterministic hm hdet
    · apply Attempt.ensures_ite
      · exact ensures_envelopeOfPower (hbounds _ (hm.root fun q hq =>
          (oddPart_dvd _).trans (Monomial.powerGcd_dvd q hq)))
      · exact hp.ensures_envelopeOfRecurrence hm hbounds

/-- The bounds of an expression over the variables have no variables. -/
theorem WellFormed.ensures_envelopeOf (hp : p.WellFormed) {e : Expr} (he : e.Within p.vars) :
    (p.envelopeOf e).Ensures (Regular p pending) Envelope.Within :=
  ensures_envelopeFrom he fun m hm =>
    (p.establishes_within.envelopeOfMonomial m pending).mono fun _ hb => hb ⟨hp, hm⟩

end Program

end ProbLoop
