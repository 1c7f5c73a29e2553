import ProbLoop.Proofs.Envelope.Meets
import ProbLoop.Proofs.Transparent

/-!
# What is known about the envelopes of an analysis

An analysis stores the envelopes of monomials and puts others together from them. A property of envelopes
that is established from envelopes that have it holds of all that are stored, as the monomials that are
asked for come before the one that asks.
-/

set_option autoImplicit false

namespace ProbLoop

variable {p : Program} {kind : Monomial → Prop} {Q : Monomial → Envelope → Prop}
  {pending : List Monomial}

/-- An analysis that is coherent, whose envelopes of monomials of a kind have a property. -/
structure Analysis.Knows (p : Program) (kind : Monomial → Prop) (Q : Monomial → Envelope → Prop)
    (pending : List Monomial) (a : Analysis) : Prop extends a.Coherent p pending where
  envelopes : ∀ e ∈ a.envelopes.entries, kind e.1 → Q e.1 e.2

namespace Analysis

theorem knows_start (supply : Supply) : (start supply).Knows p kind Q [] :=
  ⟨coherent_start supply, by simp [start, Memo.empty]⟩

theorem Knows.with_supply {a : Analysis} (h : a.Knows p kind Q pending) (s : Supply) :
    ({ a with supply := s } : Analysis).Knows p kind Q pending :=
  ⟨h.toCoherent.with_supply s, h.envelopes⟩

theorem ensures_drawing {α : Type} {x : Attempt Supply α} {P : α → Prop}
    (hx : x.Ensures (fun _ => True) P) : (drawing x).Ensures (Knows p kind Q pending) P :=
  hx.within (fun _ _ => trivial) fun _ s h _ => h.with_supply s

/-- Drawing constants for a bound that does not matter. -/
theorem ensures_drawing_any {α : Type} (x : Attempt Supply α) :
    (drawing x).Ensures (Knows p kind Q pending) fun _ => True :=
  ensures_drawing (x.ensures_answers.mono fun _ _ => trivial)

theorem ensures_onMoments {α : Type} {x : Attempt ClosedForms α} {P : α → Prop}
    (hx : x.Ensures (p.Fresh ()) P) : (onMoments x).Ensures (Knows p kind Q pending) P :=
  hx.within (fun _ h => h.closedForms) fun _ _ h ht =>
    ⟨h.toCoherent.with_closedForms ht, h.envelopes⟩

theorem ensures_branchesOf (p : Program) (m : Monomial) :
    (p.branchesOf m).Ensures (Knows p kind Q pending) (p.HasBranches m) := by
  intro a ha
  obtain ⟨t, ht, hrun⟩ := Program.run_branchesOf ha.branches m
  rw [hrun]
  exact ⟨⟨ha.toCoherent.with_branches ht, ha.envelopes⟩, fun bs hbs => hbs⟩

/-- What is known follows the table of envelopes. -/
theorem tracks_knows : envelopeSlot.Tracks (Knows p kind Q) fun m b => kind m → Q m b where
  sound ha := ⟨ha.envelopes, ha.pending_eq⟩
  put ha ht := ⟨ha.toCoherent.with_envelopes ht.pending_eq, ht.entries⟩

end Analysis

namespace Program

open Analysis

/-- From envelopes that have the property, those of the monomials of the kind are put together so that
they have it. -/
def Establishes (p : Program) (kind : Monomial → Prop) (Q : Monomial → Envelope → Prop) : Prop :=
  ∀ (pending : List Monomial) (envelope : Monomial → Attempt Analysis Envelope),
    (∀ k, (envelope k).Ensures (Knows p kind Q pending) fun b => kind k → Q k b) →
      ∀ m, kind m → (p.envelopeBy envelope m).Ensures (Knows p kind Q pending) (Q m)

theorem establishes_nothing (p : Program) : p.Establishes (fun _ => False) fun _ _ => True :=
  fun _ _ _ _ hm => hm.elim

/-- Whatever is asked for, the envelope of a monomial has a property that is established. -/
theorem Establishes.envelopeOfMonomial (h : p.Establishes kind Q) (m : Monomial)
    (pending : List Monomial) :
    (p.envelopeOfMonomial m).Ensures (Knows p kind Q pending) fun b => kind m → Q m b := by
  induction m using (InvImage.wf p.rank Rank.below_wf).induction generalizing pending with
  | h m ih =>
    have henvelope : ∀ k, (p.envelopeBelow m k).Ensures (Knows p kind Q (m :: pending)) fun b =>
        kind k → Q k b := by
      intro k
      unfold envelopeBelow
      split
      · next hbelow => exact ih k hbelow _
      · exact Attempt.ensures_throw _
    rw [envelopeOfMonomial_eq]
    refine (tracks_knows.meets_remember (E := fun _ => True) (fun _ => trivial) fun _ => ?_).1
    apply Attempt.Ensures.meets
    by_cases hm : kind m
    · exact (h _ _ henvelope m hm).mono fun b hb _ => hb
    · -- Of other monomials nothing is claimed, but the tables have to stay right.
      have hany : ∀ k, (p.envelopeBelow m k).Meets (Knows p kind Q (m :: pending))
          (fun _ => True) fun _ => True := fun k => (henvelope k).meets.any
      refine (meets_envelopeBy (fun _ s ha => ha.with_supply s) (fun _ _ => trivial)
        (ensures_onMoments (p.steady_substDeterministic _).ensures).meets
        ((ensures_branchesOf p _).meets.mono fun _ _ =>
          ⟨fun _ => trivial, fun _ _ g _ _ => hany g.1⟩)
        (fun _ _ => hany _) fun _ => hany _).1.mono fun b _ hkind => absurd hkind hm

end Program

end ProbLoop
