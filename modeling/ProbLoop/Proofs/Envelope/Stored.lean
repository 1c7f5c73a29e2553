import ProbLoop.Proofs.Envelope.Vocabulary

/-!
# Envelopes that stay

An analysis never forgets the envelope of a monomial, and an envelope that was asked for is stored. The bounds
that are stored are canonical, whatever was asked. If they mention none of the constants that are drawn later,
this remains so while more envelopes are asked for.
-/

set_option autoImplicit false

namespace ProbLoop

variable {p : Program} {P : Supply → Symbol → Prop} {pending : List Monomial}

namespace Program

open Analysis

/-- Tables that stay right are a course on which every symbol may be used. -/
theorem course_knows {kind : Monomial → Prop} {Q : Monomial → Envelope → Prop} :
    Course p (fun _ _ => True) fun _ a' => a'.Knows p kind Q pending where
  reached h := h
  trans _ h := h
  closedForms h := h.closedForms
  branches h := h.branches
  words _ _ := trivial
  with_supply h _ := h.with_supply _
  with_closedForms h ht := ⟨h.toCoherent.with_closedForms ht, h.envelopes⟩
  with_branches h ht := ⟨h.toCoherent.with_branches ht, h.envelopes⟩

/-- Canonical bounds are put together to canonical bounds. -/
theorem establishes_canonical (p : Program) :
    p.Establishes p.Poses fun _ b => b.Uses fun _ => True := by
  intro pending envelope henvelope m hm
  refine Attempt.ensures_of_advances fun a ha => ?_
  exact (advances_envelopeBy course_knows vocabulary_all ha fun k a' ha' =>
    (henvelope k).advances ha').mono fun _ _ _ hb => hb hm

end Program

/-- One analysis after another: tables stay right, no constants are taken back, no envelopes are forgotten,
and the bounds that are stored are made from what may be used. -/
structure Analysis.Onward (p : Program) (P : Supply → Symbol → Prop) (pending : List Monomial)
    (a a' : Analysis) : Prop extends
    Knows p p.Poses (fun _ b => b.Uses (P a'.supply)) pending a' where
  later : a.supply.Later a'.supply
  stored : ∀ m b, a.envelopes.get? m = some b → a'.envelopes.get? m = some b

namespace Analysis

variable {a a' : Analysis} {m : Monomial} {b : Envelope}

theorem Knows.onward (h : a.Knows p p.Poses (fun _ b => b.Uses (P a.supply)) pending) :
    Onward p P pending a a :=
  ⟨h, .refl _, fun _ _ h => h⟩

theorem course_onward (hP : Vocabulary P) : Course p P (Onward p P pending) where
  reached h := h.toKnows.onward
  trans h h' := ⟨h'.toKnows, h.later.trans h'.later, fun m b hb => h'.stored m b (h.stored m b hb)⟩
  closedForms h := h.closedForms
  branches h := h.branches
  words h := hP.mono h.later
  with_supply h hlater := ⟨⟨h.toCoherent.with_supply _, fun e he hkind =>
    (h.envelopes e he hkind).mono fun _ => hP.mono hlater⟩, hlater, h.stored⟩
  with_closedForms h ht :=
    ⟨⟨h.toCoherent.with_closedForms ht, h.envelopes⟩, h.later, h.stored⟩
  with_branches h ht := ⟨⟨h.toCoherent.with_branches ht, h.envelopes⟩, h.later, h.stored⟩

/-- Another table of envelopes takes the place of the one that was reached. -/
theorem Onward.with_envelopes (h : Onward p P pending a a') {pending' : List Monomial}
    {t : Memo Monomial Envelope}
    (ht : t.Sound (fun m b => p.Poses m → b.Uses (P a'.supply)) pending')
    (hstored : ∀ m b, a.envelopes.get? m = some b → t.get? m = some b) :
    Onward p P pending' a { a' with envelopes := t } :=
  ⟨tracks_knows.put h.toKnows ht, h.later, hstored⟩

/-- A remembered envelope is stored in the end, and the mark of its key is dropped however the computation
ends. -/
theorem Onward.advances_remember (hP : Vocabulary P) (ha : Onward p P pending a a) (cycle : Error)
    {compute : Unit → Attempt Analysis Envelope}
    (hcompute : m ∉ pending → ∀ a', Onward p P (m :: pending) a' a' →
      Worded P (Onward p P (m :: pending)) (p.Poses m) a' (compute ())) :
    (envelopeSlot.remember m cycle compute).Advances (Onward p P pending) a fun a' b =>
      (p.Poses m → b.Uses (P a'.supply)) ∧ a'.envelopes.get? m = some b := by
  have hsound : a.envelopes.Sound (fun m b => p.Poses m → b.Uses (P a.supply)) pending :=
    tracks_knows.sound ha.toKnows
  rw [Attempt.Advances]
  cases hf : a.envelopes.get? m with
  | some b =>
    rw [envelopeSlot.run_remember_hit _ hf]
    refine ⟨ha.with_envelopes ⟨hsound.entries, hsound.pending_eq⟩ fun _ _ h => h, fun b' hb' => ?_⟩
    obtain rfl := Except.ok.inj hb'
    exact ⟨hsound.entries _ (Assoc.mem_of_find? hf), hf⟩
  | none =>
    by_cases hkey : m ∈ pending
    · rw [envelopeSlot.run_remember_pending _ hf (hsound.pending_eq ▸ hkey)]
      exact ⟨ha.with_envelopes ⟨hsound.entries, hsound.pending_eq⟩ fun _ _ h => h,
        fun _ h => (by cases h)⟩
    · rw [envelopeSlot.run_remember_compute _ hf (hsound.pending_eq ▸ hkey)]
      have hbegin : Onward p P (m :: pending) a
          (envelopeSlot.put a ((envelopeSlot.get a).begin m)) :=
        ha.with_envelopes (hsound.begin m) fun _ _ h => h
      obtain ⟨hlater, hanswer⟩ := hcompute hkey _ hbegin.toKnows.onward
      have hreached := (course_onward hP).trans hbegin hlater
      have hsound' := tracks_knows.sound hreached.toKnows
      split
      · next b a' hrun =>
        rw [hrun] at hreached hsound' hanswer
        have hb := hanswer b rfl
        refine ⟨hreached.with_envelopes (hsound'.insert hkey hb) fun k b' hb' => ?_,
          fun b' hb' => ?_⟩
        · rw [Memo.get?_insert, if_neg fun h => by simp [← h, hf] at hb']
          exact hreached.stored k b' hb'
        · obtain rfl := Except.ok.inj hb'
          exact ⟨hb, (Memo.get?_insert _ _ _ _).trans (if_pos rfl)⟩
      · next e a' hrun =>
        rw [hrun] at hreached hsound'
        exact ⟨hreached.with_envelopes (hsound'.release hkey) hreached.stored,
          fun _ h => (by cases h)⟩

end Analysis

namespace Program

open Analysis

/-- An envelope that is asked for is made from what may be used, and it is stored. -/
theorem advances_envelopeOfMonomial (hP : Vocabulary P) (m : Monomial) {a : Analysis}
    (ha : Onward p P pending a a) :
    (p.envelopeOfMonomial m).Advances (Onward p P pending) a fun a' b =>
      (p.Poses m → b.Uses (P a'.supply)) ∧ a'.envelopes.get? m = some b := by
  induction m using (InvImage.wf p.rank Rank.below_wf).induction generalizing pending a with
  | h m ih =>
    rw [envelopeOfMonomial_eq]
    refine ha.advances_remember hP _ fun _ a₁ ha₁ =>
      advances_envelopeBy (course_onward hP) hP ha₁ fun k a₂ ha₂ => ?_
    unfold envelopeBelow
    split
    · next hbelow => exact (ih k hbelow ha₂.toKnows.onward).mono fun _ _ _ hb => hb.1
    · exact Attempt.advances_throw ha₂.toKnows.onward _

end Program

end ProbLoop
