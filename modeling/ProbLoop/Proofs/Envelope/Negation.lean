import ProbLoop.Proofs.Asymptotics.Negation
import ProbLoop.Proofs.Forward

/-!
# Envelopes of negated expressions

The bounds of the monomials of an expression are found once and read from the table afterwards. So the sums of
bounds for the negated expression are those for the expression, negated and with their places exchanged.
Splitting and folding these sums mirrors each bound, and nothing else is drawn.
-/

set_option autoImplicit false

namespace ProbLoop

open Analysis

namespace Program

/-! ### Sums of bounds -/

/-- The sums of lower and of upper bounds and their polarity. -/
abbrev Sums : Type := Expr × Expr × Polarity

/-- The sums for the negated expression. -/
def Sums.mirrored (sums : Sums) : Sums := (-sums.2.1, -sums.1, sums.2.2.flip)

/-- Adds the bounds of one monomial, if the eventual sign of its coefficient is known. -/
def addBound (sums : Sums) (c : Expr) (b : Envelope) : Option Sums :=
  match c.eventualSign? with
  | some .positive =>
    some (sums.1 + c * b.lower, sums.2.1 + c * b.upper, sums.2.2.or b.polarity)
  | some .negative =>
    some (sums.1 + c * b.upper, sums.2.1 + c * b.lower, sums.2.2.or b.polarity.flip)
  | some .zero => some sums
  | none => none

/-- Adds the bounds of the monomials of a list as far as they are known. -/
def addBounds (known : Monomial → Option Envelope) : Sums → List (Monomial × Expr) → Option Sums
  | sums, [] => some sums
  | sums, (m, c) :: rest =>
    if m.isOne then addBounds known sums rest
    else (known m).bind fun b => (addBound sums c b).bind fun sums => addBounds known sums rest

variable {p : Program} {groups : List (Monomial × Expr)} {known : Monomial → Option Envelope}
  {sums r : Sums} {c : Expr} {b : Envelope}

theorem addEnvelopes_cons (envelope : Monomial → Attempt Analysis Envelope) (sums : Sums)
    (m : Monomial) (c : Expr) (rest : List (Monomial × Expr)) :
    addEnvelopes envelope sums ((m, c) :: rest) =
      if m.isOne then addEnvelopes envelope sums rest
      else
        envelope m >>= fun b => match addBound sums c b with
          | some sums => addEnvelopes envelope sums rest
          | none => throw (.undecided (.coefficientSign c m)) := by
  rw [addEnvelopes]
  refine if_congr Iff.rfl rfl (congrArg _ (funext fun b => ?_))
  rw [addBound]
  cases c.eventualSign? with
  | none => rfl
  | some s => cases s <;> rfl

theorem addBound_neg (hl : sums.1.Ordered) (hu : sums.2.1.Ordered) (h : addBound sums c b = some r) :
    (r.1.Ordered ∧ r.2.1.Ordered) ∧ addBound sums.mirrored (-c) b = some r.mirrored := by
  have hsum : ∀ x y : Expr, x.Ordered → -x + -c * y = -(x + c * y) := fun x y hx => by
    rw [Expr.neg_add hx (Expr.ordered_mul _ _), Expr.neg_mul]
  have hordered : ∀ x y : Expr, x.Ordered → (x + c * y).Ordered :=
    fun x y hx => hx.add (Expr.ordered_mul _ _)
  rw [addBound, Expr.flip_eventualSign?]
  rw [addBound] at h
  split at h
  · next hsign =>
    obtain rfl := Option.some.inj h
    refine ⟨⟨hordered _ _ hl, hordered _ _ hu⟩, ?_⟩
    simp only [hsign, Sums.mirrored, ← hsum _ _ hu, ← hsum _ _ hl]
    rfl
  · next hsign =>
    obtain rfl := Option.some.inj h
    refine ⟨⟨hordered _ _ hl, hordered _ _ hu⟩, ?_⟩
    simp only [hsign, Sums.mirrored, ← hsum _ _ hu, ← hsum _ _ hl]
    rfl
  · next hsign =>
    obtain rfl := Option.some.inj h
    rw [hsign]
    exact ⟨⟨hl, hu⟩, rfl⟩
  · cases h

/-- The sums for the negated coefficients are those for the coefficients, negated and exchanged. -/
theorem addBounds_neg (hl : sums.1.Ordered) (hu : sums.2.1.Ordered)
    (h : addBounds known sums groups = some r) :
    addBounds known sums.mirrored (groups.map fun g => (g.1, -g.2)) = some r.mirrored := by
  induction groups generalizing sums with
  | nil =>
    obtain rfl := Option.some.inj h
    rfl
  | cons g groups ih =>
    obtain ⟨m, c⟩ := g
    rw [List.map_cons, addBounds]
    rw [addBounds] at h
    split at h
    · next hone =>
      rw [if_pos hone]
      exact ih hl hu h
    · next hone =>
      obtain ⟨b, hb, h⟩ := Option.bind_eq_some_iff.mp h
      obtain ⟨more, hmore, h⟩ := Option.bind_eq_some_iff.mp h
      obtain ⟨⟨hl', hu'⟩, hmirrored⟩ := addBound_neg hl hu hmore
      rw [if_neg hone, hb, Option.bind_some, hmirrored, Option.bind_some]
      exact ih hl' hu' h

/-- The envelopes of the monomials are in the table when their bounds have been added up. -/
theorem advances_addBounds {P : Supply → Symbol → Prop} (hP : Vocabulary P) {a : Analysis}
    (ha : Onward p P [] a a) :
    (addEnvelopes p.envelopeOfMonomial sums groups).Advances (Onward p P []) a fun a' r =>
      addBounds a'.envelopes.get? sums groups = some r := by
  induction groups generalizing sums a with
  | nil => exact Attempt.advances_pure ha rfl
  | cons g groups ih =>
    obtain ⟨m, c⟩ := g
    simp only [addEnvelopes_cons, addBounds]
    split
    · exact ih ha
    · apply (advances_envelopeOfMonomial hP m ha).bind (course_onward hP).toProgress
      rintro b a₁ ha₁ ⟨-, hb⟩
      split
      · next more hmore =>
        refine (ih ha₁.toKnows.onward).mono fun a' r ha' hr => ?_
        rwa [ha'.stored m b hb, Option.bind_some, hmore, Option.bind_some]
      · exact Attempt.advances_throw ha₁.toKnows.onward _

/-- Bounds that are known are added up without drawing constants. -/
theorem keeps_addEnvelopes (supply : Supply) (h : addBounds known sums groups = some r) :
    (addEnvelopes p.envelopeOfMonomial sums groups).Keeps
      (fun a => a.envelopes.get? = known ∧ a.supply = supply) r := by
  induction groups generalizing sums with
  | nil =>
    obtain rfl := Option.some.inj h
    exact Attempt.keeps_pure _
  | cons g groups ih =>
    obtain ⟨m, c⟩ := g
    rw [addEnvelopes_cons]
    rw [addBounds] at h
    split at h
    · next hone =>
      rw [if_pos hone]
      exact ih h
    · next hone =>
      obtain ⟨b, hb, h⟩ := Option.bind_eq_some_iff.mp h
      obtain ⟨more, hmore, h⟩ := Option.bind_eq_some_iff.mp h
      have hstored : (p.envelopeOfMonomial m).Keeps
          (fun a => a.envelopes.get? = known ∧ a.supply = supply) b := by
        rintro a ⟨hknown, hsupply⟩
        rw [envelopeOfMonomial_eq, envelopeSlot.run_remember_hit _ ((congrFun hknown m).trans hb)]
        exact ⟨_, rfl, hknown, hsupply⟩
      rw [if_neg hone]
      apply hstored.bind
      rw [hmore]
      exact ih h

end Program

/-! ### Splitting and folding both sums -/

/-- Holds of an infinite limit whose sign is that of a coefficient. -/
def Limit.isSigned : Limit → Bool
  | signedInf _ => true
  | _ => false

@[simp] theorem Limit.isSigned_negated (l : Limit) : l.negated.isSigned = l.isSigned := by
  cases l <;> rfl

namespace Expr

variable {lower upper l u : Expr} {first middle last : Supply}

/-- The bounds that are made of two sums. Equal sums are kept as they are unless their sign at infinity is
unknown. -/
def settleBounds (lower upper : Expr) : Attempt Supply (Expr × Expr) :=
  if (decide (upper = lower) && !upper.limit.isSigned) = true then return (lower, upper)
  else do
    let above ← (do dominating (← upper.splitSign))
    let below ← (do dominated (← lower.splitSign))
    return (below, above)

/-- The bounds that two sums lead to and those that the negated sums lead to afterwards. Each of them may be
made from a fresh constant, and the upper ones are found first. -/
def Opposes (lower upper : Expr) (first middle last : Supply) (bounds bounds' : Expr × Expr) : Prop :=
  ∃ s₁ s₂ : Supply, first.Later s₁ ∧ s₁.Later middle ∧ middle.Later s₂ ∧ s₂.Later last ∧
    upper.Mirrored (first.Draws s₁) (s₂.Draws last) bounds.2 bounds'.1 ∧
      lower.Mirrored (s₁.Draws middle) (middle.Draws s₂) bounds.1 bounds'.2

theorem later_splitBound {direction : Direction} {e r : Expr}
    (h : (do eventualBound direction (← e.splitSign) : Attempt Supply Expr).run.run first =
      (.ok r, last)) : first.Later last := by
  have hlater := (advances_splitBound (s := first) (e := e) (H := False) vocabulary_all direction
    False.elim).1
  rwa [h] at hlater

theorem settleBounds_neg (hl : lower.Canonical) (hu : upper.Canonical) {bounds : Expr × Expr}
    (h : (settleBounds lower upper).run.run first = (.ok bounds, middle)) :
    ∃ bounds' last, (settleBounds (-upper) (-lower)).run.run middle = (.ok bounds', last) ∧
      lower.Opposes upper first middle last bounds bounds' := by
  have hkept : (decide (-lower = -upper) && !(-lower).limit.isSigned) =
      (decide (upper = lower) && !upper.limit.isSigned) := by
    rw [limit_neg, Limit.isSigned_negated]
    by_cases heq : upper = lower
    · simp [heq]
    · have hne : -lower ≠ -upper := fun h =>
        heq ((neg_inj_of_ordered hl.toOrdered hu.toOrdered).mp h).symm
      simp [heq, hne]
  rw [settleBounds] at h ⊢
  rw [hkept]
  split at h
  · next hkept =>
    obtain ⟨hbounds, rfl⟩ := Prod.mk.inj h
    obtain rfl := Except.ok.inj hbounds
    rw [if_pos hkept]
    exact ⟨_, _, rfl, first, first, .refl _, .refl _, .refl _, .refl _, .kept, .kept⟩
  · next hkept =>
    obtain ⟨u, s₁, habove, h⟩ := Attempt.exists_of_run_bind h
    obtain ⟨l, s', hbelow, h⟩ := Attempt.exists_of_run_bind h
    obtain ⟨hbounds, rfl⟩ := Prod.mk.inj h
    obtain rfl := Except.ok.inj hbounds
    obtain ⟨u', s₂, habove', hlower⟩ := splitBound_neg .down hl hbelow s'
    obtain ⟨l', last, hbelow', hupper⟩ := splitBound_neg .up hu habove s₂
    refine ⟨(l', u'), last, ?_, s₁, s₂, later_splitBound habove, later_splitBound hbelow,
      later_splitBound habove', later_splitBound hbelow', hupper, hlower⟩
    rw [if_neg hkept]
    exact (Attempt.run_bind_ok habove').trans ((Attempt.run_bind_ok hbelow').trans rfl)

end Expr

/-- A permutation of the symbols that moves only constants that are drawn between two states. -/
def Supply.Renames (first last : Supply) (ρ : Equiv.Perm Symbol) : Prop :=
  ∀ s, ρ s ≠ s → first.Draws last s

theorem Supply.Renames.counter {first last : Supply} {ρ : Equiv.Perm Symbol}
    (h : first.Renames last ρ) : ρ .counter = .counter := by
  by_contra hmoved
  exact absurd (h _ hmoved).isPositive (by decide)

theorem Supply.Renames.mono {first first' last : Supply} {ρ : Equiv.Perm Symbol}
    (h : first.Renames last ρ) (hlater : first'.Later first) : first'.Renames last ρ :=
  fun s hs => (h s hs).mono hlater (.refl _)

namespace Expr

section Renaming

variable {lower upper : Expr} {first middle last : Supply} {bounds bounds' : Expr × Expr}

/-- Each bound is the negation of the opposite one, up to a renaming of constants that are drawn. -/
theorem Opposes.exists_renaming (h : lower.Opposes upper first middle last bounds bounds')
    (hl : lower.Canonical) (hu : upper.Canonical) :
    (∃ ρ, first.Renames last ρ ∧ bounds'.2 = -bounds.1.rename ρ) ∧
      ∃ ρ, first.Renames last ρ ∧ bounds'.1 = -bounds.2.rename ρ := by
  obtain ⟨s₁, s₂, h₁, h₂, h₃, h₄, hupper, hlower⟩ := h
  obtain ⟨ρ, hρ, hlower⟩ := hlower.exists_renaming hl.uses fun _ hs => hs.isPositive
  obtain ⟨τ, hτ, hupper⟩ := hupper.exists_renaming hu.uses fun _ hs => hs.isPositive
  have hρ : first.Renames last ρ := fun s hs => (hρ s hs).elim
    (fun hs => hs.mono h₁ (h₃.trans h₄)) fun hs => hs.mono (h₁.trans h₂) h₄
  have hτ : first.Renames last τ := fun s hs => (hτ s hs).elim
    (fun hs => hs.mono (.refl _) (h₂.trans (h₃.trans h₄)))
    fun hs => hs.mono (h₁.trans (h₂.trans h₃)) (.refl _)
  exact ⟨⟨ρ, hρ, hlower ρ hρ.counter fun _ _ => rfl⟩, τ, hτ, hupper τ hτ.counter fun _ _ => rfl⟩

/-- Where the sums mention none of the constants that are drawn, one renaming does for both bounds: what is
drawn for the upper bounds is apart from what is drawn for the lower ones. -/
theorem Opposes.exists_joint_renaming (h : lower.Opposes upper first middle last bounds bounds')
    (hl : lower.Uses first.Settled) (hu : upper.Uses first.Settled) :
    ∃ ρ, first.Renames last ρ ∧ bounds'.2 = -bounds.1.rename ρ ∧ bounds'.1 = -bounds.2.rename ρ := by
  obtain ⟨s₁, s₂, h₁, h₂, h₃, h₄, hupper, hlower⟩ := h
  obtain ⟨ρ, hρ, hlower⟩ := hlower.exists_renaming hl fun _ hs => hs.isPositive
  obtain ⟨τ, hτ, hupper⟩ := hupper.exists_renaming hu fun _ hs => hs.isPositive
  have hinner : ∀ s, ρ s ≠ s → s₁.Draws s₂ s := fun s hs => (hρ s hs).elim
    (fun hs => hs.mono (.refl _) h₃) fun hs => hs.mono h₂ (.refl _)
  have hdisjoint : ∀ s, s₁.Draws s₂ s → ¬(first.Draws s₁ s ∨ s₂.Draws last s) := fun s hs hs' =>
    hs'.elim (fun hs' => hs'.not_draws (.refl _) hs) (hs.not_draws (.refl _))
  have hτ_inner : ∀ s, s₁.Draws s₂ s → τ s = s := fun s hs =>
    by_contra fun hmoved => hdisjoint s hs (hτ s hmoved)
  have hρ_outer : ∀ s, first.Draws s₁ s ∨ s₂.Draws last s → ρ s = s := fun s hs =>
    by_contra fun hmoved => hdisjoint s (hinner s hmoved) hs
  have hsettled : ∀ s, first.Settled s → ρ s = s ∧ τ s = s := by
    refine fun s hs => ⟨by_contra fun hmoved => ?_, by_contra fun hmoved => ?_⟩
    · exact hs _ ((hinner s hmoved).mono h₁ (.refl _))
    · rcases hτ s hmoved with hdrawn | hdrawn
      · exact hs _ hdrawn
      · exact hs _ (hdrawn.mono (h₁.trans (h₂.trans h₃)) (.refl _))
  have hrenames : first.Renames last (ρ * τ) := by
    intro s hs
    by_cases hmoved : τ s = s
    · rw [Equiv.Perm.mul_apply, hmoved] at hs
      exact (hinner s hs).mono h₁ h₄
    · rcases hτ s hmoved with hdrawn | hdrawn
      · exact hdrawn.mono (.refl _) (h₂.trans (h₃.trans h₄))
      · exact hdrawn.mono (h₁.trans (h₂.trans h₃)) (.refl _)
  refine ⟨ρ * τ, hrenames, hlower _ hrenames.counter fun s hs => ?_,
    hupper _ hrenames.counter fun s hs => ?_⟩
  · have hfixed : τ s = s := hs.elim (fun hs => (hsettled s hs).2)
      fun hs => hτ_inner s (hs.mono (.refl _) h₃)
    rw [Equiv.Perm.mul_apply, hfixed]
  · rw [Equiv.Perm.mul_apply]
    by_cases hmoved : τ s = s
    · rw [hmoved]
      exact hs.elim (fun hs => (hsettled s hs).1) fun hs => hρ_outer s (Or.inl hs)
    · exact hρ_outer _ (hτ _ fun h => hmoved (τ.injective h))

end Renaming

end Expr

namespace Program

theorem run_drawing {α : Type} (x : Attempt Supply α) (a : Analysis) :
    (drawing x).run.run a =
      ((x.run.run a.supply).1, { a with supply := (x.run.run a.supply).2 }) := rfl

theorem drawing_bind {α β : Type} (x : Attempt Supply α) (f : α → Attempt Supply β) :
    drawing (x >>= f) = drawing x >>= fun a => drawing (f a) := by
  funext a
  change (drawing (x >>= f)).run.run a = (drawing x >>= fun b => drawing (f b)).run.run a
  rw [run_drawing]
  cases hrun : x.run.run a.supply with
  | mk r s =>
    have hdrawing : (drawing x).run.run a = (r, { a with supply := s }) := by rw [run_drawing, hrun]
    cases r with
    | error e => rw [Attempt.run_bind_error hdrawing, Attempt.run_bind_error hrun]
    | ok b => rw [Attempt.run_bind_ok hdrawing, Attempt.run_bind_ok hrun, run_drawing]

theorem drawing_pure {α : Type} (x : α) : drawing (pure x) = pure x := rfl

/-- The sums that the bounds of an expression are made of start with the part without variables. -/
def startingSums (e : Expr) : Sums :=
  let constant := (Assoc.find? Monomial.one (e.collect Symbol.isVar)).getD Expr.zero
  (constant, constant, constant.polarity)

theorem envelopeFrom_eq (envelope : Monomial → Attempt Analysis Envelope) (e : Expr) :
    envelopeFrom envelope e =
      addEnvelopes envelope (startingSums e) (e.collect Symbol.isVar) >>= fun sums =>
        drawing (Expr.settleBounds sums.1 sums.2.1) >>= fun bounds =>
          pure (.between e bounds.1 bounds.2 sums.2.2) := by
  refine bind_congr fun sums => ?_
  obtain ⟨lower, upper, polarity⟩ := sums
  change (if (decide (upper = lower) && !upper.limit.isSigned) = true then _ else _) = _
  rw [Expr.settleBounds]
  by_cases hkept : (decide (upper = lower) && !upper.limit.isSigned) = true
  · rw [if_pos hkept, if_pos hkept, drawing_pure, pure_bind]
  · rw [if_neg hkept, if_neg hkept]
    simp only [drawing_bind, drawing_pure, bind_assoc, pure_bind]

variable {p : Program}

theorem startingSums_neg {e : Expr} (he : e.Canonical) :
    startingSums (-e) = (startingSums e).mirrored := by
  unfold startingSums
  dsimp only
  rw [Expr.constantGroup_neg, Expr.polarity_neg (uses_constantGroup he.uses).toOrdered]
  rfl

/-- The first part of a question about the bounds of an expression: the sums are made from what may be used,
and the envelopes from which they are made are stored. -/
theorem WellFormed.sums_of_run (hp : p.WellFormed) {P : Supply → Symbol → Prop} (hP : Vocabulary P)
    {a a' : Analysis} (ha : Onward p P [] a a) {e : Expr} (he : e.Uses (P a.supply)) {sums : Sums}
    (h : (addEnvelopes p.envelopeOfMonomial (startingSums e) (e.collect Symbol.isVar)).run.run a =
      (.ok sums, a')) :
    Onward p P [] a a' ∧ sums.1.Uses (P a'.supply) ∧ sums.2.1.Uses (P a'.supply) ∧
      addBounds a'.envelopes.get? (startingSums e) (e.collect Symbol.isVar) = some sums := by
  have hstored : (addEnvelopes p.envelopeOfMonomial (startingSums e) (e.collect Symbol.isVar)).Advances
      (Onward p P []) a _ := advances_addBounds hP ha
  have huses : (addEnvelopes p.envelopeOfMonomial (startingSums e) (e.collect Symbol.isVar)).Advances
      (Onward p P []) a fun a' r => True → r.1.Uses (P a'.supply) ∧ r.2.1.Uses (P a'.supply) :=
    advances_addEnvelopes (course_onward hP) ha
      (fun g hg a' ha' => (advances_envelopeOfMonomial hP g.1 ha'.toKnows.onward).mono
        fun _ _ _ hb _ => hb.1 ⟨hp, Expr.given_of_mem_collect he hg⟩)
      (fun _ g hg => (he.collect g hg).2) fun _ => ⟨uses_constantGroup he, uses_constantGroup he⟩
  rw [Attempt.Advances, h] at hstored huses
  exact ⟨hstored.1, (huses.2 sums rfl trivial).1, (huses.2 sums rfl trivial).2, hstored.2 sums rfl⟩

end Program

/-- The envelope of the negated expression: its bounds are the negated bounds with their places exchanged, each
up to a renaming of constants that are drawn between two states of the supply. -/
structure Envelope.Reflects (first last : Supply) (b b' : Envelope) : Prop where
  expression : b'.expression = -b.expression
  polarity : b'.polarity = b.polarity.flip
  upper : ∃ ρ, first.Renames last ρ ∧ b'.upper = -b.lower.rename ρ
  lower : ∃ ρ, first.Renames last ρ ∧ b'.lower = -b.upper.rename ρ

namespace Program

variable {p : Program} {a a' : Analysis} {e : Expr} {b : Envelope}

/-- Where an envelope of an expression is found, one of the negated expression is found next: the sums of
bounds are known by then, and splitting and folding them mirrors the bounds. -/
theorem WellFormed.envelopeOf_neg (hp : p.WellFormed) (ha : Onward p (fun _ _ => True) [] a a)
    (he : e.Canonical) (hb : (p.envelopeOf e).run.run a = (.ok b, a')) :
    ∃ b' a'', (p.envelopeOf (-e)).run.run a' = (.ok b', a'') ∧
      b.Reflects a.supply a''.supply b' ∧
      (Onward p Supply.Settled [] a a → e.Uses a.supply.Settled →
        ∃ ρ, a.supply.Renames a''.supply ρ ∧ b'.upper = -b.lower.rename ρ ∧
          b'.lower = -b.upper.rename ρ) := by
  rw [envelopeOf, envelopeFrom_eq] at hb
  obtain ⟨sums, a₁, hsums, hb⟩ := Attempt.exists_of_run_bind hb
  obtain ⟨bounds, a₂, hbounds, hb⟩ := Attempt.exists_of_run_bind hb
  obtain ⟨hanswer, rfl⟩ := Prod.mk.inj hb
  obtain rfl := Except.ok.inj hanswer
  obtain ⟨honward, hl, hu, hknown⟩ := hp.sums_of_run vocabulary_all ha he.uses hsums
  rw [run_drawing] at hbounds
  obtain ⟨hanswer, rfl⟩ := Prod.mk.inj hbounds
  obtain ⟨bounds', last, hrun', hopposes⟩ := Expr.settleBounds_neg hl.toCanonical hu.toCanonical
    (Prod.ext hanswer rfl)
  -- The sums for the negated expression are read from the table and draw nothing.
  have hordered : (startingSums e).1.Ordered := (uses_constantGroup he.uses).toOrdered
  have hknown' := addBounds_neg hordered hordered hknown
  rw [← startingSums_neg he, ← Expr.collect_neg] at hknown'
  obtain ⟨a₃, hsums', hget, hsupply⟩ := keeps_addEnvelopes (p := p) _ hknown'
    { a₁ with supply := ((sums.1.settleBounds sums.2.1).run.run a₁.supply).2 } ⟨rfl, rfl⟩
  refine ⟨.between (-e) bounds'.1 bounds'.2 sums.2.2.flip, { a₃ with supply := last }, ?_, ?_, ?_⟩
  · rw [envelopeOf, envelopeFrom_eq, Attempt.run_bind_ok hsums']
    have hsettled : ((Sums.mirrored sums).1.settleBounds (Sums.mirrored sums).2.1).run.run a₃.supply =
        (.ok bounds', last) := by
      rw [hsupply]
      exact hrun'
    have hdrawn : (drawing ((Sums.mirrored sums).1.settleBounds (Sums.mirrored sums).2.1)).run.run a₃ =
        (.ok bounds', { a₃ with supply := last }) := by
      rw [run_drawing, hsettled]
    rw [Attempt.run_bind_ok hdrawn]
    rfl
  · obtain ⟨⟨ρ, hρ, hupper⟩, τ, hτ, hlower⟩ :=
      hopposes.exists_renaming hl.toCanonical hu.toCanonical
    exact ⟨rfl, rfl, ⟨ρ, hρ.mono honward.later, hupper⟩, τ, hτ.mono honward.later, hlower⟩
  · intro ha he
    obtain ⟨-, hl, hu, -⟩ := hp.sums_of_run vocabulary_settled ha he hsums
    obtain ⟨ρ, hρ, hbounds⟩ := hopposes.exists_joint_renaming hl hu
    exact ⟨ρ, hρ.mono honward.later, hbounds⟩

end Program

/-- A loop that doubles a variable whose initial value is not given. -/
def Program.doubling : Program :=
  ⟨[⟨"x", .random (.unknown (.real "x0")), .deterministic ((Expr.ofSymbol (.var "x")).scale 2)⟩],
    .ofSymbol (.var "x")⟩

theorem Program.parse_doubling :
    Program.parse "while x > 0:\n    x = 2*x\nend\n" = .ok doubling := by
  decide +kernel

namespace Session

/-- Whatever was asked before, if an expression has bounds, the negated expression has them when it is asked
for next: each bound is the negation of the opposite one, up to a renaming of constants that are drawn for the
two answers. One renaming does for both bounds when those constants are new to the expression. -/
theorem bounds_of_negation (p : Program) (supply : Supply) (calls : List Call) {text : String}
    (h : Program.parse text = .ok ((start p supply).after calls).program) {e : Expr} (he : e.Built)
    {b : Envelope} {s' : Session}
    (hb : ((start p supply).after calls).ask (fun p => p.envelopeOf e) = (.ok b, s')) :
    ∃ b' s'', s'.ask (fun p => p.envelopeOf (-e)) = (.ok b', s'') ∧
      b.Reflects ((start p supply).after calls).analysis.supply s''.analysis.supply b' ∧
      ((start p supply).Forward calls →
        (∀ c ∈ e.freeSymbols, ((start p supply).after calls).analysis.supply.Settled c) →
        ∃ ρ, ((start p supply).after calls).analysis.supply.Renames s''.analysis.supply ρ ∧
          b'.upper = -b.lower.rename ρ ∧ b'.lower = -b.upper.rename ρ) := by
  have hknows := knows_after Program.establishes_canonical p supply calls
  have hstores := fun hforward : (start p supply).Forward calls =>
    stores_after vocabulary_settled (s := start p supply) (knows_start supply) hforward
  generalize (start p supply).after calls = s at *
  obtain ⟨a', hrun, rfl⟩ := run_of_ask hb
  obtain ⟨b', a'', hb', hreflects, hjoint⟩ :=
    (Program.wellFormed_of_parse h).envelopeOf_neg (Knows.onward (P := fun _ _ => True) hknows)
      he.canonical hrun
  exact ⟨b', { s with analysis := a'' }, ask_of_run hb', hreflects, fun hforward hfresh =>
    hjoint (hstores hforward).onward (.of_mem_freeSymbols he.canonical hfresh)⟩

/-- The bounds of the doubled variable are `-e8 * 2 ^ n` and `e7 * 2 ^ n` for two new constants, as two were
drawn for the first answer and five elsewhere, and those of the negated variable mirror them. -/
theorem doubling_bounds_mirrored :
    let x := Expr.ofSymbol (.var "x")
    let s := (start Program.doubling ⟨0⟩).after [.envelope x, .draw ⟨7⟩]
    ∃ b s', s.ask (fun p => p.envelopeOf x) = (.ok b, s') ∧
      b.upper = .ofSymbol (.positive "e7") * .exponential 2 ∧
      b.lower = -(.ofSymbol (.positive "e8") * .exponential 2) ∧
      ∃ b' s'', s'.ask (fun p => p.envelopeOf (-x)) = (.ok b', s'') ∧
        ∃ ρ, s.analysis.supply.Renames s''.analysis.supply ρ ∧
          b'.upper = -b.lower.rename ρ ∧ b'.lower = -b.upper.rename ρ := by
  intro x s
  obtain ⟨b, s', hb, hupper, hlower⟩ : ∃ b s', s.ask (fun p => p.envelopeOf x) = (.ok b, s') ∧
      b.upper = .ofSymbol (.positive "e7") * .exponential 2 ∧
      b.lower = -(.ofSymbol (.positive "e8") * .exponential 2) :=
    ⟨_, _, by cbv, by cbv, by cbv⟩
  have hforward : (start Program.doubling ⟨0⟩).Forward [.envelope x, .draw ⟨7⟩] := by
    refine ⟨fun _ h => (by cases h), fun supply h => ?_, trivial⟩
    obtain rfl := Call.draw.inj h
    exact Nat.le_of_ble_eq_true (by cbv)
  have hfresh : ∀ c ∈ x.freeSymbols, s.analysis.supply.Settled c := fun c hc => by
    obtain rfl := List.mem_singleton.mp hc
    exact vocabulary_settled.given rfl
  obtain ⟨b', s'', hb', -, hjoint⟩ := bounds_of_negation Program.doubling ⟨0⟩
    [.envelope x, .draw ⟨7⟩] Program.parse_doubling (.ofSymbol _) hb
  exact ⟨b, s', hb, hupper, hlower, b', s'', hb', hjoint hforward hfresh⟩

end Session

end ProbLoop
