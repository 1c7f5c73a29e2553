import ProbLoop.Envelope
import ProbLoop.Proofs.Asymptotics.Within
import ProbLoop.Proofs.Meets

/-!
# What the search for envelopes keeps

Envelopes are put together from closed forms, from branches, from fresh constants and from the envelopes
of other monomials. An invariant that all of these keep is kept, and there are no failures but theirs,
open questions and signs that stay.
-/

set_option autoImplicit false

namespace ProbLoop

/-- Holds of the errors that report that a result depends on itself. -/
def Error.isCycle : Error → Bool
  | unexpected (.closedFormCycle _) => true
  | unexpected (.branchesCycle _) => true
  | unexpected (.boundsCycle _) => true
  | _ => false

/-- The failures that are foreseen: a question is left open, or a limit is infinite with the sign of a
coefficient in which no constant occurs linearly. -/
inductive Error.Foreseen : Error → Prop
  | undecided (question : OpenQuestion) : Foreseen (.undecided question)
  | signStays {c e : Expr} (hlimit : e.limit = .signedInf c) (hsolvable : c.solvable? = none) :
      Foreseen (.unexpected (.signStays c e))

theorem Error.Foreseen.isCycle_eq_false {err : Error} (h : err.Foreseen) : err.isCycle = false := by
  cases h <;> rfl

/-- From every state, the answers of the computation have a property, and it fails in some ways only. -/
abbrev Attempt.Gives {σ α : Type} (E : Error → Prop) (x : Attempt σ α) (P : α → Prop) : Prop :=
  x.Meets (fun _ => True) P E

theorem ne_nil_of_forall₂ {α β : Type} {R : α → β → Prop} {l : List α} {r : List β}
    (h : List.Forall₂ R l r) (hl : l ≠ []) : r ≠ [] := by
  cases h with
  | nil => exact absurd rfl hl
  | cons _ _ => exact List.cons_ne_nil _ _

namespace Program

/-- A fresh start on one side of zero, if that side is possible. -/
def startOn (possible : Bool) (side : Expr → Expr) : Attempt Supply (List Expr) :=
  if possible then
    liftM (do return [side (.ofSymbol (← Supply.draw "d"))] : StateM Supply (List Expr))
  else pure []

theorem startingValues_eq (polarity : Polarity) : startingValues polarity = do
    let above ← startOn polarity.maybePositive id
    let below ← startOn polarity.maybeNegative Neg.neg
    return if (above ++ below).isEmpty then [Expr.zero] else above ++ below := by
  obtain ⟨above, below⟩ := polarity
  cases above <;> cases below <;> rfl

end Program

section Drawing

variable {E : Error → Prop}

/-- A bound of at least one candidate is found. -/
theorem Expr.gives_eventualBound (direction : Direction) {fs : List Expr} (h : fs ≠ []) :
    (eventualBound direction fs).Gives E fun _ => True := by
  cases fs with
  | nil => exact absurd rfl h
  | cons f fs => exact Attempt.meets_lift _

theorem Envelope.gives_absoluteUpper (b : Envelope) :
    b.absoluteUpper.Gives E fun _ => True := by
  unfold absoluteUpper
  split
  · exact Attempt.meets_pure trivial
  · exact (Expr.gives_eventualBound .up (List.cons_ne_nil _ _)).bind fun _ _ =>
      Attempt.meets_pure trivial

namespace Program

theorem gives_startingValues (polarity : Polarity) :
    (startingValues polarity).Gives E (· ≠ []) := by
  have hstart : ∀ (possible : Bool) (side : Expr → Expr),
      (startOn possible side).Gives E fun _ => True :=
    fun possible side => Attempt.meets_ite (Attempt.meets_lift _) (Attempt.meets_pure trivial)
  rw [startingValues_eq]
  apply (hstart _ _).bind
  intro above _
  apply (hstart _ _).bind
  intro below _
  apply Attempt.meets_pure
  split
  · exact List.cons_ne_nil _ _
  · next h => simpa using h

theorem gives_absoluteBounds {bs : List Envelope} (h : bs ≠ []) :
    (absoluteBounds bs).Gives E (· ≠ []) := by
  apply (Attempt.Meets.mapM (R := fun _ _ => True) fun b _ => ?_).mono
  · exact fun values hvalues => ne_nil_of_forall₂ hvalues h
  · exact (Envelope.gives_absoluteUpper b).bind fun _ _ => Attempt.meets_pure trivial

end Program

variable (hE : ∀ err : Error, err.Foreseen → E err)
include hE

theorem Expr.gives_splitSign (e : Expr) : e.splitSign.Gives E (· ≠ []) := by
  unfold splitSign
  split
  · next c hlimit =>
    split
    · next hsolvable => exact Attempt.meets_throw (hE _ (.signStays hlimit hsolvable))
    · exact (Attempt.meets_lift _).bind fun _ _ => Attempt.meets_pure (List.cons_ne_nil _ _)
  · exact Attempt.meets_pure (List.cons_ne_nil _ _)

/-- Splitting and folding a bound. -/
theorem Expr.gives_splitBound (direction : Direction) (e : Expr) :
    (do eventualBound direction (← e.splitSign) : Attempt Supply Expr).Gives E fun _ => True :=
  (gives_splitSign hE e).bind fun _ hfs => gives_eventualBound direction hfs

namespace Program

theorem gives_candidates {factors : List Rat} (inhomogeneous : Expr) {starts : List Expr}
    (hfactors : factors ≠ []) (hstarts : starts ≠ []) :
    (candidates factors inhomogeneous starts).Gives E (· ≠ []) := by
  obtain ⟨c, factors, rfl⟩ := List.exists_cons_of_ne_nil hfactors
  obtain ⟨s, starts, rfl⟩ := List.exists_cons_of_ne_nil hstarts
  unfold candidates
  apply (Attempt.Meets.mapM (R := fun _ fs => fs ≠ []) fun e _ => Expr.gives_splitSign hE e).bind
  intro parts hparts
  apply Attempt.meets_pure
  cases hparts with
  | cons hfirst _ => simp [hfirst]

theorem gives_envelopeOfAlternating (m : Monomial) (least greatest : Rat) {rests : List Envelope}
    (h : rests ≠ []) :
    (envelopeOfAlternating m least greatest rests).Gives E fun _ => True := by
  unfold envelopeOfAlternating
  apply (gives_absoluteBounds h).bind
  intro bounds hbounds
  apply (Expr.gives_eventualBound .up hbounds).bind
  intro inhomogeneous _
  apply (gives_startingValues _).bind
  intro starts hstarts
  apply (gives_candidates hE inhomogeneous (List.cons_ne_nil _ _) hstarts).bind
  intro fs hfs
  exact (Expr.gives_eventualBound .up hfs).bind fun _ _ => Attempt.meets_pure trivial

theorem gives_envelopeOfMonotone (m : Monomial) (least greatest : Rat) {rests : List Envelope}
    (h : rests ≠ []) (polarity : Polarity) :
    (envelopeOfMonotone m least greatest rests polarity).Gives E fun _ => True := by
  have hfactors : (if greatest = least then [least] else [least, greatest]) ≠ [] := by
    split <;> exact List.cons_ne_nil _ _
  have hlast : ∀ upper lower : Expr,
      (if polarity.maybeNegative then
        pure lower >>= fun lower => pure (Envelope.between (.term m 1) lower upper polarity)
      else Expr.dominating [lower, Expr.zero] >>= fun lower =>
        pure (Envelope.between (.term m 1) lower upper polarity) :
        Attempt Supply Envelope).Gives E fun _ => True := fun upper lower =>
    Attempt.meets_ite (Attempt.meets_pure trivial)
      ((Expr.gives_eventualBound .up (List.cons_ne_nil _ _)).bind fun _ _ =>
        Attempt.meets_pure trivial)
  unfold envelopeOfMonotone
  apply (Expr.gives_eventualBound .up (by simpa using h)).bind
  intro above _
  apply (Expr.gives_eventualBound .down (by simpa using h)).bind
  intro below _
  apply (gives_startingValues _).bind
  intro starts hstarts
  apply (gives_candidates hE above hfactors hstarts).bind
  intro uppers huppers
  apply (Expr.gives_eventualBound .up huppers).bind
  intro upper _
  apply (gives_candidates hE below hfactors hstarts).bind
  intro lowers hlowers
  apply (Expr.gives_eventualBound .down hlowers).bind
  intro lower _
  apply Attempt.meets_ite (hlast upper lower)
  exact (Expr.gives_eventualBound .down (List.cons_ne_nil _ _)).bind fun upper _ =>
    hlast upper lower

end Program

end Drawing

namespace Program

open Analysis

/-- The envelope of a monomial, where those of other monomials are asked for. -/
def envelopeBy (p : Program) (envelope : Monomial → Attempt Analysis Envelope) (m : Monomial) :
    Attempt Analysis Envelope :=
  if !(m.kept p.isRandom).isOne then
    p.envelopeOfRandom envelope m (m.kept p.isRandom) (m.rest p.isRandom)
  else if m.symbols.all fun s => !p.isProbabilistic s then p.envelopeOfDeterministic m
  else if 1 < oddPart m.powerGcd then envelopeOfPower envelope m (oddPart m.powerGcd)
  else p.envelopeOfRecurrence envelope m

/-- The envelope of a monomial that another one asks for, which has to come before it in the descent. -/
def envelopeBelow (p : Program) (m other : Monomial) : Attempt Analysis Envelope :=
  if _below : (p.rank other).Below (p.rank m) then p.envelopeOfMonomial other
  else throw (.unexpected (.boundsCycle other))

theorem envelopeOfMonomial_eq (p : Program) (m : Monomial) :
    p.envelopeOfMonomial m = envelopeSlot.remember m (.unexpected (.boundsCycle m))
      fun _ => p.envelopeBy (p.envelopeBelow m) m := by
  rw [envelopeOfMonomial]
  rfl

variable {p : Program} {I : Analysis → Prop} {E : Error → Prop}
  {envelope : Monomial → Attempt Analysis Envelope} {m : Monomial}

section Drawing

variable (hsupply : ∀ a s, I a → I { a with supply := s })
include hsupply

theorem meets_drawing {α : Type} {x : Attempt Supply α} {P : α → Prop} (hx : x.Gives E P) :
    (drawing x).Meets I P E :=
  hx.within (fun _ _ => trivial) fun a s ha _ => hsupply a s ha

variable (hE : ∀ err : Error, err.Foreseen → E err)
include hE

omit hsupply in
theorem meets_addEnvelopes {groups : List (Monomial × Expr)}
    (h : ∀ g ∈ groups, g.1.isOne = false → (envelope g.1).Meets I (fun _ => True) E)
    (acc : Expr × Expr × Polarity) :
    (addEnvelopes envelope acc groups).Meets I (fun _ => True) E := by
  induction groups generalizing acc with
  | nil => exact Attempt.meets_pure trivial
  | cons g groups ih =>
    obtain ⟨hg, hgroups⟩ := List.forall_mem_cons.mp h
    obtain ⟨lower, upper, polarity⟩ := acc
    rw [addEnvelopes]
    split
    · exact ih hgroups _
    · next hone =>
      apply (hg (by simpa using hone)).bind
      intro b _
      split
      · exact ih hgroups _
      · exact ih hgroups _
      · exact ih hgroups _
      · exact Attempt.meets_throw (hE _ (.undecided _))

theorem meets_envelopeFrom {e : Expr}
    (h : ∀ g ∈ e.collect Symbol.isVar, g.1.isOne = false →
      (envelope g.1).Meets I (fun _ => True) E) :
    (envelopeFrom envelope e).Meets I (fun _ => True) E := by
  unfold envelopeFrom
  apply (meets_addEnvelopes hE h _).bind
  rintro ⟨lower, upper, polarity⟩ -
  simp only
  apply Attempt.meets_ite
  · exact Attempt.meets_pure trivial
  · apply (meets_drawing hsupply (Expr.gives_splitBound hE .up upper)).bind
    intro upper _
    apply (meets_drawing hsupply (Expr.gives_splitBound hE .down lower)).bind
    exact fun lower _ => Attempt.meets_pure trivial

theorem meets_envelopeOfRandom {random rest : Monomial}
    (h : rest.isOne = false → (envelope rest).Meets I (fun _ => True) E) :
    (p.envelopeOfRandom envelope m random rest).Meets I (fun _ => True) E := by
  have hrange : ∀ (l : List (Symbol × Nat)) (range : Rat × Rat) (e : Error),
      p.factorRange range l = .error e → E e := by
    intro l
    induction l with
    | nil => exact fun range e he => by cases he
    | cons q l ih =>
      rintro ⟨low, high⟩ e he
      rw [factorRange] at he
      split at he
      · rw [← Except.error.inj he]
        exact hE _ (.undecided _)
      · exact ih _ e he
  unfold envelopeOfRandom
  apply (Attempt.meets_ofExcept (P := fun _ => True) (fun _ _ => trivial) (hrange _ _)).bind
  rintro ⟨low, high⟩ -
  simp only
  split
  · exact Attempt.meets_pure trivial
  · next hone =>
    apply (h (by simpa using hone)).bind
    intro b _
    apply (meets_drawing hsupply (Expr.gives_eventualBound .down (List.cons_ne_nil _ _))).bind
    intro lower _
    apply (meets_drawing hsupply (Expr.gives_eventualBound .up (List.cons_ne_nil _ _))).bind
    exact fun upper _ => Attempt.meets_pure trivial

omit hE in
theorem meets_envelopeOfDeterministic
    (h : (onMoments (p.substDeterministic (.term m 1))).Meets I (fun _ => True) E) :
    (p.envelopeOfDeterministic m).Meets I (fun _ => True) E := by
  unfold envelopeOfDeterministic
  apply h.bind
  intro value _
  apply (meets_drawing hsupply (Attempt.meets_lift value.canonicalize)).bind
  exact fun bound _ => Attempt.meets_pure trivial

omit hE in
theorem meets_envelopeOfPower {k : Nat}
    (h : (envelope (m.root k)).Meets I (fun _ => True) E) :
    (envelopeOfPower envelope m k).Meets I (fun _ => True) E := by
  unfold envelopeOfPower
  apply h.bind
  intro b _
  apply (meets_drawing hsupply (Attempt.meets_lift (b.lower.pow k).canonicalize)).bind
  intro lower _
  apply (meets_drawing hsupply (Attempt.meets_lift (b.upper.pow k).canonicalize)).bind
  exact fun upper _ => Attempt.meets_pure trivial

theorem meets_envelopeOfRecurrence
    (h : (p.branchesOf m).Meets I (fun bs =>
      (bs = [] → E (.unexpected (.noBranches m))) ∧ ∀ b ∈ bs,
        ∀ g ∈ b.rest.collect Symbol.isVar, g.1.isOne = false →
          (envelope g.1).Meets I (fun _ => True) E) E) :
    (p.envelopeOfRecurrence envelope m).Meets I (fun _ => True) E := by
  unfold envelopeOfRecurrence
  apply h.bind
  rintro bs ⟨hnone, hbs⟩
  apply (Attempt.Meets.mapM fun b hb => meets_envelopeFrom hsupply hE (hbs b hb)).bind
  intro rests hall
  cases hall with
  | nil => exact Attempt.meets_throw (hnone rfl)
  | cons _ _ =>
    exact Attempt.meets_ite
      (meets_drawing hsupply (gives_envelopeOfAlternating hE _ _ _ (List.cons_ne_nil _ _)))
      (meets_drawing hsupply (gives_envelopeOfMonotone hE _ _ _ (List.cons_ne_nil _ _) _))

/-- The envelope of a monomial, put together from the envelopes that are asked for. -/
theorem meets_envelopeBy
    (hmoments : (onMoments (p.substDeterministic (.term m 1))).Meets I (fun _ => True) E)
    (hbranches : (p.branchesOf m).Meets I (fun bs =>
      (bs = [] → E (.unexpected (.noBranches m))) ∧ ∀ b ∈ bs,
        ∀ g ∈ b.rest.collect Symbol.isVar, g.1.isOne = false →
          (envelope g.1).Meets I (fun _ => True) E) E)
    (hrest : (m.kept p.isRandom).isOne = false → (m.rest p.isRandom).isOne = false →
      (envelope (m.rest p.isRandom)).Meets I (fun _ => True) E)
    (hroot : 1 < oddPart m.powerGcd →
      (envelope (m.root (oddPart m.powerGcd))).Meets I (fun _ => True) E) :
    (p.envelopeBy envelope m).Meets I (fun _ => True) E := by
  unfold envelopeBy
  split
  · next hrandom => exact meets_envelopeOfRandom hsupply hE (hrest (by simpa using hrandom))
  · apply Attempt.meets_ite
    · exact meets_envelopeOfDeterministic hsupply hmoments
    · split
      · next hodd => exact meets_envelopeOfPower hsupply (hroot hodd)
      · exact meets_envelopeOfRecurrence hsupply hE hbranches

end Drawing

end Program

end ProbLoop
