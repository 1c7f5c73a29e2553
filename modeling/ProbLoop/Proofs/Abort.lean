import ProbLoop.Proofs.Acyclic
import ProbLoop.Proofs.Rules

/-!
# How an analysis is aborted

A question that a rule leaves open is passed over. The analysis of a program that was read is aborted in
one way only: a bound is infinite with the sign of a coefficient, and no constant occurs linearly in the
coefficient, so that neither sign can be chosen.
-/

set_option autoImplicit false

namespace ProbLoop

open Analysis Program

theorem Expr.linearIn?_eq_none_of_solvable? {c : Expr} (h : c.solvable? = none) :
    ∀ s ∈ c.freeSymbols, s.isConstant = true → c.linearIn? s = none := by
  intro s hs hconstant
  unfold solvable? at h
  rw [List.findSome?_eq_none_iff] at h
  refine Option.map_eq_none_iff.mp (h s ?_)
  have hmem : s ∈ c.freeSymbols.filter Symbol.isConstant := List.mem_filter.mpr ⟨hs, hconstant⟩
  by_cases hpositive : s.isPositive = true
  · exact List.mem_append_right _ (List.mem_filter.mpr ⟨hmem, hpositive⟩)
  · exact List.mem_append_left _ (List.mem_filter.mpr ⟨hmem, by simpa using hpositive⟩)

variable {p : Program}

/-- Whatever was computed before, the computation fails in foreseen ways only. -/
abbrev Attempt.Foresees {α : Type} (p : Program) (x : Attempt Analysis α) : Prop :=
  x.Meets (Coherent p []) (fun _ => True) Error.Foreseen

/-- After a failure that leaves a question open, the computation goes on with a given answer. -/
theorem Attempt.Foresees.absorb {α : Type} {x : Attempt Analysis α} (hx : x.Foresees p) (a : α) :
    (tryCatch x fun err => if err.isUndecided then return a else throw err).Meets
      (Coherent p []) (fun _ => True) fun err => err.Foreseen ∧ err.isUndecided = false := by
  apply hx.tryCatch
  intro err herr
  split
  · exact Attempt.meets_pure trivial
  · next hdecided => exact Attempt.meets_throw ⟨herr, by simpa using hdecided⟩

namespace Program

theorem foresees_drawing {α : Type} {x : Attempt Supply α} {P : α → Prop}
    (hx : x.Gives Error.Foreseen P) : (drawing x).Meets (Coherent p []) P Error.Foreseen :=
  meets_drawing (fun _ s ha => ha.with_supply s) hx

variable (hp : p.WellFormed)
include hp

theorem WellFormed.foresees_isInvariant {e : Expr} (he : e.Within p.vars) :
    (p.isInvariant e).Foresees p := by
  unfold isInvariant
  apply Attempt.meets_ite
  · exact Attempt.meets_pure trivial
  · have hanswer : (do return answerOf (← p.envelopeOf e) : Attempt Analysis Answer).Foresees p :=
      (hp.foreseen_envelopeOf he).bind fun _ _ => Attempt.meets_pure trivial
    exact (hanswer.absorb _).weaken fun _ h => h.1

/-- The two expressions that the rules share are always computed. -/
theorem WellFormed.keeps_fresh_guardChange :
    p.guardChange.Keeps (p.Fresh ()) ((p.meanOf p.guard).shift 1 - p.meanOf p.guard) :=
  p.steady_guardChange.keeps_of_keeps
    ((hp.keeps_expected hp.guard.within).bind (Attempt.keeps_pure _))
    (i := ()) (s := .empty) (sound_empty _) (sound_empty _) ()

theorem WellFormed.meets_drift {E : Error → Prop} :
    p.drift.Meets (Coherent p []) (fun d => d.martingale = p.settledChange) E := by
  have hmoments : ∀ {x : Attempt ClosedForms Expr} {e : Expr}, x.Keeps (p.Fresh ()) e →
      (onMoments x).Meets (Coherent p []) (· = e) E := fun hx =>
    hx.meets.within (fun _ ha => ha.closedForms) fun _ _ ha ht => ha.with_closedForms ht
  apply (hmoments hp.keeps_fresh_guardChange).bind
  intro change _
  apply (hmoments (hp.keeps_fresh_substDeterministic hp.within_change)).bind
  exact fun martingale hmartingale => Attempt.meets_pure hmartingale

end Program

namespace ProofRule

variable (hp : p.WellFormed) {d : Drift} (hd : d.martingale = p.settledChange) {v : Verdict}
include hp

theorem foresees_firstBelowZero {measure : Case → Expr} {cs : List Case}
    (h : ∀ c ∈ cs, (measure c).Within p.vars) : (firstBelowZero p measure cs).Foresees p := by
  induction cs with
  | nil => exact Attempt.meets_pure trivial
  | cons c cs ih =>
    obtain ⟨hc, hcs⟩ := List.forall_mem_cons.mp h
    rw [firstBelowZero]
    exact (hp.foreseen_envelopeOf hc).bind fun b _ =>
      Attempt.meets_ite (Attempt.meets_pure trivial) (ih hcs)

theorem foresees_runRepulsing (hd : d.martingale = p.settledChange) :
    (runRepulsing p d v).Foresees p := by
  have hwithin := hp.within_settledChange.neg
  have hcases := hp.sequential.cases_ne_nil hp.guard.canonical
  unfold runRepulsing
  rw [hd]
  apply Attempt.meets_ite (Attempt.meets_pure trivial)
  apply (hp.foresees_isInvariant hwithin).bind
  intro answer _
  apply Attempt.meets_ite _ (Attempt.meets_pure trivial)
  apply (Attempt.Meets.mapM fun c hc => hp.foreseen_envelopeOf (within_caseChange hp hc)).bind
  intro bs hbs
  apply Attempt.meets_ite (Attempt.meets_pure trivial)
  have hsizes : (bs.mapM fun b => do return (← b.absoluteUpper).1 : Attempt Supply (List Expr)).Gives
      Error.Foreseen (· ≠ []) := by
    apply (Attempt.Meets.mapM (R := fun _ _ => True) fun b _ => ?_).mono
    · exact fun sizes h => ne_nil_of_forall₂ h (ne_nil_of_forall₂ hbs hcases)
    · exact (Envelope.gives_absoluteUpper b).bind fun _ _ => Attempt.meets_pure trivial
  apply (foresees_drawing hsizes).bind
  intro sizes hne
  apply (foresees_drawing (Expr.gives_eventualBound .up hne)).bind
  intro differences _
  exact (hp.foreseen_envelopeOf hwithin).bind fun b _ => Attempt.meets_pure trivial

include hd

/-- A rule fails in foreseen ways only. -/
theorem foresees_run (rule : ProofRule) : (rule.run p d v).Foresees p := by
  have hsame : ∀ v : Verdict, (pure v : Attempt Analysis Verdict).Foresees p :=
    fun _ => Attempt.meets_pure trivial
  cases rule with
  | initialState => exact Attempt.meets_ite (hsame _) (hsame _)
  | ranking =>
    unfold run runRanking
    rw [hd]
    exact Attempt.meets_ite (hsame _) ((hp.foreseen_envelopeOf hp.within_settledChange).bind
      fun b _ => Attempt.meets_ite (hsame _) (hsame _))
  | supermartingale =>
    unfold run runSupermartingale
    rw [hd]
    apply Attempt.meets_ite (hsame _)
    apply (hp.foresees_isInvariant hp.within_settledChange).bind
    intro answer _
    apply Attempt.meets_ite _ (hsame _)
    apply (foresees_firstBelowZero hp fun c hc => within_caseChange hp hc).bind
    rintro (_ | ⟨c, bound⟩) - <;> exact hsame _
  | repulsing => exact foresees_runRepulsing hp hd
  | geometric =>
    unfold run runGeometric
    apply Attempt.meets_ite (hsame _)
    apply (foresees_firstBelowZero hp fun c hc =>
      (hp.proper_cases hp.guard c hc).2.within).bind
    rintro (_ | ⟨c, bound⟩) - <;> exact hsame _

/-- A rule that is tried leaves no question open. -/
theorem meets_tryRule (rule : ProofRule) :
    (p.tryRule d rule v).Meets (Coherent p []) (fun _ => True)
      fun err => err.Foreseen ∧ err.isUndecided = false := by
  unfold tryRule
  apply Attempt.meets_ite
  · exact (foresees_run hp hd rule).absorb v
  · exact Attempt.meets_pure trivial

theorem meets_tryRules (rules : List ProofRule) :
    (p.tryRules d rules v).Meets (Coherent p []) (fun _ => True)
      fun err => err.Foreseen ∧ err.isUndecided = false := by
  induction rules generalizing v with
  | nil => exact Attempt.meets_pure trivial
  | cons rule rules ih =>
    apply (meets_tryRule hp hd rule).bind
    intro v' _
    exact Attempt.meets_ite (Attempt.meets_pure trivial) ih

end ProofRule

namespace Program

/-- A loop whose guard grows with the square of an unspecified initial value. -/
def squaring : Program :=
  ⟨[⟨"x", .random (.unknown (.real "x0")), .deterministic ((.ofSymbol (.var "x") : Expr).scale 2)⟩],
    (Expr.ofSymbol (.var "x")).pow 2⟩

theorem parse_squaring : parse "while x**2 > 0:\n    x = 2*x\nend\n" = .ok squaring := by
  decide +kernel

theorem verdict_squaring : ¬∃ v, (squaring.verdict.run.run (.start ⟨0⟩)).1 = .ok v := by
  have hrun : (squaring.verdict.run.run (.start ⟨0⟩)).1 =
      .error (.unexpected (.signStays
        (((Expr.ofSymbol (.real "x0")).pow 2).scale 4)
        (((Expr.ofSymbol (.real "x0")).pow 2).scale 4 * .exponential 4))) := by cbv
  rintro ⟨v, hv⟩
  rw [hrun] at hv
  cases hv

end Program

end ProbLoop
