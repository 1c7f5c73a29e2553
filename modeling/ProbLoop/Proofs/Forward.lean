import ProbLoop.Proofs.Envelope.Stored
import ProbLoop.Proofs.Session

/-!
# Sessions that take no constants back

While constants are only drawn and never taken back, the envelopes that are stored mention none of the
constants that are drawn later. This holds whatever is asked, even if a question mentions such a constant: the
envelope of a monomial in the variables depends on the program alone.
-/

set_option autoImplicit false

namespace ProbLoop

open Analysis

variable {p : Program} {P : Supply → Symbol → Prop}

namespace Analysis

section Questions

variable (hP : Vocabulary P)
include hP

theorem continues_drawing {α : Type} {x : Attempt Supply α} (hx : x.Continues Supply.Later) :
    (drawing x).Continues (Onward p P []) := fun a ha =>
  (Program.advances_drawing (course_onward hP) ha ((hx.advances (.refl a.supply)))).1

theorem continues_onMoments {α : Type} {x : Attempt ClosedForms α} (hx : x.Steady p.Fresh) :
    (onMoments x).Continues (Onward p P []) := fun _ ha =>
  (Program.advances_onMoments (course_onward hP) hx ha).1

theorem continues_branchesOf (m : Monomial) :
    (p.branchesOf m).Continues (Onward p P []) := fun _ ha =>
  (Program.advances_branchesOf (course_onward hP) ha m).1

theorem continues_envelopeOfMonomial (m : Monomial) :
    (p.envelopeOfMonomial m).Continues (Onward p P []) := fun _ ha =>
  (Program.advances_envelopeOfMonomial hP m ha).1

theorem continues_envelopeOf (e : Expr) : (p.envelopeOf e).Continues (Onward p P []) := fun _ ha =>
  (Program.advances_envelopeFrom (H := False) (course_onward hP) hP ha False.elim fun k _ ha' =>
    (Program.advances_envelopeOfMonomial hP k ha'.toKnows.onward).mono fun _ _ _ hb => hb.1).1

theorem continues_isInvariant (e : Expr) : (p.isInvariant e).Continues (Onward p P []) := by
  have hT : Progress (Onward p P []) := (course_onward hP).toProgress
  have hanswer : (do return Program.answerOf (← p.envelopeOf e) :
      Attempt Analysis Answer).Continues (Onward p P []) :=
    (continues_envelopeOf hP e).bind hT fun _ => Attempt.continues_pure _
  exact Attempt.continues_ite (Attempt.continues_pure _) (hanswer.tryCatch hT fun err =>
    Attempt.continues_ite (Attempt.continues_pure _) (Attempt.continues_throw err))

theorem continues_firstBelowZero (measure : Case → Expr) (cs : List Case) :
    (ProofRule.firstBelowZero p measure cs).Continues (Onward p P []) := by
  induction cs with
  | nil => exact Attempt.continues_pure _
  | cons c cs ih =>
    exact (continues_envelopeOf hP _).bind (course_onward hP).toProgress fun _ =>
      Attempt.continues_ite (Attempt.continues_pure _) ih

/-- A rule takes no constants back, whatever the drift is that it is given. -/
theorem continues_run (rule : ProofRule) (drift : Drift) (v : Verdict) :
    (rule.run p drift v).Continues (Onward p P []) := by
  have hT : Progress (Onward p P []) := (course_onward hP).toProgress
  have hsame : ∀ v : Verdict, (pure v : Attempt Analysis Verdict).Continues (Onward p P []) :=
    Attempt.continues_pure
  cases rule with
  | initialState => exact Attempt.continues_ite (hsame _) (hsame _)
  | ranking =>
    exact Attempt.continues_ite (hsame _) ((continues_envelopeOf hP _).bind hT fun _ =>
      Attempt.continues_ite (hsame _) (hsame _))
  | supermartingale =>
    apply Attempt.continues_ite (hsame _)
    refine (continues_isInvariant hP _).bind hT fun answer => Attempt.continues_ite ?_ (hsame _)
    refine (continues_firstBelowZero hP _ _).bind hT ?_
    rintro (_ | ⟨c, bound⟩) <;> exact hsame _
  | repulsing =>
    apply Attempt.continues_ite (hsame _)
    refine (continues_isInvariant hP _).bind hT fun answer => Attempt.continues_ite ?_ (hsame _)
    refine (Attempt.Continues.mapM hT (fun c => continues_envelopeOf hP _) _).bind hT
      fun changes => Attempt.continues_ite (hsame _) ?_
    have hsizes : (changes.mapM fun b => do return (← b.absoluteUpper).1 :
        Attempt Supply (List Expr)).Continues Supply.Later := by
      refine Attempt.Continues.mapM Supply.progress_later (fun b => ?_) _
      exact Attempt.Continues.bind Supply.progress_later
        (fun s _ => (Envelope.advances_absoluteUpper (H := False) hP False.elim).1)
        fun _ => Attempt.continues_pure _
    have hdifferences : ∀ sizes, (Expr.dominating sizes).Continues Supply.Later := fun sizes s _ =>
      (Expr.advances_eventualBound (H := False) hP .up False.elim).1
    refine (continues_drawing hP hsizes).bind hT fun sizes => ?_
    refine (continues_drawing hP (hdifferences sizes)).bind hT fun differences => ?_
    exact (continues_envelopeOf hP _).bind hT fun _ => hsame _
  | geometric =>
    apply Attempt.continues_ite (hsame _)
    refine (continues_firstBelowZero hP _ _).bind hT ?_
    rintro (_ | ⟨c, bound⟩) <;> exact hsame _

end Questions

end Analysis

namespace Session

/-- No constants are taken back when constants are drawn elsewhere. -/
def Forward : Session → List Call → Prop
  | _, [] => True
  | s, c :: calls =>
    (∀ supply, c = .draw supply → s.analysis.supply.Later supply) ∧ Forward (s.perform c) calls

/-- What the analysis stores is made from what may be used. -/
abbrev Stores (P : Supply → Symbol → Prop) (s : Session) : Prop :=
  s.analysis.Knows s.program s.program.Poses (fun _ b => b.Uses (P s.analysis.supply)) []

/-- One call keeps what is stored in order. -/
theorem stores_perform (hP : Vocabulary P) {s : Session} (hs : s.Stores P) (c : Call)
    (hforward : ∀ supply, c = .draw supply → s.analysis.supply.Later supply) :
    (s.perform c).Stores P := by
  have hasked : ∀ {α : Type} {question : Program → Attempt Analysis α},
      (question s.program).Continues (Onward s.program P []) → (s.ask question).2.Stores P :=
    fun hquestion => (hquestion _ hs.onward).toKnows
  cases c with
  | branches m => exact hasked (continues_branchesOf hP m)
  | closedForm m => exact hasked (continues_onMoments hP (s.program.steady_fresh m))
  | expected e => exact hasked (continues_onMoments hP (s.program.steady_expected e))
  | substitute e => exact hasked (continues_onMoments hP (s.program.steady_substDeterministic e))
  | guardChange => exact hasked (continues_onMoments hP s.program.steady_guardChange)
  | martingale => exact hasked (continues_onMoments hP (s.program.steady_substDeterministic _))
  | envelope e => exact hasked (continues_envelopeOf hP e)
  | envelopeOfMonomial m => exact hasked (continues_envelopeOfMonomial hP m)
  | invariant e => exact hasked (continues_isInvariant hP e)
  | rule rule drift =>
    have hrule : (s.ask fun p => rule.run p drift s.verdict).2.Stores P :=
      hasked (continues_run hP rule drift s.verdict)
    unfold perform runRule
    dsimp only
    split <;> exact hrule
  | switch p => exact knows_start _
  | draw supply =>
    exact ((course_onward hP).with_supply hs.onward (hforward supply rfl)).toKnows

/-- Whatever was asked, the stored envelopes mention no constants that are drawn later. -/
theorem stores_after (hP : Vocabulary P) {s : Session} (hs : s.Stores P) {calls : List Call}
    (hforward : s.Forward calls) : (s.after calls).Stores P := by
  induction calls generalizing s with
  | nil => exact hs
  | cons c calls ih => exact ih (stores_perform hP hs c hforward.1) hforward.2

end Session

end ProbLoop
