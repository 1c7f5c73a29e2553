import ProbLoop.Proofs.Envelope.Known
import ProbLoop.Session

/-!
# Calls on a session

A session answers questions about one program after the other. Whatever is asked, and whether or not it is
answered, the tables hold what would be computed without them, and nothing is pending afterwards.
-/

set_option autoImplicit false

namespace ProbLoop

/-- A call on a session. -/
inductive Call where
  | branches (m : Monomial)
  | closedForm (m : Monomial)
  | expected (e : Expr)
  | substitute (e : Expr)
  | guardChange
  | martingale
  | envelope (e : Expr)
  | envelopeOfMonomial (m : Monomial)
  | invariant (e : Expr)
  | rule (rule : ProofRule) (drift : Drift)
  | switch (p : Program)
  /-- Constants are drawn elsewhere. -/
  | draw (supply : Supply)

namespace Session

open Analysis

/-- The session after a call, whatever its answer is. -/
def perform (s : Session) : Call → Session
  | .branches m => (s.ask fun p => p.branchesOf m).2
  | .closedForm m => (s.ask fun p => onMoments (p.closedForm m)).2
  | .expected e => (s.ask fun p => onMoments (p.expected e)).2
  | .substitute e => (s.ask fun p => onMoments (p.substDeterministic e)).2
  | .guardChange => (s.ask fun p => onMoments p.guardChange).2
  | .martingale => (s.ask fun p => onMoments p.martingale).2
  | .envelope e => (s.ask fun p => p.envelopeOf e).2
  | .envelopeOfMonomial m => (s.ask fun p => p.envelopeOfMonomial m).2
  | .invariant e => (s.ask fun p => p.isInvariant e).2
  | .rule rule drift => (s.runRule rule drift).2
  | .switch p => s.switch p
  | .draw supply => { s with analysis := { s.analysis with supply := supply } }

/-- The session after several calls. -/
def after (s : Session) (calls : List Call) : Session :=
  calls.foldl perform s

theorem ask_of_run {α : Type} {s : Session} {question : Program → Attempt Analysis α}
    {answer : Except Error α} {a : Analysis}
    (h : (question s.program).run.run s.analysis = (answer, a)) :
    s.ask question = (answer, { s with analysis := a }) := by
  simp only [ask, h]

theorem run_of_ask {α : Type} {s s' : Session} {question : Program → Attempt Analysis α}
    {answer : Except Error α} (h : s.ask question = (answer, s')) :
    ∃ a, (question s.program).run.run s.analysis = (answer, a) ∧ s' = { s with analysis := a } := by
  cases hrun : (question s.program).run.run s.analysis with
  | mk answer' a =>
    rw [ask_of_run hrun] at h
    obtain ⟨rfl, rfl⟩ := Prod.mk.inj h
    exact ⟨a, rfl, rfl⟩

end Session

namespace Analysis

/-- Every question about the program keeps the invariant. -/
structure Kept (p : Program) (I : Analysis → Prop) : Prop where
  supply : ∀ a s, I a → I { a with supply := s }
  moments : ∀ {α : Type} {x : Attempt ClosedForms α}, x.Steady p.Fresh →
    (onMoments x).Ensures I fun _ => True
  branches : ∀ m, (p.branchesOf m).Ensures I fun _ => True
  envelopes : ∀ m, (p.envelopeOfMonomial m).Ensures I fun _ => True

namespace Kept

variable {p : Program} {I : Analysis → Prop} (h : Kept p I)
include h

theorem drawing {α : Type} (x : Attempt Supply α) :
    (Analysis.drawing x).Ensures I fun _ => True :=
  (x.ensures_answers.mono fun _ _ => trivial).within (fun _ _ => trivial)
    fun a s ha _ => h.supply a s ha

theorem envelopeOf (e : Expr) : (p.envelopeOf e).Ensures I fun _ => True :=
  (Program.meets_envelopeFrom h.supply (E := fun _ => True) (fun _ _ => trivial)
    fun g _ _ => (h.envelopes g.1).meets).1

theorem isInvariant (e : Expr) : (p.isInvariant e).Ensures I fun _ => True := by
  apply Attempt.ensures_ite
  · exact Attempt.ensures_pure trivial
  · apply Attempt.ensures_tryCatch
    · exact (h.envelopeOf e).bind fun _ _ => Attempt.ensures_pure trivial
    · exact fun err => Attempt.ensures_ite (Attempt.ensures_pure trivial)
        (Attempt.ensures_throw err)

theorem firstBelowZero (measure : Case → Expr) (cs : List Case) :
    (ProofRule.firstBelowZero p measure cs).Ensures I fun _ => True := by
  induction cs with
  | nil => exact Attempt.ensures_pure trivial
  | cons c cs ih =>
    exact (h.envelopeOf _).bind fun _ _ =>
      Attempt.ensures_ite (Attempt.ensures_pure trivial) ih

/-- A rule keeps the invariant, whatever the drift is that it is given. -/
theorem run (rule : ProofRule) (drift : Drift) (v : Verdict) :
    (rule.run p drift v).Ensures I fun _ => True := by
  have hsame : ∀ v : Verdict, (pure v : Attempt Analysis Verdict).Ensures I fun _ => True :=
    fun _ => Attempt.ensures_pure trivial
  cases rule with
  | initialState => exact Attempt.ensures_ite (hsame _) (hsame _)
  | ranking =>
    exact Attempt.ensures_ite (hsame _) ((h.envelopeOf _).bind fun _ _ =>
      Attempt.ensures_ite (hsame _) (hsame _))
  | supermartingale =>
    apply Attempt.ensures_ite (hsame _)
    apply (h.isInvariant _).bind
    intro answer _
    apply Attempt.ensures_ite _ (hsame _)
    apply (h.firstBelowZero _ _).bind
    rintro (_ | ⟨c, bound⟩) - <;> exact hsame _
  | repulsing =>
    apply Attempt.ensures_ite (hsame _)
    apply (h.isInvariant _).bind
    intro answer _
    apply Attempt.ensures_ite _ (hsame _)
    apply (Attempt.Ensures.forall_mapM fun c _ => h.envelopeOf (c.value - p.guard)).bind
    intro changes _
    apply Attempt.ensures_ite (hsame _)
    apply (h.drawing _).bind
    intro sizes _
    apply (h.drawing _).bind
    intro differences _
    exact (h.envelopeOf _).bind fun _ _ => hsame _
  | geometric =>
    apply Attempt.ensures_ite (hsame _)
    apply (h.firstBelowZero _ _).bind
    rintro (_ | ⟨c, bound⟩) - <;> exact hsame _

end Kept

end Analysis

namespace Session

open Analysis

section Run

variable {I : Program → Analysis → Prop}

/-- One call keeps an invariant that questions keep and that new analyses have. -/
theorem holds_perform (hstart : ∀ p supply, I p (.start supply)) (hkept : ∀ p, Kept p (I p))
    {s : Session} (hs : I s.program s.analysis) (c : Call) :
    I (s.perform c).program (s.perform c).analysis := by
  have hasked : ∀ {α : Type} {question : Program → Attempt Analysis α},
      (question s.program).Ensures (I s.program) (fun _ => True) →
        I (s.ask question).2.program (s.ask question).2.analysis :=
    fun hquestion => (hquestion _ hs).1
  have hk := hkept s.program
  cases c with
  | branches m => exact hasked (hk.branches m)
  | closedForm m => exact hasked (hk.moments (s.program.steady_fresh m))
  | expected e => exact hasked (hk.moments (s.program.steady_expected e))
  | substitute e => exact hasked (hk.moments (s.program.steady_substDeterministic e))
  | guardChange => exact hasked (hk.moments s.program.steady_guardChange)
  | martingale => exact hasked (hk.moments (s.program.steady_substDeterministic _))
  | envelope e => exact hasked (hk.envelopeOf e)
  | envelopeOfMonomial m => exact hasked (hk.envelopes m)
  | invariant e => exact hasked (hk.isInvariant e)
  | rule rule drift =>
    have hrule : I (s.ask fun p => rule.run p drift s.verdict).2.program
        (s.ask fun p => rule.run p drift s.verdict).2.analysis :=
      hasked (hk.run rule drift s.verdict)
    unfold perform runRule
    dsimp only
    split <;> exact hrule
  | switch p => exact hstart p s.analysis.supply
  | draw supply => exact hk.supply _ _ hs

/-- A run of calls keeps what every call keeps. -/
theorem holds_after (hstart : ∀ p supply, I p (.start supply)) (hkept : ∀ p, Kept p (I p))
    {s : Session} (hs : I s.program s.analysis) (calls : List Call) :
    I (s.after calls).program (s.after calls).analysis := by
  induction calls generalizing s with
  | nil => exact hs
  | cons c calls ih => exact ih (holds_perform hstart hkept hs c)

end Run

end Session

/-! ### Transparent tables -/

namespace Program

open Analysis

/-- Every question keeps what is established about envelopes. -/
theorem Establishes.kept {p : Program} {kind : Monomial → Prop} {Q : Monomial → Envelope → Prop}
    (h : p.Establishes kind Q) : Kept p (Knows p kind Q []) where
  supply _ s ha := ha.with_supply s
  moments hx := ensures_onMoments hx.ensures
  branches m := (ensures_branchesOf p m).mono fun _ _ => trivial
  envelopes m := (h.envelopeOfMonomial m []).mono fun _ _ => trivial

end Program

namespace Session

open Analysis

/-- What is established about envelopes of all programs is known after every sequence of calls. -/
theorem knows_after {kind : Program → Monomial → Prop} {Q : Program → Monomial → Envelope → Prop}
    (h : ∀ p : Program, p.Establishes (kind p) (Q p)) (p : Program) (supply : Supply)
    (calls : List Call) :
    ((start p supply).after calls).analysis.Knows ((start p supply).after calls).program
      (kind ((start p supply).after calls).program) (Q ((start p supply).after calls).program) [] :=
  holds_after (I := fun p => Knows p (kind p) (Q p) []) (fun _ => knows_start) (fun p => (h p).kept)
    (knows_start supply) calls

theorem coherent_after (p : Program) (supply : Supply) (calls : List Call) :
    ((start p supply).after calls).analysis.Coherent ((start p supply).after calls).program [] :=
  (knows_after Program.establishes_nothing p supply calls).toCoherent

/-- What was asked before cannot be seen: nothing is pending, what is stored about branches and closed
forms is what is computed without tables, so are the answers, and a rule that fails leaves the verdict as
it is. -/
structure Transparent (s : Session) : Prop where
  closedForms_pending : s.analysis.closedForms.pending = []
  envelopes_pending : s.analysis.envelopes.pending = []
  branches_pending : s.analysis.branches.pending = []
  stored_branches : ∀ e ∈ s.analysis.branches.entries, s.program.branches e.1 = .ok e.2
  stored_closedForm : ∀ e ∈ s.analysis.closedForms.entries,
    ((s.program.closedForm e.1).run.run .empty).1 = .ok e.2
  branches : ∀ m, (s.ask fun p => p.branchesOf m).1 = s.program.branches m
  closedForm : ∀ m, (s.ask fun p => onMoments (p.closedForm m)).1 =
    ((s.program.closedForm m).run.run .empty).1
  expected : ∀ e, (s.ask fun p => onMoments (p.expected e)).1 =
    ((s.program.expected e).run.run .empty).1
  failed_rule : ∀ rule drift err, (s.runRule rule drift).1 = .error err →
    (s.runRule rule drift).2.verdict = s.verdict

end Session

end ProbLoop
