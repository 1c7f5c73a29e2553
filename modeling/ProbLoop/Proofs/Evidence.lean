import ProbLoop.Proofs.Envelope.Within
import ProbLoop.Termination

/-!
# Evidence

Every answer of a verdict rests on bounds that were inferred on the way. What an analysis infers
depends on what it has found before, so the bounds are those of the analyses that occur.
-/

set_option autoImplicit false

namespace ProbLoop

variable {p : Program}

/-- The analyses of a program that occur when drifts and envelopes are asked for. -/
inductive Analysis.Reached (p : Program) : Analysis → Prop
  | start (supply : Supply) : Reached p (.start supply)
  | drift {a : Analysis} (before : Reached p a) : Reached p (p.drift.run.run a).2
  | envelope {a : Analysis} (before : Reached p a) {e : Expr} (within : e.Within p.vars) :
      Reached p ((p.envelopeOf e).run.run a).2
  | supply {a : Analysis} (before : Reached p a) (s : Supply) : Reached p { a with supply := s }

namespace Program

open Analysis

/-- The mean change of the guard, given the values before the iteration, with the deterministic
variables replaced by their closed forms. -/
def settledChange (p : Program) : Expr :=
  p.settled (p.expectedNext p.guard - p.guard)

section Drift

variable (hp : p.WellFormed)
include hp

theorem WellFormed.within_change : (p.expectedNext p.guard - p.guard).Within p.vars :=
  ((hp.over_expectedNext hp.guard).sub hp.guard).within

theorem WellFormed.within_settledChange : p.settledChange.Within p.vars :=
  hp.within_settled_vars hp.within_change

theorem WellFormed.ensures_drift :
    p.drift.Ensures (Regular p []) fun d => d.martingale = p.settledChange := by
  apply (ensures_onMoments p.steady_guardChange.ensures).bind
  intro change _
  have hsettles := hp.keeps_fresh_substDeterministic hp.within_change
  apply (ensures_onMoments hsettles.ensures).bind
  exact fun _ hmartingale => Attempt.ensures_pure hmartingale

theorem WellFormed.regular_of_reached {a : Analysis} (h : a.Reached p) : a.Regular p [] := by
  induction h with
  | start s => exact knows_start s
  | drift _ ih => exact (hp.ensures_drift _ ih).1
  | envelope _ hwithin ih => exact (hp.ensures_envelopeOf hwithin _ ih).1
  | supply _ s ih => exact ih.with_supply s

end Drift

/-- The analysis gives this envelope of an expression at some point. -/
def Infers (p : Program) (e : Expr) (b : Envelope) : Prop :=
  ∃ a : Analysis, a.Reached p ∧ ((p.envelopeOf e).run.run a).1 = .ok b

theorem ensures_infers {e : Expr} (he : e.Within p.vars) :
    (p.envelopeOf e).Ensures (Reached p) (p.Infers e) :=
  fun a ha => ⟨ha.envelope he, fun _ hb => ⟨a, ha, hb⟩⟩

theorem WellFormed.within_of_infers (hp : p.WellFormed) {e : Expr} (he : e.Within p.vars)
    {b : Envelope} (h : p.Infers e b) : b.Within := by
  obtain ⟨a, ha, hb⟩ := h
  exact (hp.ensures_envelopeOf he a (hp.regular_of_reached ha)).2 b hb

theorem ensures_drawing_reached {α : Type} {x : Attempt Supply α} {P : α → Prop}
    (hx : x.Ensures (fun _ => True) P) : (drawing x).Ensures (Reached p) P :=
  hx.within (fun _ _ => trivial) fun _ s h _ => h.supply s

/-- The analysis answers that an expression is at most zero in the long run. -/
def InfersNonpositive (p : Program) (e : Expr) : Prop :=
  (e.freeSymbols.all Symbol.isCounter = true ∧ e.isEventuallyNonpositive = .yes) ∨
    ∃ b, p.Infers e b ∧ ProofRule.isBelowZero b.upper = true

/-- The change of the guard in a case. -/
def caseChange (p : Program) (c : Case) : Expr := c.value - p.guard

/-- The analysis gives this bound of the changes of the guard in all cases. -/
def InfersSize (p : Program) (d : Expr) : Prop :=
  ∃ bs sizes, List.Forall₂ (fun c b => p.Infers (p.caseChange c) b) (p.cases p.guard) bs ∧
    List.Forall₂ (fun b s => (b.absoluteUpper >>= fun r => pure r.1).Answers s) bs sizes ∧
    (Expr.dominating sizes).Answers d

/-- The guard is never positive before the first iteration. -/
def NeverEntered (p : Program) : Prop :=
  (p.initialPolarity p.guard).maybePositive = false

/-- The guard decreases in the mean, as far as was inferred. -/
def Ranks (p : Program) : Prop :=
  ∃ b, p.Infers p.settledChange b ∧ ProofRule.isBelowZero b.upper = true

/-- The guard does not increase in the mean and is lowered by some case, as far as was inferred. -/
def Decreases (p : Program) : Prop :=
  p.InfersNonpositive p.settledChange ∧ ∃ c ∈ p.cases p.guard, ∃ b,
    p.Infers (p.caseChange c) b ∧ ProofRule.isBelowZero b.upper = true

/-- Some case of the guard is negative, as far as was inferred. -/
def Exits (p : Program) : Prop :=
  ∃ c ∈ p.cases p.guard, ∃ b, p.Infers c.value b ∧ ProofRule.isBelowZero b.upper = true

/-- The guard does not decrease in the mean and its changes are bounded, as far as was inferred. -/
def Lingers (p : Program) : Prop :=
  p.InfersNonpositive (-p.settledChange) ∧
    ∃ d, p.InfersSize d ∧ Expr.one.dominates d .up = true

/-- The guard increases in the mean by more than a function that vanishes, and its changes are
bounded, as far as was inferred. -/
def Diverges (p : Program) : Prop :=
  (∃ d, p.InfersSize d ∧ Expr.one.dominates d .up = true) ∧
    ∃ b, p.Infers (-p.settledChange) b ∧ Expr.one.dominates (-b.upper) .up = true ∧
      Expr.zero.dominates (-b.upper) .up = false

/-- There is evidence for every answer. -/
structure Justifies (p : Program) (v : Verdict) : Prop where
  past_yes : v.past = .yes → p.NeverEntered ∨ p.Ranks ∨ p.Exits
  ast_yes : v.ast = .yes → p.NeverEntered ∨ p.Ranks ∨ p.Exits ∨ p.Decreases
  past_no : v.past = .no → p.Lingers
  ast_no : v.ast = .no → p.Lingers ∧ p.Diverges

end Program

namespace Program

variable {v : Verdict}

theorem justifies_start : p.Justifies .start := by
  constructor <;> simp [Verdict.start]

theorem Justifies.addWitness (h : p.Justifies v) (w : Witness) : p.Justifies (v.addWitness w) :=
  ⟨h.past_yes, h.ast_yes, h.past_no, h.ast_no⟩

theorem Justifies.setPast (h : p.Justifies v) {a : Answer}
    (hyes : a = .yes → p.NeverEntered ∨ p.Ranks ∨ p.Exits) (hno : a = .no → p.Lingers) :
    p.Justifies (v.setPast a).2 := by
  unfold Verdict.setPast
  split
  · exact h
  · exact ⟨hyes, h.ast_yes, hno, h.ast_no⟩

theorem Justifies.setAst (h : p.Justifies v) {a : Answer}
    (hyes : a = .yes → p.NeverEntered ∨ p.Ranks ∨ p.Exits ∨ p.Decreases)
    (hno : a = .no → p.Lingers ∧ p.Diverges) : p.Justifies (v.setAst a).2 := by
  unfold Verdict.setAst
  split
  · exact h
  · exact ⟨h.past_yes, hyes, h.past_no, hno⟩

theorem Justifies.conclude_yes (h : p.Justifies v) (hyes : p.NeverEntered ∨ p.Ranks ∨ p.Exits)
    (w : Witness) : p.Justifies (v.conclude .yes .yes w) := by
  have hast : p.NeverEntered ∨ p.Ranks ∨ p.Exits ∨ p.Decreases :=
    hyes.imp_right fun h => h.imp_right Or.inl
  exact ((h.setPast (fun _ => hyes) (by simp)).setAst (fun _ => hast) (by simp)).addWitness w

theorem Justifies.conclude_no (h : p.Justifies v) (hlingers : p.Lingers)
    (hdiverges : p.Diverges) (w : Witness) : p.Justifies (v.conclude .no .no w) :=
  ((h.setPast (by simp) fun _ => hlingers).setAst (by simp)
    fun _ => ⟨hlingers, hdiverges⟩).addWitness w

end Program

end ProbLoop
