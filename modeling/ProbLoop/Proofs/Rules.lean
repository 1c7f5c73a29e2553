import ProbLoop.Proofs.Evidence

/-!
# Rules and evidence

A rule leaves a verdict as it is or draws its conclusion from evidence, and it never takes back an
answer. So there is evidence for every answer of a verdict.
-/

set_option autoImplicit false

namespace ProbLoop

open Analysis Program

variable {p : Program} {v : Verdict}

theorem Program.ensures_isInvariant {e : Expr} (he : e.Within p.vars) :
    (p.isInvariant e).Ensures (Reached p) fun a => a = .yes → p.InfersNonpositive e := by
  unfold isInvariant
  split
  · next hcounter => exact Attempt.ensures_pure fun h => Or.inl ⟨hcounter, h⟩
  · apply Attempt.ensures_tryCatch
    · apply (ensures_infers he).bind
      intro b hb
      apply Attempt.ensures_pure
      intro h
      refine Or.inr ⟨b, hb, ?_⟩
      unfold answerOf at h
      split at h
      · next hbelow => exact hbelow
      · split at h <;> simp at h
    · intro err
      apply Attempt.ensures_ite
      · exact Attempt.ensures_pure (by simp)
      · exact Attempt.ensures_throw err

theorem Program.tryRule_of_run {rule : ProofRule} {d : Drift} {v v' : Verdict}
    (happlies : rule.isApplicable d = true) (h : rule.run p d v = pure v') :
    p.tryRule d rule v = pure v' := by
  rw [tryRule, if_pos happlies, h]
  rfl

namespace ProofRule

/-- What a rule can make of a verdict, and on which evidence. The rules differ in which questions have to
be open, and only the rule on the initial state never misses what it looks for. -/
inductive Concludes (p : Program) (v : Verdict) : ProofRule → Verdict → Prop
  | nothing {rule : ProofRule} (h : rule = initialState → p.NeverEntered → v.allKnown = true) :
      Concludes p v rule v
  | entered {w : Witness} (hw : w.kind = .past) (hopen : v.allKnown = false)
      (h : p.NeverEntered) : Concludes p v initialState (v.conclude .yes .yes w)
  | ranks {w : Witness} (hw : w.kind = .past) (hopen : v.past.isKnown = false)
      (h : p.Ranks) : Concludes p v ranking (v.conclude .yes .yes w)
  | exits {w : Witness} (hw : w.kind = .past) (hopen : v.past.isKnown = false)
      (h : p.Exits) : Concludes p v geometric (v.conclude .yes .yes w)
  | decreases {w : Witness} (hw : w.kind = .ast) (hopen : v.ast.isKnown = false)
      (h : p.Decreases) : Concludes p v supermartingale ((v.setAst .yes).2.addWitness w)
  | diverges {w : Witness} (hw : w.kind = .notAst) (hopen : v.allKnown = false)
      (hlingers : p.Lingers) (h : p.Diverges) : Concludes p v repulsing (v.conclude .no .no w)
  | lingers {w : Witness} (hw : w.kind = .notPast) (hopen : v.allKnown = false)
      (h : p.Lingers) : Concludes p v repulsing ((v.setPast .no).2.addWitness w)

/-- The rules are tried one after the other until both questions are answered. -/
inductive Runs (p : Program) : List ProofRule → Verdict → Verdict → Prop
  | done (v : Verdict) : Runs p [] v v
  | answered {rule : ProofRule} {rest : List ProofRule} {v v' : Verdict}
      (h : Concludes p v rule v') (hknown : v'.allKnown = true) : Runs p (rule :: rest) v v'
  | next {rule : ProofRule} {rest : List ProofRule} {v v' v'' : Verdict}
      (h : Concludes p v rule v') (hopen : v'.allKnown = false) (hrest : Runs p rest v' v'') :
      Runs p (rule :: rest) v v''

theorem ensures_firstBelowZero {measure : Case → Expr} {cs : List Case}
    (h : ∀ c ∈ cs, (measure c).Within p.vars) :
    (firstBelowZero p measure cs).Ensures (Reached p) fun found =>
      ∀ c bound, found = some (c, bound) →
        c ∈ cs ∧ ∃ b, p.Infers (measure c) b ∧ isBelowZero b.upper = true := by
  induction cs with
  | nil => exact Attempt.ensures_pure (by simp)
  | cons c cs ih =>
    obtain ⟨hc, hcs⟩ := List.forall_mem_cons.mp h
    rw [firstBelowZero]
    apply (ensures_infers hc).bind
    intro b hb
    split
    · next hbelow =>
      apply Attempt.ensures_pure
      intro d bound hfound
      obtain ⟨rfl, -⟩ := Prod.mk.inj (Option.some.inj hfound)
      exact ⟨List.mem_cons_self, b, hb, hbelow⟩
    · apply (ih hcs).mono
      intro found hfound d bound hd
      obtain ⟨hmem, hevidence⟩ := hfound d bound hd
      exact ⟨List.mem_cons_of_mem c hmem, hevidence⟩

/-- The rule on the initial state always answers. -/
theorem exists_runInitialState (p : Program) (v : Verdict) :
    ∃ v', runInitialState p v = pure v' ∧ Concludes p v initialState v' := by
  unfold runInitialState
  split
  · next hidle =>
    refine ⟨v, rfl, .nothing fun _ hnever => ?_⟩
    rw [NeverEntered] at hnever
    simpa [hnever] using hidle
  · next hrun =>
    rw [Bool.or_eq_true, not_or, Bool.not_eq_true, Bool.not_eq_true] at hrun
    exact ⟨_, rfl, .entered rfl hrun.1 hrun.2⟩

theorem concludes_concludeRepulsing (hopen : v.allKnown = false) {differences : Expr} {b : Envelope}
    (hchange : p.InfersNonpositive (-p.settledChange)) (hsize : p.InfersSize differences)
    (hb : p.Infers (-p.settledChange) b) (change : Expr) :
    Concludes p v repulsing (concludeRepulsing p change differences (-b.upper) v) := by
  unfold concludeRepulsing
  dsimp only
  split
  · exact .nothing nofun
  · next hbounded =>
    simp only [Bool.or_eq_true, Bool.not_eq_true', not_or, Bool.not_eq_false] at hbounded
    have hlingers : p.Lingers := ⟨hchange, differences, hsize, hbounded.2⟩
    split
    · next hdiverges =>
      simp only [Bool.and_eq_true, Bool.not_eq_true'] at hdiverges
      exact .diverges rfl hopen hlingers ⟨hlingers.2, b, hb, hbounded.1, hdiverges.1⟩
    · split
      · exact .lingers rfl hopen hlingers
      · exact .nothing nofun

section Rules

variable (hp : p.WellFormed) {d : Drift} (hd : d.martingale = p.settledChange)
include hp

theorem within_caseChange {c : Case} (hc : c ∈ p.cases p.guard) :
    (p.caseChange c).Within p.vars :=
  ((hp.proper_cases hp.guard c hc).2.sub hp.guard).within

theorem ensures_runGeometric :
    (runGeometric p v).Ensures (Reached p) (Concludes p v geometric) := by
  unfold runGeometric
  split
  · exact Attempt.ensures_pure (.nothing nofun)
  · next hopen =>
    apply (ensures_firstBelowZero fun c hc => (hp.proper_cases hp.guard c hc).2.within).bind
    intro found hfound
    cases found with
    | none => exact Attempt.ensures_pure (.nothing nofun)
    | some found =>
      obtain ⟨hc, hb⟩ := hfound found.1 found.2 rfl
      exact Attempt.ensures_pure (.exits rfl (by simpa using hopen) ⟨found.1, hc, hb⟩)

include hd

theorem ensures_runRanking :
    (runRanking p d v).Ensures (Reached p) (Concludes p v ranking) := by
  unfold runRanking
  rw [hd]
  split
  · exact Attempt.ensures_pure (.nothing nofun)
  · next hopen =>
    apply (ensures_infers hp.within_settledChange).bind
    intro b hb
    split
    · next hbelow =>
      exact Attempt.ensures_pure (.ranks rfl (by simpa using hopen) ⟨b, hb, hbelow⟩)
    · exact Attempt.ensures_pure (.nothing nofun)

theorem ensures_runSupermartingale :
    (runSupermartingale p d v).Ensures (Reached p) (Concludes p v supermartingale) := by
  unfold runSupermartingale
  rw [hd]
  split
  · exact Attempt.ensures_pure (.nothing nofun)
  · next hopen =>
    apply (ensures_isInvariant hp.within_settledChange).bind
    intro answer hanswer
    split
    · next hyes =>
      apply (ensures_firstBelowZero fun c hc => within_caseChange hp hc).bind
      intro found hfound
      cases found with
      | none => exact Attempt.ensures_pure (.nothing nofun)
      | some found =>
        obtain ⟨hc, hb⟩ := hfound found.1 found.2 rfl
        exact Attempt.ensures_pure
          (.decreases rfl (by simpa using hopen) ⟨hanswer hyes, found.1, hc, hb⟩)
    · exact Attempt.ensures_pure (.nothing nofun)

theorem ensures_runRepulsing :
    (runRepulsing p d v).Ensures (Reached p) (Concludes p v repulsing) := by
  have hwithin := hp.within_settledChange.neg
  unfold runRepulsing
  rw [hd]
  dsimp only
  split
  · exact Attempt.ensures_pure (.nothing nofun)
  · next hopen =>
    apply (ensures_isInvariant hwithin).bind
    intro answer hanswer
    split
    · next hyes =>
      apply (Attempt.Ensures.mapM fun c hc => ensures_infers (within_caseChange hp hc)).bind
      intro bs hbs
      split
      · exact Attempt.ensures_pure (.nothing nofun)
      · apply (ensures_drawing_reached (Attempt.Ensures.mapM fun b _ =>
          Attempt.ensures_answers (b.absoluteUpper >>= fun r => pure r.1))).bind
        intro sizes hsizes
        apply (ensures_drawing_reached (Attempt.ensures_answers (Expr.dominating sizes))).bind
        intro differences hdifferences
        apply (ensures_infers hwithin).bind
        intro b hb
        have hsize : p.InfersSize differences := ⟨bs, sizes, hbs, hsizes, hdifferences⟩
        exact Attempt.ensures_pure
          (concludes_concludeRepulsing (by simpa using hopen) (hanswer hyes) hsize hb _)
    · exact Attempt.ensures_pure (.nothing nofun)

theorem ensures_run {rule : ProofRule} (hrule : rule ≠ initialState) :
    (rule.run p d v).Ensures (Reached p) (Concludes p v rule) := by
  cases rule with
  | initialState => exact absurd rfl hrule
  | ranking => exact ensures_runRanking hp hd
  | supermartingale => exact ensures_runSupermartingale hp hd
  | repulsing => exact ensures_runRepulsing hp hd
  | geometric => exact ensures_runGeometric hp

theorem ensures_tryRule (rule : ProofRule) :
    (p.tryRule d rule v).Ensures (Reached p) (Concludes p v rule) := by
  by_cases hrule : rule = initialState
  · subst hrule
    obtain ⟨v', hrun, hconcludes⟩ := exists_runInitialState p v
    have htry : p.tryRule d initialState v = pure v' := tryRule_of_run rfl hrun
    rw [htry]
    exact Attempt.ensures_pure hconcludes
  · have hnothing : Concludes p v rule v := .nothing fun h => absurd h hrule
    unfold tryRule
    apply Attempt.ensures_ite
    · apply Attempt.ensures_tryCatch (ensures_run hp hd hrule)
      intro err
      apply Attempt.ensures_ite
      · exact Attempt.ensures_pure hnothing
      · exact Attempt.ensures_throw err
    · exact Attempt.ensures_pure hnothing

theorem ensures_tryRules (rules : List ProofRule) :
    (p.tryRules d rules v).Ensures (Reached p) (Runs p rules v) := by
  induction rules generalizing v with
  | nil => exact Attempt.ensures_pure (.done v)
  | cons rule rules ih =>
    apply (ensures_tryRule hp hd rule).bind
    intro v' hv'
    split
    · next hknown => exact Attempt.ensures_pure (.answered hv' hknown)
    · next hopen => exact ih.mono fun v'' hv'' => .next hv' (by simpa using hopen) hv''

end Rules

/-- A rule only answers what there is evidence for. -/
theorem Concludes.justifies {rule : ProofRule} {v' : Verdict} (hc : Concludes p v rule v')
    (h : p.Justifies v) : p.Justifies v' := by
  cases hc with
  | nothing => exact h
  | entered _ _ hentered => exact h.conclude_yes (Or.inl hentered) _
  | ranks _ _ hranks => exact h.conclude_yes (Or.inr (Or.inl hranks)) _
  | exits _ _ hexits => exact h.conclude_yes (Or.inr (Or.inr hexits)) _
  | decreases _ _ hdecreases =>
    exact (h.setAst (fun _ => Or.inr (Or.inr (Or.inr hdecreases))) (by simp)).addWitness _
  | diverges _ _ hlingers hdiverges => exact h.conclude_no hlingers hdiverges _
  | lingers _ _ hlingers => exact (h.setPast (by simp) fun _ => hlingers).addWitness _

theorem Runs.justifies {rules : List ProofRule} {v' : Verdict} (hr : Runs p rules v v')
    (h : p.Justifies v) : p.Justifies v' := by
  induction hr with
  | done => exact h
  | answered hc => exact hc.justifies h
  | next hc _ _ ih => exact ih (hc.justifies h)

end ProofRule

namespace Program

theorem ensures_drift_reached (hp : p.WellFormed) :
    p.drift.Ensures (Reached p) fun d => d.martingale = p.settledChange := by
  intro a ha
  exact ⟨ha.drift, (hp.ensures_drift a (hp.regular_of_reached ha)).2⟩

/-- A verdict is reached by the rules from the one that leaves both questions open. -/
theorem WellFormed.runs_verdictWith (hp : p.WellFormed) {rules : List ProofRule} {a : Analysis}
    (ha : a.Reached p) (h : ((p.verdictWith rules).run.run a).1 = .ok v) :
    ProofRule.Runs p rules .start v := by
  have hensures : (p.verdictWith rules).Ensures (Reached p) (ProofRule.Runs p rules .start) :=
    (ensures_drift_reached hp).bind fun d hd => ProofRule.ensures_tryRules hp hd rules
  exact (hensures a ha).2 v h

/-- There is evidence for every answer that any rules in any order give. -/
theorem WellFormed.justifies_verdictWith (hp : p.WellFormed) {rules : List ProofRule} {a : Analysis}
    (ha : a.Reached p) (h : ((p.verdictWith rules).run.run a).1 = .ok v) : p.Justifies v :=
  (hp.runs_verdictWith ha h).justifies justifies_start

end Program

end ProbLoop
