import ProbLoop.Proofs.Envelope.Counter
import ProbLoop.Proofs.Holds
import ProbLoop.Proofs.Rules
import ProbLoop.Proofs.Source.Meaning

/-!
# Verdicts that do not contradict themselves

The two answers of a verdict always fit together, and no witness is on the wrong side of both. A verdict
in which every witness agrees with the answers needs more. The rule on the initial state does not ask
whether the mean number of iterations was found to be infinite before, so it has to be tried before the
repulsing rule. And the bounds of the mean change of the guard must not cross, or else the guard is found
to fall and to rise at once.
-/

set_option autoImplicit false

namespace ProbLoop

open Program

variable {p : Program} {v v' : Verdict} {w : Witness}

theorem Answer.isKnown_eq_false {a : Answer} : a.isKnown = false ↔ a = .unknown := by
  cases a <;> decide

/-- An answer that is open or was given already is given. -/
theorem Answer.settle {a b : Answer} (h : a = .unknown ∨ a = b) :
    (if a.isKnown then a else b) = b := by
  rcases h with rfl | rfl
  · rfl
  · exact ite_self a

theorem Answer.isKnown_settle {a b : Answer} (h : b.isKnown = true) :
    (if a.isKnown then a else b).isKnown = true := by
  split
  · next ha => exact ha
  · exact h

namespace Verdict

section Fields

variable (v : Verdict) (a b : Answer) (w : Witness)

@[simp] theorem past_addWitness : (v.addWitness w).past = v.past := rfl

@[simp] theorem ast_addWitness : (v.addWitness w).ast = v.ast := rfl

@[simp] theorem witnesses_addWitness : (v.addWitness w).witnesses = v.witnesses ++ [w] := rfl

@[simp] theorem past_setPast :
    (v.setPast a).2.past = if v.past.isKnown then v.past else a := by
  unfold setPast
  split <;> rfl

@[simp] theorem ast_setPast : (v.setPast a).2.ast = v.ast := by
  unfold setPast
  split <;> rfl

@[simp] theorem witnesses_setPast : (v.setPast a).2.witnesses = v.witnesses := by
  unfold setPast
  split <;> rfl

@[simp] theorem past_setAst : (v.setAst a).2.past = v.past := by
  unfold setAst
  split <;> rfl

@[simp] theorem ast_setAst : (v.setAst a).2.ast = if v.ast.isKnown then v.ast else a := by
  unfold setAst
  split <;> rfl

@[simp] theorem witnesses_setAst : (v.setAst a).2.witnesses = v.witnesses := by
  unfold setAst
  split <;> rfl

@[simp] theorem past_conclude :
    (v.conclude a b w).past = if v.past.isKnown then v.past else a := by
  simp [conclude]

@[simp] theorem ast_conclude :
    (v.conclude a b w).ast = if v.ast.isKnown then v.ast else b := by
  simp [conclude]

@[simp] theorem witnesses_conclude : (v.conclude a b w).witnesses = v.witnesses ++ [w] := by
  simp [conclude]

end Fields

/-- A verdict that concludes both answers is not open. -/
theorem allKnown_conclude {a b : Answer} (ha : a.isKnown = true) (hb : b.isKnown = true) :
    (v.conclude a b w).allKnown ≠ false := by
  simp [allKnown, Answer.isKnown_settle ha, Answer.isKnown_settle hb]

theorem forall_mem_witnesses {P : Witness → Prop} (h : v'.witnesses = v.witnesses ++ [w])
    (hold : ∀ u ∈ v.witnesses, P u) (hnew : P w) : ∀ u ∈ v'.witnesses, P u := by
  rw [h, List.forall_mem_append]
  exact ⟨hold, List.forall_mem_singleton.mpr hnew⟩

/-- The answers fit together, and no witness speaks against both. -/
structure Agrees (v : Verdict) : Prop where
  ast_of_past : v.past = .yes → v.ast = .yes
  past_of_ast : v.ast = .no → v.past = .no
  ast_of_mem : ∀ w ∈ v.witnesses, w.kind = .past ∨ w.kind = .ast → v.ast = .yes
  past_of_mem : ∀ w ∈ v.witnesses, w.kind = .notPast ∨ w.kind = .notAst → v.past = .no

/-- The answers fit together, and every witness agrees with them. -/
structure Consistent (v : Verdict) : Prop extends Agrees v where
  past_of_mem_past : ∀ w ∈ v.witnesses, w.kind = .past → v.past = .yes
  ast_of_mem_notAst : ∀ w ∈ v.witnesses, w.kind = .notAst → v.ast = .no

theorem consistent_start : start.Consistent := by
  refine ⟨⟨?_, ?_, ?_, ?_⟩, ?_, ?_⟩ <;> simp [start]

namespace Agrees

/-- A verdict that is still open does not say that the loop terminates in finite mean. -/
theorem past_of_open (h : v.Agrees) (hopen : v.allKnown = false) :
    v.past = .unknown ∨ v.past = .no := by
  cases hpast : v.past with
  | yes => simp [allKnown, hpast, h.ast_of_past hpast, Answer.isKnown] at hopen
  | no => exact Or.inr rfl
  | unknown => exact Or.inl rfl

/-- A verdict that is still open does not say that the loop may run forever. -/
theorem ast_of_open (h : v.Agrees) (hopen : v.allKnown = false) :
    v.ast = .unknown ∨ v.ast = .yes := by
  cases hast : v.ast with
  | yes => exact Or.inr rfl
  | no => simp [allKnown, hast, h.past_of_ast hast, Answer.isKnown] at hopen
  | unknown => exact Or.inl rfl

theorem affirm (h : v.Agrees) (hast : v'.ast = .yes) (hpast : v.past = .no → v'.past = .no)
    (hwitnesses : v'.witnesses = v.witnesses ++ [w]) (hw : w.kind = .past ∨ w.kind = .ast) :
    v'.Agrees where
  ast_of_past _ := hast
  past_of_ast hno := absurd (hast.symm.trans hno) (by decide)
  ast_of_mem _ _ _ := hast
  past_of_mem := forall_mem_witnesses hwitnesses
    (fun u hu hkind => hpast (h.past_of_mem u hu hkind))
    (by rcases hw with hw | hw <;> simp [hw])

theorem deny (h : v.Agrees) (hpast : v'.past = .no) (hast : v.ast = .yes → v'.ast = .yes)
    (hwitnesses : v'.witnesses = v.witnesses ++ [w]) (hw : w.kind = .notPast ∨ w.kind = .notAst) :
    v'.Agrees where
  ast_of_past hyes := absurd (hpast.symm.trans hyes) (by decide)
  past_of_ast _ := hpast
  ast_of_mem := forall_mem_witnesses hwitnesses
    (fun u hu hkind => hast (h.ast_of_mem u hu hkind))
    (by rcases hw with hw | hw <;> simp [hw])
  past_of_mem _ _ _ := hpast

theorem conclude_yes (h : v.Agrees) (hopen : v.allKnown = false) (hw : w.kind = .past) :
    (v.conclude .yes .yes w).Agrees := by
  refine h.affirm ?_ ?_ (witnesses_conclude ..) (Or.inl hw)
  · rw [ast_conclude, Answer.settle (h.ast_of_open hopen)]
  · intro hno
    rw [past_conclude, hno]
    rfl

theorem conclude_no (h : v.Agrees) (hopen : v.allKnown = false) (hw : w.kind = .notAst) :
    (v.conclude .no .no w).Agrees := by
  refine h.deny ?_ ?_ (witnesses_conclude ..) (Or.inr hw)
  · rw [past_conclude, Answer.settle (h.past_of_open hopen)]
  · intro hyes
    rw [ast_conclude, hyes]
    rfl

theorem setAst_yes (h : v.Agrees) (hast : v.ast = .unknown) (hw : w.kind = .ast) :
    ((v.setAst .yes).2.addWitness w).Agrees :=
  h.affirm (by simp [hast, Answer.isKnown]) (by simp) (by simp) (Or.inr hw)

theorem setPast_no (h : v.Agrees) (hopen : v.allKnown = false) (hw : w.kind = .notPast) :
    ((v.setPast .no).2.addWitness w).Agrees :=
  h.deny (by simp [Answer.settle (h.past_of_open hopen)]) (by simp) (by simp) (Or.inl hw)

end Agrees

namespace Consistent

/-- A verdict that is still open has no witness that settles both answers. -/
theorem kind_ne_of_open (h : v.Consistent) (hopen : v.allKnown = false) :
    ∀ w ∈ v.witnesses, w.kind ≠ .past ∧ w.kind ≠ .notAst := by
  intro w hw
  constructor
  · intro hkind
    have hyes := h.past_of_mem_past w hw hkind
    rcases h.past_of_open hopen with hpast | hpast <;> simp [hpast] at hyes
  · intro hkind
    have hno := h.ast_of_mem_notAst w hw hkind
    rcases h.ast_of_open hopen with hast | hast <;> simp [hast] at hno

/-- Only the new witness has to be looked at when an open verdict is changed. -/
theorem of_open (h : v.Consistent) (hopen : v.allKnown = false) (h' : v'.Agrees)
    (hwitnesses : v'.witnesses = v.witnesses ++ [w]) (hpast : w.kind = .past → v'.past = .yes)
    (hast : w.kind = .notAst → v'.ast = .no) : v'.Consistent where
  toAgrees := h'
  past_of_mem_past := forall_mem_witnesses hwitnesses
    (fun u hu hkind => absurd hkind (h.kind_ne_of_open hopen u hu).1) hpast
  ast_of_mem_notAst := forall_mem_witnesses hwitnesses
    (fun u hu hkind => absurd hkind (h.kind_ne_of_open hopen u hu).2) hast

theorem conclude_yes (h : v.Consistent) (hpast : v.past = .unknown) (hw : w.kind = .past) :
    (v.conclude .yes .yes w).Consistent := by
  have hopen : v.allKnown = false := by simp [allKnown, hpast, Answer.isKnown]
  exact h.of_open hopen (h.toAgrees.conclude_yes hopen hw) (witnesses_conclude ..)
    (fun _ => by simp [hpast, Answer.isKnown]) (by simp [hw])

theorem conclude_no (h : v.Consistent) (hast : v.ast = .unknown) (hw : w.kind = .notAst) :
    (v.conclude .no .no w).Consistent := by
  have hopen : v.allKnown = false := by simp [allKnown, hast, Answer.isKnown]
  exact h.of_open hopen (h.toAgrees.conclude_no hopen hw) (witnesses_conclude ..)
    (by simp [hw]) (fun _ => by simp [hast, Answer.isKnown])

theorem setAst_yes (h : v.Consistent) (hast : v.ast = .unknown) (hw : w.kind = .ast) :
    ((v.setAst .yes).2.addWitness w).Consistent := by
  have hopen : v.allKnown = false := by simp [allKnown, hast, Answer.isKnown]
  exact h.of_open (w := w) hopen (h.toAgrees.setAst_yes hast hw) (by simp) (by simp [hw])
    (by simp [hw])

theorem setPast_no (h : v.Consistent) (hopen : v.allKnown = false) (hw : w.kind = .notPast) :
    ((v.setPast .no).2.addWitness w).Consistent :=
  h.of_open (w := w) hopen (h.toAgrees.setPast_no hopen hw) (by simp) (by simp [hw])
    (by simp [hw])

end Consistent

end Verdict

namespace ProofRule

variable {rule : ProofRule} {rules rest : List ProofRule}

theorem Concludes.agrees (hc : Concludes p v rule v') (h : v.Agrees) : v'.Agrees := by
  cases hc with
  | nothing => exact h
  | entered hw hopen => exact h.conclude_yes hopen hw
  | ranks hw hopen => exact h.conclude_yes (by simp [Verdict.allKnown, hopen]) hw
  | exits hw hopen => exact h.conclude_yes (by simp [Verdict.allKnown, hopen]) hw
  | decreases hw hopen => exact h.setAst_yes (Answer.isKnown_eq_false.mp hopen) hw
  | diverges hw hopen => exact h.conclude_no hopen hw
  | lingers hw hopen => exact h.setPast_no hopen hw

/-- The answers fit together, whatever the rules. -/
theorem Runs.agrees (hr : Runs p rules v v') (h : v.Agrees) : v'.Agrees := by
  induction hr with
  | done => exact h
  | answered hc => exact hc.agrees h
  | next hc _ _ ih => exact ih (hc.agrees h)

/-- A rule adds a witness that agrees with the answers, unless the rule on the initial state comes too
late or the guard was found to fall before it is found to rise. -/
theorem Concludes.consistent (hc : Concludes p v rule v') (h : v.Consistent)
    (hpast : rule = initialState → p.NeverEntered → v.past ≠ .no)
    (hast : v.allKnown = false → p.Lingers → p.Diverges → v.ast ≠ .yes) : v'.Consistent := by
  cases hc with
  | nothing => exact h
  | entered hw hopen hnever =>
    -- This rule does not ask whether the question of PAST is open.
    exact h.conclude_yes ((h.past_of_open hopen).resolve_right (hpast rfl hnever)) hw
  | ranks hw hopen => exact h.conclude_yes (Answer.isKnown_eq_false.mp hopen) hw
  | exits hw hopen => exact h.conclude_yes (Answer.isKnown_eq_false.mp hopen) hw
  | decreases hw hopen => exact h.setAst_yes (Answer.isKnown_eq_false.mp hopen) hw
  | diverges hw hopen hlingers hdiverges =>
    exact h.conclude_no ((h.ast_of_open hopen).resolve_right (hast hopen hlingers hdiverges)) hw
  | lingers hw hopen => exact h.setPast_no hopen hw

/-- If the loop is never entered, the rule on the initial state is tried before the repulsing rule. -/
def InOrder (p : Program) (rules : List ProofRule) : Prop :=
  p.NeverEntered → initialState ∈ rules → repulsing ∉ rules.takeWhile (· ≠ initialState)

theorem InOrder.tail (h : InOrder p (rule :: rest)) (hrule : p.NeverEntered → rule ≠ initialState) :
    InOrder p rest := by
  intro hnever hmem hin
  have hnotin := h hnever (List.mem_cons_of_mem _ hmem)
  rw [List.takeWhile_cons_of_pos (by simpa using hrule hnever)] at hnotin
  exact hnotin (List.mem_cons_of_mem _ hin)

theorem InOrder.ne_repulsing (h : InOrder p (rule :: rest)) (hnever : p.NeverEntered)
    (hmem : initialState ∈ rest) (hrule : rule ≠ initialState) : rule ≠ repulsing := by
  rintro rfl
  have hnotin := h hnever (List.mem_cons_of_mem _ hmem)
  rw [List.takeWhile_cons_of_pos (by decide)] at hnotin
  exact hnotin List.mem_cons_self

/-- The rule on the initial state does not leave a verdict open if the loop is never entered. -/
theorem Concludes.ne_initialState (hc : Concludes p v rule v') (hopen : v'.allKnown = false)
    (hnever : p.NeverEntered) : rule ≠ initialState := by
  rintro rfl
  cases hc with
  | nothing hidle => simp [hidle rfl hnever] at hopen
  | entered => exact Verdict.allKnown_conclude rfl rfl hopen

/-- Only the repulsing rule finds the mean number of iterations to be infinite. -/
theorem Concludes.past_eq_no (hc : Concludes p v rule v') (hrule : rule ≠ repulsing)
    (hno : v'.past = .no) : v.past = .no := by
  cases hc with
  | nothing => exact hno
  | entered =>
    rw [Verdict.past_conclude] at hno
    split at hno
    · exact hno
    · simp at hno
  | ranks hw hopen => simp [hopen] at hno
  | exits hw hopen => simp [hopen] at hno
  | decreases => rwa [Verdict.past_addWitness, Verdict.past_setAst] at hno
  | diverges => exact absurd rfl hrule
  | lingers => exact absurd rfl hrule

/-- A verdict that is still open says that the loop terminates almost surely only if the guard was found
not to increase. -/
theorem Concludes.decreases_of_open (hc : Concludes p v rule v') (hopen' : v'.allKnown = false)
    (h : v.allKnown = false → v.ast = .yes → p.Decreases) (hyes : v'.ast = .yes) : p.Decreases := by
  cases hc with
  | nothing => exact h hopen' hyes
  | entered => exact absurd hopen' (Verdict.allKnown_conclude rfl rfl)
  | ranks => exact absurd hopen' (Verdict.allKnown_conclude rfl rfl)
  | exits => exact absurd hopen' (Verdict.allKnown_conclude rfl rfl)
  | decreases _ _ hdecreases => exact hdecreases
  | diverges => exact absurd hopen' (Verdict.allKnown_conclude rfl rfl)
  | lingers _ hopen => exact h hopen (by simpa using hyes)

/-- What is known of a verdict when the remaining rules are tried. -/
structure Ready (p : Program) (rules : List ProofRule) (v : Verdict) : Prop where
  inOrder : InOrder p rules
  past_ne_no : p.NeverEntered → initialState ∈ rules → v.past ≠ .no
  decreases : v.allKnown = false → v.ast = .yes → p.Decreases

theorem ready_start (h : InOrder p rules) : Ready p rules .start where
  inOrder := h
  past_ne_no _ _ := by simp [Verdict.start]
  decreases _ := by simp [Verdict.start]

theorem Concludes.ready (hc : Concludes p v rule v') (hopen : v'.allKnown = false)
    (h : Ready p (rule :: rest) v) : Ready p rest v' where
  inOrder := h.inOrder.tail (hc.ne_initialState hopen)
  past_ne_no hnever hmem hno :=
    have hrule := h.inOrder.ne_repulsing hnever hmem (hc.ne_initialState hopen hnever)
    h.past_ne_no hnever (List.mem_cons_of_mem _ hmem) (hc.past_eq_no hrule hno)
  decreases _ := hc.decreases_of_open hopen h.decreases

/-- The witnesses of a run of the rules agree with its answers, if the rules are in order and the guard is
not found both to fall and to rise. -/
theorem Runs.consistent (hr : Runs p rules v v') (h : v.Consistent) (hready : Ready p rules v)
    (hcross : p.Decreases → p.Lingers → ¬p.Diverges) : v'.Consistent := by
  have hstep : ∀ {rule rest v v'}, Concludes p v rule v' → v.Consistent →
      Ready p (rule :: rest) v → v'.Consistent := by
    intro rule rest v v' hc h hready
    apply hc.consistent h
    · rintro rfl hnever
      exact hready.past_ne_no hnever List.mem_cons_self
    · intro hopen hlingers hdiverges hyes
      exact hcross (hready.decreases hopen hyes) hlingers hdiverges
  -- A run goes on only while a question is open, and then the next rule finds its verdict ready.
  induction hr with
  | done => exact h
  | answered hc => exact hstep hc h hready
  | next hc hopen _ ih => exact ih (hstep hc h hready) (hc.ready hopen hready)

end ProofRule

namespace Program

/-- The mean change of the guard and its negation are not both found to be below zero. -/
def Uncrossed (p : Program) : Prop :=
  ¬(p.Ranks ∧ ∃ b, p.Infers (-p.settledChange) b ∧ ProofRule.isBelowZero b.upper = true)

/-- The guard is not found to fall and to rise, if the bounds do not cross. -/
theorem WellFormed.not_diverges_of_decreases (hp : p.WellFormed) (h : p.Uncrossed)
    (hdecreases : p.Decreases) (hlingers : p.Lingers) : ¬p.Diverges := by
  rcases hdecreases.1 with ⟨hcounter, -⟩ | hfalls
  · exact hp.not_diverges_of_counting (Expr.counting_of_freeSymbols hcounter) hdecreases.1
  · rcases hlingers.1 with ⟨hcounter, -⟩ | hrises
    · have hcounting := Expr.all_neg (Expr.counting_of_freeSymbols hcounter)
      rw [Expr.neg_neg_of_ordered hp.within_settledChange.toOrdered] at hcounting
      exact hp.not_diverges_of_counting hcounting hdecreases.1
    · exact absurd ⟨hfalls, hrises⟩ h

/-- The answers of a verdict fit together. If the rule on the initial state is not tried too late and the
bounds of the mean change do not cross, every witness agrees with them. -/
theorem verdictWith_consistent {text : String} (h : parse text = .ok p) {rules : List ProofRule}
    {supply : Supply} (hv : ((p.verdictWith rules).run.run (.start supply)).1 = .ok v) :
    v.Agrees ∧ (ProofRule.InOrder p rules → p.Uncrossed → v.Consistent) := by
  have hp := wellFormed_of_parse h
  have hruns := hp.runs_verdictWith (.start supply) hv
  refine ⟨hruns.agrees Verdict.consistent_start.toAgrees, fun hrules huncrossed => ?_⟩
  exact hruns.consistent Verdict.consistent_start (ProofRule.ready_start hrules)
    (hp.not_diverges_of_decreases huncrossed)

/-- A loop that is never entered and whose guard never changes in the mean. -/
def barred : Program :=
  ⟨[⟨"x", .deterministic (.const 0), .deterministic (.const 0)⟩], .ofSymbol (.var "x")⟩

theorem parse_barred : parse "x = 0\nwhile x > 0:\n    x = 0\nend\n" = .ok barred := by
  decide +kernel

/-- If the repulsing rule is tried before the rule on the initial state, the report on that loop says that
the mean number of iterations is infinite and has a witness that it is finite. -/
theorem barred_contradicts :
    parse "x = 0\nwhile x > 0:\n    x = 0\nend\n" = .ok barred ∧
      ∃ v, ((barred.verdictWith [.repulsing, .initialState]).run.run (.start ⟨0⟩)).1 = .ok v ∧
        v.past = .no ∧ (∃ w ∈ v.witnesses, w.kind = .past) ∧ ¬v.Consistent := by
  obtain ⟨v, hv, hpast, hkinds⟩ :
      ∃ v, ((barred.verdictWith [.repulsing, .initialState]).run.run (.start ⟨0⟩)).1 = .ok v ∧
        v.past = .no ∧ v.witnesses.map (·.kind) = [.notPast, .past] := ⟨_, by cbv, rfl, rfl⟩
  have hmem : WitnessKind.past ∈ v.witnesses.map (·.kind) := by simp [hkinds]
  obtain ⟨w, hw, hkind⟩ := List.mem_map.mp hmem
  refine ⟨parse_barred, v, hv, hpast, ⟨w, hw, hkind⟩, fun h => ?_⟩
  have hyes := h.past_of_mem_past w hw hkind
  rw [hpast] at hyes
  cases hyes

theorem uncrossed_barred : barred.Uncrossed := by
  rintro ⟨⟨b, hb, hbelow⟩, -⟩
  have hchange : barred.settledChange = .const 0 := by cbv
  rw [hchange, infers_const] at hb
  subst hb
  exact absurd hbelow (by decide)

/-- In the other order every witness agrees with the answers. -/
theorem barred_consistent :
    ∃ v, ((barred.verdictWith [.initialState, .repulsing]).run.run (.start ⟨0⟩)).1 = .ok v ∧
      v.past = .yes ∧ v.Consistent := by
  obtain ⟨v, hv, hpast⟩ :
      ∃ v, ((barred.verdictWith [.initialState, .repulsing]).run.run (.start ⟨0⟩)).1 = .ok v ∧
        v.past = .yes := ⟨_, by cbv, rfl⟩
  exact ⟨v, hv, hpast,
    (verdictWith_consistent parse_barred hv).2 (fun _ _ => by decide) uncrossed_barred⟩

end Program

end ProbLoop
