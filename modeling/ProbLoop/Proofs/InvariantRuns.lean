import ProbLoop.Proofs.DrawnBounds
import ProbLoop.Proofs.Holds

/-!
# Eventual invariants in runs

The answer about an eventual invariant is as good as the bounds that it rests on: if these hold in the long
run, so does what is answered. An upper bound that dominates a negative constant downward is negative in
the end, and a lower bound that dominates a positive one upward is positive.
-/

set_option autoImplicit false

namespace ProbLoop

open Analysis Filter

namespace Program

variable {p : Program} {e : Expr}

/-- What is answered about an expression that mentions more than the counter is read off its envelope. -/
theorem exists_envelope_of_isInvariant (he : e.freeSymbols.all Symbol.isCounter = false)
    {a : Analysis} {answer : Answer} (h : ((p.isInvariant e).run.run a).1 = .ok answer)
    (hknown : answer ≠ .unknown) :
    ∃ b, ((p.envelopeOf e).run.run a).1 = .ok b ∧ answerOf b = answer := by
  rw [isInvariant, he, if_neg Bool.false_ne_true, Attempt.run_tryCatch, ExceptT.run_bind,
    StateT.run_bind] at h
  cases hrun : (p.envelopeOf e).run.run a with
  | mk r a' =>
    rw [hrun] at h
    cases r with
    | ok b => exact ⟨b, rfl, Except.ok.inj h⟩
    | error err =>
      -- After a failure nothing is known.
      replace h : ((if err.isUndecided then pure .unknown else throw err :
        Attempt Analysis Answer).run.run a').1 = .ok answer := h
      split at h
      · exact absurd (Except.ok.inj h).symm hknown
      · cases h

theorem answerOf_eq_yes {b : Envelope} (h : answerOf b = .yes) :
    b.upper.dominates (.const (-1)) .down = true := by
  unfold answerOf at h
  split at h
  · assumption
  · split at h <;> cases h

theorem answerOf_eq_no {b : Envelope} (h : answerOf b = .no) :
    b.lower.dominates (.const 1) .up = true := by
  unfold answerOf at h
  split at h
  · cases h
  · split at h
    · assumption
    · cases h

/-- A bound that holds and is negative in the end makes the expression negative. -/
theorem HoldsAbove.nonpositive {upper : Expr} (h : p.HoldsAbove upper e) (hupper : upper.Canonical)
    (hneg : upper.dominates (.const (-1)) .down = true) :
    ∃ N, ∀ n x, N ≤ n → p.RealReaches n x → e.realValue n x ≤ 0 := by
  obtain ⟨σ, hσ, N, hbound⟩ := h
  obtain ⟨ε, hε, hle⟩ := Expr.eventually_le_of_dominates hupper hσ (by decide) hneg
  obtain ⟨M, hM⟩ := eventually_atTop.mp hle
  refine ⟨max N M, fun n x hn hx => ?_⟩
  have hvalue := hbound n x (le_of_max_le_left hn) hx
  have hsmall := hM n (le_of_max_le_right hn)
  linarith

/-- A bound that holds and is positive in the end makes the expression positive. -/
theorem HoldsBelow.positive {lower : Expr} (h : p.HoldsBelow lower e) (hlower : lower.Canonical)
    (hpos : lower.dominates (.const 1) .up = true) :
    ∃ N, ∀ n x, N ≤ n → p.RealReaches n x → 0 < e.realValue n x := by
  obtain ⟨σ, hσ, N, hbound⟩ := h
  obtain ⟨ε, hε, hge⟩ := Expr.eventually_ge_of_dominates hlower hσ one_pos hpos
  obtain ⟨M, hM⟩ := eventually_atTop.mp hge
  refine ⟨max N M, fun n x hn hx => ?_⟩
  have hvalue := hbound n x (le_of_max_le_left hn) hx
  have hlarge := hM n (le_of_max_le_right hn)
  linarith

end Program

namespace Session

/-- If the bounds of an expression with variables hold in the long run, then so does what is answered about
it: with yes it is at most zero in all runs from some iteration on, and with no it is positive. -/
theorem invariant_of_bounds (p : Program) (supply : Supply) (calls : List Call) {text : String}
    (h : Program.parse text = .ok ((start p supply).after calls).program) {e : Expr}
    (he : e.Within ((start p supply).after calls).program.vars)
    (hvars : e.freeSymbols.all Symbol.isCounter = false)
    (hbounds : ∀ b, (((start p supply).after calls).ask fun p => p.envelopeOf e).1 = .ok b →
      ((start p supply).after calls).program.HoldsAbove b.upper e ∧
        ((start p supply).after calls).program.HoldsBelow b.lower e) :
    ((((start p supply).after calls).ask fun p => p.isInvariant e).1 = .ok .yes →
      ∃ N, ∀ n x, N ≤ n → ((start p supply).after calls).program.RealReaches n x →
        e.realValue n x ≤ 0) ∧
    ((((start p supply).after calls).ask fun p => p.isInvariant e).1 = .ok .no →
      ∃ N, ∀ n x, N ≤ n → ((start p supply).after calls).program.RealReaches n x →
        0 < e.realValue n x) := by
  have hw := Program.wellFormed_of_parse h
  have ha := knows_after Program.establishes_within p supply calls
  generalize (start p supply).after calls = session at he hbounds hw ha
  -- The envelope that the answer is read off is the one that is answered.
  have hread : ∀ answer, (session.ask fun p => p.isInvariant e).1 = .ok answer →
      answer ≠ .unknown → ∃ b : Envelope, b.Within ∧ session.program.HoldsAbove b.upper e ∧
        session.program.HoldsBelow b.lower e ∧ Program.answerOf b = answer := by
    intro answer hanswer hknown
    obtain ⟨b, hb, hof⟩ := Program.exists_envelope_of_isInvariant hvars hanswer hknown
    exact ⟨b, (hw.ensures_envelopeOf he session.analysis ha).2 b hb, (hbounds b hb).1,
      (hbounds b hb).2, hof⟩
  constructor
  · intro hyes
    obtain ⟨b, hwithin, habove, -, hof⟩ := hread _ hyes (by decide)
    exact habove.nonpositive hwithin.upper.canonical (Program.answerOf_eq_yes hof)
  · intro hno
    obtain ⟨b, hwithin, -, hbelow, hof⟩ := hread _ hno (by decide)
    exact hbelow.positive hwithin.lower.canonical (Program.answerOf_eq_no hof)

/-- The loop with two readers of a draw `u` from the numbers `-1` to `2` keeps `u ^ 2 - u - 6` at or below
zero in the long run, as is answered. -/
theorem entangled_invariant :
    let e : Expr := (Expr.ofSymbol (.var "u")).pow 2 - .ofSymbol (.var "u") - .const 6
    let s := (start Program.entangled ⟨0⟩).after [.envelope (.ofSymbol (.var "x"))]
    (s.ask fun p => p.isInvariant e).1 = .ok .yes ∧
      ∃ N, ∀ n x, N ≤ n → Program.entangled.RealReaches n x → e.realValue n x ≤ 0 := by
  intro e s
  have hover : e.Over Program.entangled.drawnVars := by
    have hu : (Expr.ofSymbol (.var "u")).Over Program.entangled.drawnVars :=
      Expr.over_ofSymbol (by decide)
    exact ((hu.pow 2).sub hu).sub (Expr.over_const 6)
  have hbounds : ∀ b, (s.ask fun p => p.envelopeOf e).1 = .ok b →
      Program.entangled.HoldsAbove b.upper e ∧ Program.entangled.HoldsBelow b.lower e := fun b hb =>
    (Program.wellFormed_of_parse Program.parse_entangled).holds_of_drawn
      (knows_after Program.establishes_range Program.entangled ⟨0⟩
        [.envelope (.ofSymbol (.var "x"))]) hover hb
  have hwithin : e.Within Program.entangled.vars :=
    (hover.mono fun _ hs => (List.mem_filter.mp hs).1).within
  have hvars : e.freeSymbols.all Symbol.isCounter = false := by cbv
  have hanswer : (s.ask fun p => p.isInvariant e).1 = .ok .yes := by cbv
  exact ⟨hanswer, (invariant_of_bounds Program.entangled ⟨0⟩ [.envelope (.ofSymbol (.var "x"))]
    Program.parse_entangled hwithin hvars hbounds).1 hanswer⟩

/-- That `2 - y` is at most zero in the long run is answered of the variable that is drawn anew from `3`
and `1`, and it does not hold. -/
theorem redrawn_invariant_fails :
    let e : Expr := .const 2 - .ofSymbol (.var "y")
    Program.parse "y = 1\nwhile y > 0:\n    y = 3 @ 1/2; 1\nend\n" = .ok Program.redrawn ∧
      ((start Program.redrawn ⟨0⟩).ask fun p => p.isInvariant e).1 = .ok .yes ∧
        ¬∃ N, ∀ n x, N ≤ n → Program.redrawn.RealReaches n x → e.realValue n x ≤ 0 := by
  intro e
  refine ⟨Program.parse_redrawn, by cbv, ?_⟩
  rintro ⟨N, hholds⟩
  have hle := hholds N _ le_rfl (redrawn_stays N)
  rw [Expr.realValue_cast, Expr.value_sub, Expr.value_const, Expr.value_ofSymbol] at hle
  exact absurd hle (by norm_num [Symbol.value])

end Session

end ProbLoop
