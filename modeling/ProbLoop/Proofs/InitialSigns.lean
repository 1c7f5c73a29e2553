import Mathlib
import ProbLoop.Proofs.Expr.RealPolarity
import ProbLoop.Proofs.Program.Initial
import ProbLoop.Proofs.Program.RealRun
import ProbLoop.Proofs.Source.Meaning
import ProbLoop.ProofRule.Run

/-!
# Signs in initial states

Initial values are real numbers, chosen independently of each other. The signs that are found at the
corners of the box of initial values allow the values at all of its real points, since these are limits
of rational ones. So a loop whose guard is not positive at any corner is never entered.
-/

set_option autoImplicit false

namespace ProbLoop

namespace Program

variable {p : Program} {e : Expr} {x : RealValuation}

theorem WellFormed.initialPolarity_allows_limit (hp : p.WellFormed) (he : e.Canonical)
    (hx : ∀ d ∈ p.declarations, d.initial.RealAssigns x (x d.symbol)) :
    (0 < e.realValue 0 x → (p.initialPolarity e).maybePositive = true) ∧
      (e.realValue 0 x < 0 → (p.initialPolarity e).maybeNegative = true) := by
  obtain ⟨g, hg⟩ := exists_approach x
  have hconstants : Approach (fun s => True ∧ s ∉ p.vars) g x := fun s _ => hg s trivial
  obtain ⟨u, hu, happroach⟩ := hp.exists_isInitial_approach hconstants (fun _ => trivial) hx
  exact Polarity.allows_limit (fun k => hp.initialPolarity_allows (hu k).1 he)
    (Expr.tendsto_value (fun _ _ _ _ => Or.inr trivial) happroach 0)

/-- The rule on the initial state changes a verdict only if the guard cannot be positive. -/
theorem initialPolarity_of_run {drift : Drift} {v v' : Verdict} {a : Analysis}
    (h : ((ProofRule.initialState.run p drift v).run.run a).1 = .ok v') (hne : v' ≠ v) :
    (p.initialPolarity p.guard).maybePositive = false := by
  rw [ProofRule.run, ProofRule.runInitialState] at h
  split at h
  · exact absurd (Except.ok.inj h).symm hne
  · next hopen =>
    rw [Bool.or_eq_true, not_or] at hopen
    exact Bool.eq_false_iff.mpr hopen.2

/-- In every initial state of a program that was read, an expression is positive or negative only if its
initial polarity allows it. So the guard is not positive in any of them if the rule on the initial state
draws its conclusion. -/
theorem initialPolarity_allows_realValue {text : String} (h : Program.parse text = .ok p)
    (he : e.Built) (hx : ∀ d ∈ p.declarations, d.initial.RealAssigns x (x d.symbol)) :
    (0 < e.realValue 0 x → (p.initialPolarity e).maybePositive = true) ∧
      (e.realValue 0 x < 0 → (p.initialPolarity e).maybeNegative = true) ∧
      ∀ (drift : Drift) (v v' : Verdict) (a : Analysis),
        ((ProofRule.initialState.run p drift v).run.run a).1 = .ok v' → v' ≠ v →
          p.guard.realValue 0 x ≤ 0 := by
  have hp := wellFormed_of_parse h
  obtain ⟨hpos, hneg⟩ := hp.initialPolarity_allows_limit he.canonical hx
  refine ⟨hpos, hneg, fun drift v v' a hrun hne => not_lt.mp fun hguard => ?_⟩
  have hmaybe := (hp.initialPolarity_allows_limit hp.guard.canonical hx).1 hguard
  rw [initialPolarity_of_run hrun hne] at hmaybe
  exact Bool.false_ne_true hmaybe

/-- A loop whose guard is at most zero on the box of its initial values, and zero at a corner. -/
def capped : Program :=
  ⟨[⟨"x", .random (.uniform (-2) 1), .deterministic (.ofSymbol (.var "x") + .const 1)⟩,
    ⟨"y", .branches [(.const 1, 1 / 2), (.const 3, 1 / 2)], .deterministic (.ofSymbol (.var "y"))⟩],
    (Expr.ofSymbol (.var "x")).pow 2 * .ofSymbol (.var "y") - .const 12⟩

theorem parse_capped : Program.parse
    "x = RV(uniform, -2, 1)\ny = 1 @ 1/2; 3\nwhile x**2*y > 12:\n    x = x + 1\n    y = y\nend\n" =
      .ok capped := by
  decide +kernel

/-- In an initial state with an irrational value that loop is not entered, and `x * 2 ^ n` has the sign
that its initial polarity allows. -/
theorem initialPolarity_capped :
    ∃ (x : RealValuation) (v : Verdict),
      (∀ d ∈ capped.declarations, d.initial.RealAssigns x (x d.symbol)) ∧
      ((ProofRule.initialState.run capped ⟨.zero, .zero⟩ .start).run.run (.start ⟨0⟩)).1 = .ok v ∧
      v.past = .yes ∧ v.ast = .yes ∧ capped.guard.realValue 0 x ≤ 0 ∧
      (Expr.ofSymbol (.var "x") * .exponential 2).realValue 0 x < 0 ∧
      (capped.initialPolarity (.ofSymbol (.var "x") * .exponential 2)).maybeNegative = true := by
  let x : RealValuation := fun s => if s = .var "x" then -√2 else 1
  let v := Verdict.start.conclude .yes .yes
    (Conclusion.neverEntered capped.guard (capped.initialValue capped.guard))
  have hroot : √2 ≤ 2 := Real.sqrt_le_iff.mpr (by norm_num)
  have hx : (Update.random (.uniform (-2) 1)).RealAssigns x (x (.var "x")) := by
    change ((-2 : Rat) : ℝ) ≤ -√2 ∧ -√2 ≤ ((1 : Rat) : ℝ)
    push_cast
    constructor <;> linarith [Real.sqrt_nonneg 2]
  have hy : (Update.branches [(.const 1, 1 / 2), (.const 3, 1 / 2)]).RealAssigns x
      (x (.var "y")) := by
    refine ⟨_, List.mem_cons_self, ?_⟩
    have hone : (Expr.const 1).terms = [(.one, 1)] := by decide
    simp [x, Expr.realValue, hone, Monomial.realValue, Monomial.one]
  have hinitial : ∀ d ∈ capped.declarations, d.initial.RealAssigns x (x d.symbol) :=
    List.forall_mem_cons.mpr ⟨hx, List.forall_mem_cons.mpr ⟨hy, by simp⟩⟩
  have hnegative : (Expr.ofSymbol (.var "x") * .exponential 2).realValue 0 x < 0 := by
    have hterms : (Expr.ofSymbol (.var "x") * .exponential 2).terms =
        [(⟨[(.var "x", 1)], 2⟩, 1)] := by decide +kernel
    simp [x, Expr.realValue, hterms, Monomial.realValue, Symbol.realValue]
  have hrun : ((ProofRule.initialState.run capped ⟨.zero, .zero⟩ .start).run.run (.start ⟨0⟩)).1 =
      .ok v := by
    have hopen : ¬((Verdict.start.allKnown ||
        (capped.initialPolarity capped.guard).maybePositive) = true) := by decide +kernel
    rw [ProofRule.run, ProofRule.runInitialState, if_neg hopen]
    rfl
  obtain ⟨-, hneg, hrule⟩ := initialPolarity_allows_realValue parse_capped
    ((Expr.Built.ofSymbol (.var "x")).mul (.exponential 2)) hinitial
  refine ⟨x, v, hinitial, hrun, rfl, rfl, ?_, hnegative, hneg hnegative⟩
  exact hrule _ _ _ _ hrun fun h => by
    have hpast := congrArg Verdict.past h
    exact absurd hpast (by decide)

end Program

end ProbLoop
