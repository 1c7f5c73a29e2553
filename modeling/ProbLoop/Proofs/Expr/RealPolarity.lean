import Mathlib
import ProbLoop.Proofs.Expr.Built
import ProbLoop.Proofs.Expr.Polarity
import ProbLoop.Proofs.Expr.RealValue

/-!
# Polarities and real values

The polarity of an expression allows its values at all counters for all real values of its symbols, since
these are approached by rational ones. For a polynomial in the counter without roots above zero it is the
sign at every positive counter.
-/

set_option autoImplicit false

namespace ProbLoop

open Filter Topology

namespace Polarity

variable {q r : Rat}

/-- A limit that is not zero keeps its sign on the way. -/
theorem allows_limit {p : Polarity} {f : ℕ → Rat} {y : ℝ} (h : ∀ k, p.Allows (f k))
    (hf : Tendsto (fun k => (f k : ℝ)) atTop (𝓝 y)) :
    (0 < y → p.maybePositive = true) ∧ (y < 0 → p.maybeNegative = true) := by
  constructor
  · intro hpos
    obtain ⟨k, hk⟩ := (hf.eventually (lt_mem_nhds hpos)).exists
    exact (h k).1 (by exact_mod_cast hk)
  · intro hneg
    obtain ⟨k, hk⟩ := (hf.eventually (gt_mem_nhds hneg)).exists
    exact (h k).2 (by exact_mod_cast hk)

theorem of_congr (h : Sign.of q = Sign.of r) : Polarity.of q = Polarity.of r := by
  have hpos : 0 < q ↔ 0 < r := by rw [← Sign.of_eq_positive, h, Sign.of_eq_positive]
  have hneg : q < 0 ↔ r < 0 := by rw [← Sign.of_eq_negative, h, Sign.of_eq_negative]
  simp [Polarity.of, hpos, hneg]

end Polarity

/-- Admissible real values are approached by admissible rational ones from above. -/
theorem RealValuation.Admissible.exists_approach {x : RealValuation} (hx : x.Admissible) :
    ∃ u : ℕ → Valuation, (∀ k, (u k).Admissible) ∧ Approach (fun _ => True) u x := by
  choose f _ habove hf using fun s => Real.exists_seq_rat_strictAnti_tendsto (x s)
  refine ⟨fun k s => f s k, fun k name => ?_, fun s _ => hf s⟩
  have hpos := (hx name).trans (habove (.positive name) k)
  exact_mod_cast hpos

namespace Expr

variable {e : Expr} {p : Polynomial} {n : Nat} {x : RealValuation}

theorem realValue_of_ofExpr? (he : e.Canonical) (h : Polynomial.ofExpr? e = some p) (n : Nat)
    (x : RealValuation) : e.realValue n x = p.eval n := by
  obtain ⟨u, hu⟩ := exists_tendsto_value n x
  refine tendsto_nhds_unique (hu e) (tendsto_const_nhds.congr fun k => ?_)
  rw [(value_of_ofExpr? n (u k) he h).2]

/-- A polynomial without roots above zero has the sign of its polarity at every positive counter. -/
theorem polarity_of_clearAbove (he : e.Canonical) (h : Polynomial.ofExpr? e = some p)
    (hclear : p.ClearAbove 0) (hn : 1 ≤ n) : e.polarity = Polarity.of (p.eval n) := by
  obtain ⟨hnormal, -⟩ := value_of_ofExpr? 0 (fun _ => 0) he h
  have hsign : ∀ k : Nat, 1 ≤ k → Sign.of (p.eval k) = Sign.of p.leading := by
    intro k hk
    apply hclear.sign_eval hnormal
    exact_mod_cast hk
  have hceiling : p.rootCeiling = 0 := by
    rcases hnormal.proper_or_isZero with hproper | hzero
    · exact hproper.rootCeiling_eq_zero_iff.mpr hclear
    · exact Polynomial.rootCeiling_of_isZero hzero
  unfold polarity
  split
  · next c hc =>
    have hvalue := (value_of_ofExpr? n (fun _ => 0) he h).2
    rw [← hvalue, value_of_constant? hc]
  · rw [h]
    dsimp only
    rw [if_neg (by omega)]
    apply Polarity.of_congr
    have hone := hsign 1 le_rfl
    rw [Nat.cast_one] at hone
    rw [hone, hsign n hn]

/-- At every positive counter, for all admissible real values of the symbols, an expression is positive or
negative only if its polarity allows it. For a polynomial in the counter without roots above zero it is so
exactly if its polarity says so. -/
theorem Built.polarity_allows_realValue (he : e.Built) (hx : x.Admissible) (hn : 1 ≤ n) :
    (0 < e.realValue n x → e.polarity.maybePositive = true) ∧
      (e.realValue n x < 0 → e.polarity.maybeNegative = true) ∧
      ∀ p, Polynomial.ofExpr? e = some p → (∀ z : ℝ, 0 < z → p.toReal.eval z ≠ 0) →
        (e.polarity.maybePositive = true → 0 < e.realValue n x) ∧
          (e.polarity.maybeNegative = true → e.realValue n x < 0) := by
  obtain ⟨u, hu, happroach⟩ := hx.exists_approach
  obtain ⟨hpos, hneg⟩ := Polarity.allows_limit (fun k => polarity_allows (hu k) he.canonical)
    (tendsto_value (e := e) (fun _ _ _ _ => Or.inr trivial) happroach n)
  refine ⟨hpos, hneg, fun p hp hclear => ?_⟩
  rw [polarity_of_clearAbove he.canonical hp hclear hn, realValue_of_ofExpr? he.canonical hp]
  simp [Polarity.of]

/-- A falling exponential with a positive factor, and the counter, both negated. -/
theorem polarity_allows_negated :
    ∃ x : RealValuation, x.Admissible ∧
      (-(ofSymbol (.positive "c") * exponential (1 / 2)) - counter).realValue 1 x < 0 ∧
      (-(ofSymbol (.positive "c") * exponential (1 / 2)) - counter).polarity.maybeNegative = true := by
  have hbuilt : (-(ofSymbol (.positive "c") * exponential (1 / 2)) - counter).Built :=
    .sub (.neg (.mul (.ofSymbol _) (.exponential _))) (.ofSymbol _)
  have hx : RealValuation.Admissible fun _ => Real.sqrt 2 := fun _ => Real.sqrt_pos.mpr two_pos
  have hterms : (-(ofSymbol (.positive "c") * exponential (1 / 2)) - counter).terms =
      [(.ofSymbol .counter 1, -1), (⟨[(.positive "c", 1)], 1 / 2⟩, -1)] := by
    decide +kernel
  have hneg : (-(ofSymbol (.positive "c") * exponential (1 / 2)) - counter).realValue 1
      (fun _ => Real.sqrt 2) < 0 := by
    have hsqrt := Real.sqrt_nonneg 2
    simp only [realValue, hterms, Monomial.realValue, Monomial.ofSymbol, Symbol.realValue]
    norm_num
    linarith
  exact ⟨_, hx, hneg, (hbuilt.polarity_allows_realValue hx le_rfl).2.1 hneg⟩

end Expr

end ProbLoop
