import ProbLoop.Proofs.Asymptotics.Dominance

/-!
# Signs at large counters

The coefficient of a dominant part that does not oscillate is not zero, since the terms of the part are
different monomials. The expression, divided by its growth, tends to this coefficient and therefore has
its sign in the end.
-/

set_option autoImplicit false

namespace ProbLoop.Expr

open Filter Topology

variable {e : Expr} {d : Dominant} {v : Valuation}

/-- The terms of the dominant part. -/
def dominantPart (e : Expr) (g : Growth) : Expr :=
  ⟨e.terms.filter fun t => Growth.ofMonomial t.1 == g⟩

/-- The dominant part is its growth times its coefficient. -/
theorem realValue_dominantPart (he : e.Canonical) (hd : e.dominant? = some d)
    (hosc : d.oscillates = false) (n : Nat) (x : RealValuation) :
    (e.dominantPart d.growth).realValue n x = d.growth.value n * d.coefficient.realValue n x := by
  obtain ⟨hbase, hcoefficient⟩ := (dominant?_spec hd).2.2 hosc
  rw [dominantPart, realValue_eq_sum n x (he.filter _), hcoefficient, ← List.sum_map_mul_left]
  refine congrArg List.sum (List.map_congr_left fun t ht => ?_)
  obtain ⟨hmem, hgrowth⟩ := List.mem_filter.mp ht
  have hgrowth : Growth.ofMonomial t.1 = d.growth := by simpa using hgrowth
  have hmagnitude : d.growth.magnitude = t.1.base := by
    rw [← hgrowth]
    change Number.abs t.1.base = _
    rw [Number.abs_eq, abs_of_nonneg (hbase t hmem hgrowth)]
  have hdegree : d.growth.degree = t.1.counterDegree := by
    rw [← hgrowth]
    rfl
  rw [Growth.value, hmagnitude, hdegree]

/-- The terms of the dominant part do not cancel. -/
theorem coefficient_ne_zero (he : e.Canonical) (hd : e.dominant? = some d)
    (hosc : d.oscillates = false) : d.coefficient ≠ zero := by
  intro hzero
  obtain ⟨⟨t, ht, hgrowth⟩, -⟩ := dominant?_spec hd
  have hpart : (e.dominantPart d.growth) = zero := by
    refine (he.filter _).ext_value canonical_zero (N := 0) fun n _ v _ => ?_
    have hvalue := realValue_dominantPart he hd hosc n fun s => v s
    rw [hzero, realValue_zero, mul_zero, realValue_cast] at hvalue
    exact_mod_cast hvalue
  have hmem : t ∈ (e.dominantPart d.growth).terms :=
    List.mem_filter.mpr ⟨ht, by simpa using hgrowth⟩
  rw [hpart] at hmem
  exact List.not_mem_nil hmem

theorem ordered_coefficient (hd : e.dominant? = some d) : d.coefficient.Ordered := by
  obtain ⟨g, -, rfl⟩ := Option.map_eq_some_iff.mp hd
  exact ordered_ofTerms _

/-- The sign of the coefficient of the dominant part is that of the expression in the end. -/
theorem eventually_of_coefficient (he : e.Canonical) (hv : v.Admissible)
    (hd : e.dominant? = some d) (hosc : d.oscillates = false) {s : Sign}
    (hs : d.coefficient.sign? = some s) : ∀ᶠ n in atTop, Sign.of (e.value n v) = s := by
  have hlimit := tendsto_div_growth (x := fun r => v r) he hd hosc 0
  simp only [realValue_cast] at hlimit
  have hsign := sign?_sound (n := 0) hv hs
  have hgrowth : ∀ᶠ n in atTop, 0 < d.growth.value n := by
    filter_upwards [eventually_ge_atTop 1] with n hn
    exact Growth.value_pos (magnitude_pos he hd) (by omega)
  cases s with
  | positive =>
    have hpos : (0 : ℝ) < d.coefficient.value 0 v := by
      exact_mod_cast Sign.of_eq_positive.mp hsign
    filter_upwards [hgrowth, hlimit.eventually_const_lt hpos] with n hg hn
    have hvalue := (div_pos_iff_of_pos_right hg).mp hn
    exact Sign.of_eq_positive.mpr (by exact_mod_cast hvalue)
  | negative =>
    have hneg : (d.coefficient.value 0 v : ℝ) < 0 := by
      exact_mod_cast Sign.of_eq_negative.mp hsign
    filter_upwards [hgrowth, hlimit.eventually_lt_const hneg] with n hg hn
    have hvalue := (div_lt_iff₀ hg).mp hn
    rw [zero_mul] at hvalue
    exact Sign.of_eq_negative.mpr (by exact_mod_cast hvalue)
  | zero =>
    have hzero := isZero_of_sign? (ordered_coefficient hd) hs
    exact absurd (eq_zero_of_isZero hzero) (coefficient_ne_zero he hd hosc)

theorem eventually_of_eventualSign? (he : e.Canonical) (hv : v.Admissible) {s : Sign}
    (hs : e.eventualSign? = some s) : ∀ᶠ n in atTop, Sign.of (e.value n v) = s := by
  rw [eventualSign?] at hs
  split at hs
  · cases hd : e.dominant? with
    | none => simp [hd] at hs
    | some d =>
      rw [hd] at hs
      dsimp only at hs
      split at hs
      · simp at hs
      · next hosc => exact eventually_of_coefficient he hv hd (by simpa using hosc) hs
  · exact Eventually.of_forall fun n => sign?_sound hv hs

/-- A sign that is found for large counters is the sign from some counter on, and one that is found for
an expression is its sign at every counter, for all admissible values of the symbols. -/
theorem Built.eventually_sign (he : e.Built) (hv : v.Admissible) :
    (∀ s, e.eventualSign? = some s → ∃ N, ∀ n, N ≤ n → Sign.of (e.value n v) = s) ∧
      ∀ s, e.sign? = some s → ∀ n, Sign.of (e.value n v) = s :=
  ⟨fun _ hs => eventually_atTop.mp (eventually_of_eventualSign? he.canonical hv hs),
    fun _ hs _ => sign?_sound hv hs⟩

/-- A positive constant times `n * 2 ^ n` prevails over an oscillating term of higher degree. -/
theorem eventually_sign_prevailing :
    (ofSymbol (.positive "c") * counter * exponential 2 - counter.pow 3 * exponential (-3 / 2) -
        ofSymbol (.real "x0")).eventualSign? = some .positive ∧
      ∃ N, ∀ n, N ≤ n → Sign.of ((ofSymbol (.positive "c") * counter * exponential 2 -
        counter.pow 3 * exponential (-3 / 2) - ofSymbol (.real "x0")).value n fun _ => 1) =
          .positive := by
  have hs : (ofSymbol (.positive "c") * counter * exponential 2 -
      counter.pow 3 * exponential (-3 / 2) - ofSymbol (.real "x0")).eventualSign? =
        some .positive := by decide +kernel
  have hbuilt : (ofSymbol (.positive "c") * counter * exponential 2 -
      counter.pow 3 * exponential (-3 / 2) - ofSymbol (.real "x0")).Built :=
    .sub (.sub (.mul (.mul (.ofSymbol _) (.ofSymbol _)) (.exponential _))
      (.mul (.pow (.ofSymbol _) 3) (.exponential _))) (.ofSymbol _)
  exact ⟨hs, (Built.eventually_sign hbuilt fun _ => one_pos).1 _ hs⟩

end ProbLoop.Expr
