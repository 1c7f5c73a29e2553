import ProbLoop.Asymptotics.Dominance
import ProbLoop.Proofs.Asymptotics.Limit

/-!
# What comparisons with constants say

An expression that dominates a negative constant downward stays below some negative constant, and
one that a positive constant dominates upward stays bounded.
-/

set_option autoImplicit false

namespace ProbLoop

/-- The sign of the outer side. -/
def Direction.factor : Direction → Rat
  | up => 1
  | down => -1

theorem Direction.orient_of (direction : Direction) (q : Rat) :
    direction.orient (Sign.of q) = Sign.of (direction.factor * q) := by
  cases direction with
  | up => rw [factor, one_mul, orient]
  | down =>
    rw [factor, neg_one_mul, orient]
    cases h : Sign.of q with
    | positive => exact (Sign.of_eq_negative.mpr (neg_neg_of_pos (Sign.of_eq_positive.mp h))).symm
    | negative => exact (Sign.of_eq_positive.mpr (neg_pos_of_neg (Sign.of_eq_negative.mp h))).symm
    | zero => exact (Sign.of_eq_zero.mpr (neg_eq_zero.mpr (Sign.of_eq_zero.mp h))).symm

namespace Expr

open Filter Topology

variable {e : Expr} {v : Valuation}

theorem dependsOnCounter_const (q : Rat) : (const q).dependsOnCounter = false := by
  unfold const term nonzero?
  split <;> simp [Assoc.consSome, dependsOnCounter, Monomial.isExponential, Monomial.mentions,
    Monomial.one]

theorem limit_const (q : Rat) : (const q).limit = .finite (const q) :=
  limit_of_not_dependsOnCounter (dependsOnCounter_const q)

theorem sign?_const (q : Rat) : (const q).sign? = some (Sign.of q) := by
  rw [sign?, constant?_const]

theorem eventualSign?_const (q : Rat) : (const q).eventualSign? = some (Sign.of q) := by
  rw [eventualSign?, dependsOnCounter_const, if_neg Bool.false_ne_true, sign?_const]

/-- What tends to a positive number is above a positive constant in the end. -/
theorem eventually_ge_of_tendsto_pos {f : Nat → ℝ} {a : ℝ} (h : Tendsto f atTop (𝓝 a))
    (ha : 0 < a) : ∃ ε, 0 < ε ∧ ∀ᶠ n in atTop, ε ≤ f n := by
  refine ⟨a / 2, by linarith, ?_⟩
  filter_upwards [h.eventually_const_lt (show a / 2 < a by linarith)] with n hn
  exact hn.le

/-- Dominating a constant on the outer side of zero means to stay on that side of some constant. -/
theorem eventually_outer_of_dominates (he : e.Canonical) (hv : v.Admissible) {direction : Direction}
    {q : Rat} (hq : 0 < direction.factor * q) (h : e.dominates (const q) direction = true) :
    ∃ ε : ℝ, 0 < ε ∧ ∀ᶠ n in atTop, ε ≤ direction.factor * (e.value n v : ℝ) := by
  have hq' : (0 : ℝ) < direction.factor * q := by exact_mod_cast hq
  rw [dominates] at h
  split at h
  · next heq =>
    refine ⟨_, hq', Eventually.of_forall fun n => ?_⟩
    rw [heq, value_const]
  · rw [limit_const] at h
    cases hlimit : e.limit with
    | finite a =>
      apply eventually_ge_of_tendsto_pos ((tendsto_of_limit_finite he hlimit v).const_mul _)
      rw [hlimit] at h
      have hone : (const q).isZero = false := by
        refine isZero_const fun h0 => ?_
        rw [h0, mul_zero] at hq
        exact lt_irrefl 0 hq
      have houter : ∀ {f : Expr} {s : Sign}, f.sign?.map direction.orient = some s →
          Sign.of (direction.factor * f.value 0 v) = s := by
        intro f s hs
        obtain ⟨r, hr, rfl⟩ := Option.map_eq_some_iff.mp hs
        rw [← direction.orient_of, sign?_sound (n := 0) hv hr]
      simp only [dominatesFinite, hone, Bool.and_false, Bool.false_or, Bool.or_eq_true,
        beq_iff_eq] at h
      have hpos : 0 < direction.factor * a.value 0 v := by
        rcases h with ((hself | hconst) | hmore) | hsame
        · exact Sign.of_eq_positive.mp (houter hself)
        · have hneg := Sign.of_eq_negative.mp (houter hconst)
          rw [value_const] at hneg
          exact absurd hneg hq.not_gt
        · have hsub := Sign.of_eq_positive.mp (houter hmore)
          rw [value_sub, value_const, mul_sub] at hsub
          linarith
        · have hsub := Sign.of_eq_zero.mp (houter hsame)
          rw [value_sub, value_const, mul_sub] at hsub
          linarith
      exact_mod_cast hpos
    | negInf =>
      cases direction with
      | up => simp [hlimit, Limit.rank?] at h
      | down =>
        refine ⟨1, one_pos, ?_⟩
        filter_upwards [((tendsto_of_limit_infinite he hv).2 hlimit).eventually_le_atBot (-1)] with n hn
        simp only [Direction.factor, Rat.cast_neg, Rat.cast_one, neg_one_mul]
        linarith
    | posInf =>
      cases direction with
      | down => simp [hlimit, Limit.rank?] at h
      | up =>
        refine ⟨1, one_pos, ?_⟩
        filter_upwards [((tendsto_of_limit_infinite he hv).1 hlimit).eventually_ge_atTop 1] with n hn
        simpa only [Direction.factor, Rat.cast_one, one_mul] using hn
    | signedInf c => simp [hlimit, Limit.rank?] at h
    | undefined => simp [hlimit, Limit.rank?] at h

/-- Dominating a negative constant downward means to stay below some negative constant. -/
theorem eventually_le_of_dominates (he : e.Canonical) (hv : v.Admissible) {q : Rat} (hq : q < 0)
    (h : e.dominates (const q) .down = true) :
    ∃ ε : ℝ, 0 < ε ∧ ∀ᶠ n in atTop, (e.value n v : ℝ) ≤ -ε := by
  obtain ⟨ε, hε, hle⟩ := eventually_outer_of_dominates he hv
    (show 0 < Direction.down.factor * q by simpa [Direction.factor] using hq) h
  refine ⟨ε, hε, hle.mono fun n hn => ?_⟩
  simp only [Direction.factor, Rat.cast_neg, Rat.cast_one, neg_one_mul] at hn
  linarith

/-- Dominating a positive constant upward means to stay above some positive constant. -/
theorem eventually_ge_of_dominates (he : e.Canonical) (hv : v.Admissible) {q : Rat} (hq : 0 < q)
    (h : e.dominates (const q) .up = true) :
    ∃ ε : ℝ, 0 < ε ∧ ∀ᶠ n in atTop, ε ≤ (e.value n v : ℝ) := by
  obtain ⟨ε, hε, hle⟩ := eventually_outer_of_dominates he hv
    (show 0 < Direction.up.factor * q by simpa [Direction.factor] using hq) h
  exact ⟨ε, hε, hle.mono fun n hn => by simpa [Direction.factor] using hn⟩

/-- What a constant dominates upward does not tend to infinity. -/
theorem limit_of_const_dominates {q : Rat} (h : (const q).dominates e .up = true) :
    (∃ a, e.limit = .finite a) ∨ e.limit = .negInf := by
  rw [dominates] at h
  split at h
  · next heq => exact Or.inl ⟨const q, heq ▸ limit_const q⟩
  · rw [limit_const] at h
    cases hlimit : e.limit with
    | finite a => exact Or.inl ⟨a, rfl⟩
    | negInf => exact Or.inr rfl
    | posInf => simp [hlimit, Limit.rank?] at h
    | signedInf c => simp [hlimit, Limit.rank?] at h
    | undefined => simp [hlimit, Limit.rank?] at h

/-- What a positive constant dominates upward is bounded above. -/
theorem eventually_le_of_const_dominates (he : e.Canonical) (hv : v.Admissible) {q : Rat}
    (h : (const q).dominates e .up = true) :
    ∃ C : ℝ, ∀ᶠ n in atTop, (e.value n v : ℝ) ≤ C := by
  rcases limit_of_const_dominates h with ⟨a, hlimit⟩ | hlimit
  · refine ⟨a.value 0 v + 1, ?_⟩
    have hlt := (tendsto_of_limit_finite he hlimit v).eventually_lt_const
      (show (a.value 0 v : ℝ) < a.value 0 v + 1 by linarith)
    exact hlt.mono fun n hn => hn.le
  · exact ⟨0, ((tendsto_of_limit_infinite he hv).2 hlimit).eventually_le_atBot 0⟩

/-- Only zero has the sign zero. -/
theorem isZero_of_sign? (he : e.Ordered) (h : e.sign? = some .zero) : e.isZero = true := by
  rw [sign?] at h
  split at h
  · next c hc =>
    rw [Option.some.injEq, Sign.of_eq_zero] at h
    rw [eq_const_of_constant? he hc, h]
    rfl
  · split at h
    · simp at h
    · split at h
      · simp at h
      · next t rest hterms =>
        have hne := he.coefficient_ne_zero t (hterms ▸ List.mem_cons_self)
        unfold termSign? at h
        split at h
        · simp at h
        · next s hs =>
          split at hs
          · split at h
            · rw [Option.some.inj h, Option.some.injEq, Sign.of_eq_zero] at hs
              exact absurd hs hne
            · simp at h
          · simp at hs

theorem ordered_of_limit_finite (he : e.Canonical) {a : Expr} (h : e.limit = .finite a) :
    a.Ordered := by
  cases hdep : e.dependsOnCounter with
  | false =>
    rw [limit_of_not_dependsOnCounter hdep, Limit.finite.injEq] at h
    exact h ▸ he.toOrdered
  | true =>
    obtain ⟨d, hd, hlimit⟩ := limit_of_dependsOnCounter hdep
    rw [hlimit, dominantLimit] at h
    split at h
    · rw [← Limit.finite.inj h]
      exact ordered_zero
    · split at h
      · simp at h
      · split at h
        · rw [← Limit.finite.inj h]
          rw [dominant?, Option.map_eq_some_iff] at hd
          obtain ⟨g, -, rfl⟩ := hd
          exact ordered_ofTerms _
        · split at h <;> simp at h

/-- An expression that is bounded and not dominated by zero has a positive limit, if the sign of its
limit is known. -/
theorem limit_pos_of_not_dominates (he : e.Canonical)
    (hsign : ∀ a, e.limit = .finite a → a.sign? ≠ none)
    (hbounded : one.dominates e .up = true) (hnot : zero.dominates e .up = false) :
    ∃ a, e.limit = .finite a ∧ a.sign? = some .positive := by
  have hzero : zero.limit = .finite zero := limit_const 0
  rw [dominates, hzero] at hnot
  split at hnot
  · simp at hnot
  · rcases limit_of_const_dominates (q := 1) hbounded with ⟨a, hlimit⟩ | hlimit
    · obtain ⟨s, hs⟩ := Option.ne_none_iff_exists'.mp (hsign a hlimit)
      rw [hlimit] at hnot
      simp only [dominatesFinite, hs, Option.map_some, Direction.orient, Bool.or_eq_false_iff,
        beq_eq_false_iff_ne, ne_eq, Option.some.injEq] at hnot
      cases s with
      | negative => exact absurd rfl hnot.1.1.2
      | zero =>
        have hboth : zero.isZero = true ∧ a.isZero = true :=
          ⟨rfl, isZero_of_sign? (ordered_of_limit_finite he hlimit) hs⟩
        simp [hboth] at hnot
      | positive => exact ⟨a, hlimit, hs⟩
    · simp [hlimit, Limit.rank?] at hnot

/-- A positive limit bounds an expression away from zero in the end. -/
theorem eventually_ge_of_limit_pos (he : e.Canonical) (hv : v.Admissible) {a : Expr}
    (hlimit : e.limit = .finite a) (ha : a.sign? = some .positive) :
    ∃ ε : ℝ, 0 < ε ∧ ∀ᶠ n in atTop, ε ≤ (e.value n v : ℝ) := by
  have hpos : (0 : ℝ) < a.value 0 v := by
    exact_mod_cast Sign.of_eq_positive.mp (sign?_sound (n := 0) hv ha)
  exact eventually_ge_of_tendsto_pos (tendsto_of_limit_finite he hlimit v) hpos

/-- An expression that is bounded and not dominated by zero stays above some positive constant, if
the sign of its limit is known. -/
theorem eventually_ge_of_not_dominates (he : e.Canonical) (hv : v.Admissible)
    (hsign : ∀ a, e.limit = .finite a → a.sign? ≠ none)
    (hbounded : one.dominates e .up = true) (hnot : zero.dominates e .up = false) :
    ∃ ε : ℝ, 0 < ε ∧ ∀ᶠ n in atTop, ε ≤ (e.value n v : ℝ) := by
  obtain ⟨a, hlimit, ha⟩ := limit_pos_of_not_dominates he hsign hbounded hnot
  exact eventually_ge_of_limit_pos he hv hlimit ha

end Expr

end ProbLoop
