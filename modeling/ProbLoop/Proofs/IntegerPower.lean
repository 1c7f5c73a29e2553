import Mathlib.Algebra.Order.Field.Power
import Mathlib.Algebra.Ring.Int.Parity
import ProbLoop.Proofs.Expr.Exponential

/-!
# Powers with integer exponents

Squaring repeatedly multiplies as often as the exponent says. Of an integer exponent only the remainder
by `2 ^ 32` is left, with its sign, so a power is right exactly if nothing is lost of the exponent or if
the base is a unit of the integers.
-/

set_option autoImplicit false

namespace ProbLoop

namespace Number

variable {base : Rat} {k : Int}

/-- The exponent that is left has the sign of the one that is given. -/
theorem powInt_eq_tmod (base : Rat) (k : Int) : powInt base k = base ^ k.tmod (2 ^ 32) := by
  have hsize : exponentSize k = (k.tmod (2 ^ 32)).natAbs := by
    rw [Int.natAbs_tmod]
    rfl
  rw [powInt, pow_eq, pow_eq, hsize]
  split
  · next hk => rw [← zpow_natCast, Int.natAbs_of_nonneg (Int.tmod_nonneg _ hk)]
  · next hk =>
    have hnonpos : k.tmod (2 ^ 32) ≤ 0 := by
      have h := Int.tmod_nonneg (2 ^ 32) (neg_nonneg.mpr (not_le.mp hk).le)
      rw [Int.neg_tmod] at h
      exact neg_nonneg.mp h
    rw [inv_pow, ← zpow_natCast, Int.ofNat_natAbs_of_nonpos hnonpos, zpow_neg, inv_inv]

theorem tmod_eq_self_iff : k.tmod (2 ^ 32) = k ↔ k.natAbs < 2 ^ 32 := by
  constructor
  · intro h
    rw [← h, Int.natAbs_tmod]
    exact Nat.mod_lt _ (by norm_num)
  · intro h
    rcases le_total 0 k with hk | hk
    · exact Int.tmod_eq_of_lt hk (by omega)
    · rw [← neg_neg k, Int.neg_tmod, Int.tmod_eq_of_lt (neg_nonneg.mpr hk) (by omega)]

/-- Neither a multiple of `2 ^ 32` nor its sign shows in a power of minus one. -/
theorem neg_one_zpow_tmod (k : Int) : (-1 : Rat) ^ k.tmod (2 ^ 32) = (-1) ^ k := by
  have hsplit : k.tmod (2 ^ 32) + 2 ^ 32 * k.tdiv (2 ^ 32) = k := Int.tmod_add_mul_tdiv k _
  have heven : Even (2 ^ 32 * k.tdiv (2 ^ 32)) := ((even_two.pow_of_ne_zero (by norm_num)).mul_right _)
  conv_rhs => rw [← hsplit, zpow_add₀ (by norm_num), heven.neg_one_zpow, mul_one]

theorem zpow_injective {base : Rat} (h0 : base ≠ 0) (h1 : base ≠ 1) (hneg : base ≠ -1) {i j : Int}
    (h : base ^ i = base ^ j) : i = j := by
  have habs : |base| ^ i = |base| ^ j := by rw [← abs_zpow, h, abs_zpow]
  have hne : |base| ≠ 1 := fun hone => (abs_eq_abs.mp (hone.trans abs_one.symm)).elim h1 hneg
  exact zpow_right_injective₀ (abs_pos.mpr h0) hne habs

theorem powInt_eq_zpow_iff (h0 : base ≠ 0) :
    powInt base k = base ^ k ↔ k.natAbs < 2 ^ 32 ∨ base = 1 ∨ base = -1 := by
  rw [powInt_eq_tmod, ← tmod_eq_self_iff]
  constructor
  · intro h
    by_contra hnot
    obtain ⟨hk, hunit⟩ := not_or.mp hnot
    obtain ⟨h1, hneg⟩ := not_or.mp hunit
    exact hk (zpow_injective h0 h1 hneg h)
  · rintro (hk | rfl | rfl)
    · rw [hk]
    · rw [one_zpow, one_zpow]
    · exact neg_one_zpow_tmod k

theorem powInt?_eq_some (h0 : base ≠ 0) : powInt? base k = some (powInt base k) :=
  if_neg fun h => h0 h.1

end Number

namespace Expr

variable {base : Rat}

theorem exponential_eq (h0 : base ≠ 0) :
    exponential base = ⟨[(Monomial.exponential base, 1)]⟩ := by
  rw [exponential, if_neg h0]
  rfl

/-- An exponential that is moved is multiplied by a power of its base. -/
theorem shift_exponential (h0 : base ≠ 0) (k : Int) :
    (exponential base).shift k = (exponential base).scale (Number.powInt base k) := by
  have hcanonical := canonical_exponential base
  refine (hcanonical.shift k).ext_value (hcanonical.scale _) (N := 0) fun n _ v _ => ?_
  rw [value_scale]
  unfold shift
  split
  · next h =>
    have hone : Number.powInt base k = 1 := by
      rw [Number.powInt_eq_tmod]
      rcases Bool.or_eq_true _ _ |>.mp h with hk | hstill
      · rw [of_decide_eq_true hk, Int.zero_tmod, zpow_zero]
      · have hbase : base = 1 := by
          simpa [exponential_eq h0, dependsOnCounter, Monomial.isExponential, Monomial.exponential,
            Monomial.mentions] using hstill
        rw [hbase, one_zpow]
    rw [hone, mul_one]
  · have hterms : (exponential base).terms = [(Monomial.exponential base, 1)] :=
      congrArg Expr.terms (exponential_eq h0)
    have hstill : ((Monomial.exponential base).without .counter).withBase 1 = Monomial.one := rfl
    have hdegree : (Monomial.exponential base).counterDegree = 0 := rfl
    have hbase : (Monomial.exponential base).base = base := rfl
    rw [value_sum, hterms, List.map_singleton, List.map_singleton, List.sum_singleton, shiftTerm,
      hstill, hdegree, hbase]
    simp only [value_mul, value_term, value_pow, Monomial.value_one]
    ring

theorem scale_exponential_injective (h0 : base ≠ 0) {p q : Rat}
    (h : (exponential base).scale p = (exponential base).scale q) : p = q := by
  have hvalue := congrArg (value 0 fun _ => 0) h
  rw [value_scale, value_scale, value_exponential _ _ h0, pow_zero, one_mul, one_mul] at hvalue
  exact hvalue

end Expr

/-- A power with a natural exponent is the product of as many factors. A power of a number other than
zero is right for an integer exponent, and so is the exponential of that base moved by it, exactly if
the exponent fits into 32 bits or its sign and parity are all that matters. -/
theorem Number.powers_exact_iff (base : Rat) :
    (∀ k : Nat, pow base k = (List.replicate k base).prod) ∧
    (base ≠ 0 → ∀ k : Int,
      (powInt? base k = some (base ^ k) ↔ k.natAbs < 2 ^ 32 ∨ base = 1 ∨ base = -1) ∧
      ((Expr.exponential base).shift k = (Expr.exponential base).scale (base ^ k) ↔
        k.natAbs < 2 ^ 32 ∨ base = 1 ∨ base = -1)) := by
  refine ⟨fun k => ?_, fun h0 k => ⟨?_, ?_⟩⟩
  · rw [pow_eq, List.prod_replicate]
  · rw [powInt?_eq_some h0, Option.some.injEq, powInt_eq_zpow_iff h0]
  · rw [Expr.shift_exponential h0, ← powInt_eq_zpow_iff h0]
    exact ⟨Expr.scale_exponential_injective h0, congrArg _⟩

/-- The smallest exponent of 64 bits, of which nothing is left but its parity. -/
theorem Number.powers_exact_neg_one :
    (-1 : Rat) ≠ 0 ∧
    powInt? (-1) (-9223372036854775808) = some ((-1) ^ (-9223372036854775808 : Int)) ∧
    (Expr.exponential (-1)).shift (-9223372036854775808) =
      (Expr.exponential (-1)).scale ((-1) ^ (-9223372036854775808 : Int)) := by
  have h0 : (-1 : Rat) ≠ 0 := by decide
  have hexact := (powers_exact_iff (-1)).2 h0 (-9223372036854775808)
  exact ⟨h0, hexact.1.mpr (.inr (.inr rfl)), hexact.2.mpr (.inr (.inr rfl))⟩

/-- The power of two with the exponent `2 ^ 32` is taken for the one with the exponent zero. -/
theorem Number.powInt_two_truncated : (2 : Rat) ≠ 0 ∧ powInt? 2 4294967296 = some 1 ∧
    powInt? 2 4294967296 ≠ some (2 ^ (4294967296 : Int)) := by
  have h0 : (2 : Rat) ≠ 0 := by decide
  refine ⟨h0, by cbv, fun h => ?_⟩
  rw [powInt?_eq_some h0, Option.some.injEq, powInt_eq_zpow_iff h0] at h
  exact absurd h (by decide)

end ProbLoop
