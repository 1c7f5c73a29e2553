import Mathlib.Algebra.Order.Ring.Rat
import Mathlib.Algebra.GroupWithZero.Basic
import Mathlib.Tactic.Ring
import ProbLoop.Number.Power

/-!
# Powers by repeated squaring

Whatever a product adds up holds of the result of repeated squaring with the exponent in its place.
-/

set_option autoImplicit false

namespace ProbLoop

/-- A property that is indexed by an exponent and that products add up is established by repeated
squaring at the exponent of the result. -/
theorem powerInto_induction {α : Type} (mul : α → α → α) (P : Nat → α → Prop)
    (hm : ∀ i j x y, P i x → P j y → P (i + j) (mul x y)) {i j : Nat} {acc base : α} (k : Nat)
    (ha : P i acc) (hb : P j base) : P (i + j * k) (powerInto mul acc base k) := by
  induction k using Nat.strongRecOn generalizing i j acc base with
  | ind k ih =>
    rw [powerInto]
    split
    · next h => simpa [h] using ha
    · next h =>
      have hg : P (i + j * (k % 2)) (if k % 2 = 1 then mul acc base else acc) := by
        split
        · next hk => simpa [hk] using hm i j acc base ha hb
        · next hk => simpa [Nat.mod_two_ne_one.mp hk] using ha
      have hk : i + j * k = i + j * (k % 2) + (j + j) * (k / 2) := by
        conv_lhs => rw [← Nat.mod_add_div k 2]
        ring
      simp only
      split
      · next h2 => simpa [hk, h2] using hg
      · rw [hk]
        exact ih (k / 2) (by omega) hg (hm j j base base hb hb)

/-- What respects products may be applied before repeated squaring or after it. -/
theorem powerInto_map {α β : Type} {mul : α → α → α} {times : β → β → β} (f : α → β)
    (hf : ∀ x y, times (f x) (f y) = f (mul x y)) (acc base : α) (k : Nat) :
    powerInto times (f acc) (f base) k = f (powerInto mul acc base k) := by
  induction k using Nat.strongRecOn generalizing acc base with
  | ind k ih =>
    rw [powerInto, powerInto]
    split
    · rfl
    · next h =>
      have hgrown : (if k % 2 = 1 then times (f acc) (f base) else f acc) =
          f (if k % 2 = 1 then mul acc base else acc) := by
        rw [hf, apply_ite f]
      simp only
      rw [hgrown, hf]
      split
      · rfl
      · exact ih (k / 2) (by omega) _ _

theorem Number.pow_eq (base : Rat) (k : Nat) : Number.pow base k = base ^ k := by
  have h := powerInto_induction (· * ·) (fun i x => x = base ^ i)
    (fun i j x y hx hy => by rw [hx, hy, pow_add]) k (pow_zero base).symm (pow_one base).symm
  simpa [Number.pow] using h

/-- A power with an integer exponent of at most 32 bits. -/
theorem Number.powInt_eq {base : Rat} {k : Int} (hk : k.natAbs < 2 ^ 32) :
    Number.powInt base k = base ^ k := by
  have hsize : Number.exponentSize k = k.natAbs := Nat.mod_eq_of_lt (by simpa using hk)
  rw [Number.powInt, hsize, Number.pow_eq, Number.pow_eq]
  split
  · next h => rw [← zpow_natCast, Int.natAbs_of_nonneg h]
  · next h => rw [inv_pow, ← zpow_natCast, ← zpow_neg, Int.ofNat_natAbs_of_nonpos (by omega), neg_neg]

end ProbLoop
