import Mathlib.Algebra.Order.Ring.Rat
import Mathlib.Algebra.Order.Ring.Pow
import Mathlib.Tactic.Linarith
import ProbLoop.Polarity

/-!
# Polarities of results

The operations on polarities allow the values of the operations on numbers.
-/

set_option autoImplicit false

namespace ProbLoop.Polarity

variable {p q : Polarity} {x y : Rat}

theorem allows_of (q : Rat) : (of q).Allows q := by
  simp [Allows, of]

theorem allows_both (q : Rat) : both.Allows q := by
  simp [Allows, both]

theorem allows_zero (p : Polarity) : p.Allows 0 :=
  ⟨fun h => absurd h (lt_irrefl 0), fun h => absurd h (lt_irrefl 0)⟩

theorem allows_of_nonneg (h : 0 ≤ x) : (⟨true, false⟩ : Polarity).Allows x :=
  ⟨fun _ => rfl, fun hneg => absurd h (not_le.mpr hneg)⟩

theorem allows_of_nonpos (h : x ≤ 0) : (⟨false, true⟩ : Polarity).Allows x :=
  ⟨fun hpos => absurd h (not_le.mpr hpos), fun _ => rfl⟩

/-- What is positive and what is negative only where another number is so as well. -/
theorem Allows.of_sign (h : p.Allows x) (hpos : 0 < y → 0 < x) (hneg : y < 0 → x < 0) :
    p.Allows y :=
  ⟨fun hy => h.1 (hpos hy), fun hy => h.2 (hneg hy)⟩

theorem allows_or_left (h : p.Allows x) : (p.or q).Allows x := by
  constructor
  · intro hx
    simp [Polarity.or, h.1 hx]
  · intro hx
    simp [Polarity.or, h.2 hx]

theorem allows_or_right (h : q.Allows x) : (p.or q).Allows x := by
  constructor
  · intro hx
    simp [Polarity.or, h.1 hx]
  · intro hx
    simp [Polarity.or, h.2 hx]

theorem Allows.add (hx : p.Allows x) (hy : p.Allows y) : p.Allows (x + y) := by
  constructor
  · intro h
    rcases lt_or_ge 0 x with hpos | hle
    · exact hx.1 hpos
    · exact hy.1 (by linarith)
  · intro h
    rcases lt_or_ge x 0 with hneg | hge
    · exact hx.2 hneg
    · exact hy.2 (by linarith)

theorem Allows.nonneg_mul (hx : p.Allows x) {c : Rat} (hc : 0 ≤ c) : p.Allows (c * x) :=
  hx.of_sign (fun h => pos_of_mul_pos_right h hc) fun h => neg_of_mul_neg_right h hc

theorem Allows.neg (hx : p.Allows x) : p.flip.Allows (-x) :=
  ⟨fun h => hx.2 (neg_pos.mp h), fun h => hx.1 (neg_neg_iff_pos.mp h)⟩

theorem Allows.nonpos_mul (hx : p.Allows x) {c : Rat} (hc : c ≤ 0) : p.flip.Allows (c * x) := by
  rw [← neg_neg (c * x), ← neg_mul]
  exact (hx.nonneg_mul (neg_nonneg.mpr hc)).neg

theorem Allows.mul (hx : p.Allows x) (hy : q.Allows y) : (p.times q).Allows (x * y) := by
  constructor
  · intro h
    rcases pos_and_pos_or_neg_and_neg_of_mul_pos h with ⟨hx0, hy0⟩ | ⟨hx0, hy0⟩
    · simp [times, hx.1 hx0, hy.1 hy0]
    · simp [times, hx.2 hx0, hy.2 hy0]
  · intro h
    rcases mul_neg_iff.mp h with ⟨hx0, hy0⟩ | ⟨hx0, hy0⟩
    · simp [times, hx.1 hx0, hy.2 hy0]
    · simp [times, hx.2 hx0, hy.1 hy0]

/-- An odd power has the sign of its root. -/
theorem Allows.odd_pow (hx : p.Allows x) {k : Nat} (hk : Odd k) : p.Allows (x ^ k) :=
  hx.of_sign (fun h => hk.pow_pos_iff.mp h) fun h => hk.pow_neg_iff.mp h

/-- A number is allowed by any of several polarities in a row. -/
theorem allows_foldl_or {α : Type} (polarity : α → Polarity) {l : List α} {acc : Polarity} :
    (acc.Allows x → (l.foldl (fun acc a => acc.or (polarity a)) acc).Allows x) ∧
      ∀ a ∈ l, (polarity a).Allows x →
        (l.foldl (fun acc a => acc.or (polarity a)) acc).Allows x := by
  induction l generalizing acc with
  | nil => exact ⟨fun h => h, by simp⟩
  | cons a l ih =>
    obtain ⟨hacc, hmem⟩ := @ih (acc.or (polarity a))
    refine ⟨fun h => hacc (allows_or_left h), fun b hb h => ?_⟩
    rcases List.mem_cons.mp hb with rfl | hb
    · exact hacc (allows_or_right h)
    · exact hmem b hb h

end ProbLoop.Polarity
