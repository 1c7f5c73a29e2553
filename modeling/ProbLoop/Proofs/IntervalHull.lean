import Mathlib
import ProbLoop.Proofs.Interval

/-!
# Hulls of powers

With infinite ends as points, the power of an interval has the least and the greatest of the powers of its
points as ends. The powers of its real points alone leave no room either.
-/

set_option autoImplicit false

namespace ProbLoop

/-! ### Powers of extended reals -/

section Powers

variable {x y : EReal} {k : ℕ}

theorem ereal_pow_nonneg (hk : Even k) (x : EReal) : 0 ≤ x ^ k := by
  rcases le_total 0 x with hx | hx
  · exact pow_nonneg hx k
  · rw [← hk.neg_pow]
    exact pow_nonneg (EReal.neg_nonneg.mpr hx) k

theorem ereal_pow_le_pow_of_nonpos (hk : Even k) (h : x ≤ y) (hy : y ≤ 0) : y ^ k ≤ x ^ k := by
  rw [← hk.neg_pow y, ← hk.neg_pow x]
  exact pow_le_pow_left₀ (EReal.neg_nonneg.mpr hy) (EReal.neg_le_neg_iff.mpr h) k

theorem ereal_pow_le_pow_of_odd (hk : Odd k) (h : x ≤ y) : x ^ k ≤ y ^ k := by
  rcases le_total 0 x with hx | hx
  · exact pow_le_pow_left₀ hx h k
  have hnonpos : ∀ z : EReal, z ≤ 0 → z ^ k ≤ 0 := fun z hz => by
    rw [← neg_neg z, hk.neg_pow]
    exact EReal.neg_le_zero.mpr (pow_nonneg (EReal.neg_nonneg.mpr hz) k)
  rcases le_total 0 y with hy | hy
  · exact (hnonpos x hx).trans (pow_nonneg hy k)
  · rw [← EReal.neg_le_neg_iff, ← hk.neg_pow, ← hk.neg_pow]
    exact pow_le_pow_left₀ (EReal.neg_nonneg.mpr hy) (EReal.neg_le_neg_iff.mpr h) k

theorem ereal_top_pow (hk : k ≠ 0) : (⊤ : EReal) ^ k = ⊤ :=
  IsIdempotentElem.pow_eq EReal.top_mul_top hk

theorem ereal_bot_pow_of_even (hk : Even k) (hne : k ≠ 0) : (⊥ : EReal) ^ k = ⊤ := by
  rw [← EReal.neg_top, hk.neg_pow, ereal_top_pow hne]

theorem ereal_bot_pow_of_odd (hk : Odd k) : (⊥ : EReal) ^ k = ⊥ := by
  rw [← EReal.neg_top, hk.neg_pow, ereal_top_pow hk.pos.ne']

theorem ereal_eq_top_of_forall_le (h : ∀ z : ℝ, (z : EReal) ≤ x) : x = ⊤ :=
  (EReal.eq_top_iff_forall_lt x).mpr fun z =>
    (EReal.coe_lt_coe_iff.mpr (lt_add_one z)).trans_le (h (z + 1))

theorem ereal_eq_bot_of_forall_le (h : ∀ z : ℝ, x ≤ (z : EReal)) : x = ⊥ :=
  (EReal.eq_bot_iff_forall_lt x).mpr fun z =>
    (h (z - 1)).trans_lt (EReal.coe_lt_coe_iff.mpr (sub_one_lt z))

end Powers

namespace Endpoint

variable {e f : Endpoint}

noncomputable def toEReal : Endpoint → EReal
  | negInf => ⊥
  | finite q => ((q : ℝ) : EReal)
  | posInf => ⊤

theorem toEReal_le_toEReal : e.toEReal ≤ f.toEReal ↔ e.le f = true := by
  cases e <;> cases f <;> simp [toEReal, le]

theorem toEReal_max (e f : Endpoint) : (e.max f).toEReal = e.toEReal ⊔ f.toEReal := by
  unfold max
  split
  · next h => exact (max_eq_right (toEReal_le_toEReal.mpr h)).symm
  · next h => exact (max_eq_left (not_le.mp (mt toEReal_le_toEReal.mp h)).le).symm

theorem sign_eq_negative_iff : e.sign = .negative ↔ e.toEReal < 0 := by
  cases e with
  | negInf => simp [sign, toEReal]
  | posInf => simp [sign, toEReal]
  | finite q =>
    rw [sign, ← not_iff_not, not_lt, ← ne_eq, Sign.of_ne_negative, toEReal]
    simp

theorem toEReal_pow (e : Endpoint) (k : ℕ) : (e.pow k).toEReal = e.toEReal ^ k := by
  cases e with
  | finite q => simp [pow, toEReal, Number.pow_eq]
  | posInf =>
    by_cases hk : k = 0
    · simp [pow, toEReal, hk]
    · simp [pow, toEReal, hk, ereal_top_pow hk]
  | negInf =>
    by_cases hk : k = 0
    · simp [pow, toEReal, hk]
    rcases Nat.even_or_odd k with heven | hodd
    · simp [pow, toEReal, hk, Nat.even_iff.mp heven, ereal_bot_pow_of_even heven hk]
    · simp [pow, toEReal, hk, Nat.odd_iff.mp hodd, ereal_bot_pow_of_odd hodd]

end Endpoint

namespace Interval

variable {i : Interval} {k : ℕ}

/-- The points between the ends, those at infinity included. -/
def extended (i : Interval) : Set EReal :=
  Set.Icc i.low.toEReal i.high.toEReal

/-- The ends of a power with a positive exponent are powers of points, and no power lies beyond them. -/
theorem pow_isLeast_isGreatest (hi : i.low.le i.high = true) (hk : 1 ≤ k) :
    IsLeast ((· ^ k) '' i.extended) (i.pow k).low.toEReal ∧
      IsGreatest ((· ^ k) '' i.extended) (i.pow k).high.toEReal := by
  have hends : i.low.toEReal ≤ i.high.toEReal := Endpoint.toEReal_le_toEReal.mpr hi
  have hleast := isLeast_Icc hends
  have hgreatest := isGreatest_Icc hends
  unfold pow
  simp only
  split
  · next heven =>
    have heven := Nat.even_iff.mpr heven
    split
    · next hnegative =>
      -- Left of zero, the power reverses the order.
      have hhigh := Endpoint.sign_eq_negative_iff.mp hnegative
      have hanti : AntitoneOn (fun x : EReal => x ^ k) i.extended := fun x _ y hy hxy =>
        ereal_pow_le_pow_of_nonpos heven hxy (hy.2.trans hhigh.le)
      rw [Endpoint.toEReal_pow, Endpoint.toEReal_pow]
      exact ⟨hanti.map_isGreatest hgreatest, hanti.map_isLeast hleast⟩
    · next hnonnegative =>
      have hhigh := not_lt.mp (mt Endpoint.sign_eq_negative_iff.mpr hnonnegative)
      split
      · next hnegative =>
        have hlow := Endpoint.sign_eq_negative_iff.mp hnegative
        rw [Endpoint.toEReal_max, Endpoint.toEReal_pow, Endpoint.toEReal_pow]
        refine ⟨⟨⟨0, ⟨hlow.le, hhigh⟩, ?_⟩, ?_⟩, ?_, ?_⟩
        · simp [Endpoint.toEReal, zero_pow (Nat.one_le_iff_ne_zero.mp hk)]
        · rintro _ ⟨x, -, rfl⟩
          simpa [Endpoint.toEReal] using ereal_pow_nonneg heven x
        · rcases max_choice (i.high.toEReal ^ k) (i.low.toEReal ^ k) with h | h <;> rw [h]
          · exact ⟨_, hgreatest.1, rfl⟩
          · exact ⟨_, hleast.1, rfl⟩
        · rintro _ ⟨x, hx, rfl⟩
          rcases le_total 0 x with hsign | hsign
          · exact le_max_of_le_left (pow_le_pow_left₀ hsign hx.2 k)
          · exact le_max_of_le_right (ereal_pow_le_pow_of_nonpos heven hx.1 hsign)
      · next hlow =>
        have hlow := not_lt.mp (mt Endpoint.sign_eq_negative_iff.mpr hlow)
        have hmono : MonotoneOn (fun x : EReal => x ^ k) i.extended := fun x hx y _ hxy =>
          pow_le_pow_left₀ (hlow.trans hx.1) hxy k
        rw [Endpoint.toEReal_pow, Endpoint.toEReal_pow]
        exact ⟨hmono.map_isLeast hleast, hmono.map_isGreatest hgreatest⟩
  · next hodd =>
    have hodd : Odd k := Nat.odd_iff.mpr (by omega)
    have hmono : MonotoneOn (fun x : EReal => x ^ k) i.extended := fun x _ y _ hxy =>
      ereal_pow_le_pow_of_odd hodd hxy
    rw [Endpoint.toEReal_pow, Endpoint.toEReal_pow]
    exact ⟨hmono.map_isLeast hleast, hmono.map_isGreatest hgreatest⟩

theorem pow_zero_extended (i : Interval) : (1 : EReal) ∈ (i.pow 0).extended := by
  have hone : ∀ e : Endpoint, e.pow 0 = .finite 1 := fun e => by
    cases e <;> simp [Endpoint.pow, Number.pow_eq]
  unfold pow
  simp only [hone]
  split
  · split
    · simp [extended, Endpoint.toEReal]
    · split <;> simp [extended, Endpoint.toEReal, Endpoint.max]
  · simp [extended, Endpoint.toEReal]

/-- The power of an interval holds the powers of all of its points. -/
theorem pow_mem_extended {x : EReal} (hx : x ∈ i.extended) (k : ℕ) : x ^ k ∈ (i.pow k).extended := by
  rcases Nat.eq_zero_or_pos k with rfl | hk
  · rw [pow_zero]
    exact i.pow_zero_extended
  · obtain ⟨hleast, hgreatest⟩ :=
      pow_isLeast_isGreatest (Endpoint.toEReal_le_toEReal.mp (hx.1.trans hx.2)) hk
    exact ⟨hleast.2 ⟨x, hx, rfl⟩, hgreatest.2 ⟨x, hx, rfl⟩⟩

/-- An interval that holds the powers of the real points, if there are any, holds those at infinity
too. -/
theorem pow_mem_of_forall_real {a b : EReal} (hk : 1 ≤ k)
    (h : ∀ x : ℝ, (x : EReal) ∈ i.extended → ((x ^ k : ℝ) : EReal) ∈ Set.Icc a b)
    (hpoint : ∃ x : ℝ, (x : EReal) ∈ i.extended) {x : EReal} (hx : x ∈ i.extended) :
    x ^ k ∈ Set.Icc a b := by
  obtain ⟨y, hy⟩ := hpoint
  have hne : k ≠ 0 := Nat.one_le_iff_ne_zero.mp hk
  induction x with
  | coe x =>
    rw [← EReal.coe_pow]
    exact h x hx
  | top =>
    have hlarge : ∀ z : ℝ, (z : EReal) ≤ b := fun z => by
      have hpoint : ((max z (max y 1) : ℝ) : EReal) ∈ i.extended :=
        ⟨hy.1.trans (EReal.coe_le_coe_iff.mpr (by simp)), le_top.trans hx.2⟩
      have hgrows : z ≤ (max z (max y 1)) ^ k :=
        (le_max_left _ _).trans (le_self_pow₀ (by simp) hne)
      exact (EReal.coe_le_coe_iff.mpr hgrows).trans (h _ hpoint).2
    rw [ereal_top_pow hne]
    exact ⟨le_top, (ereal_eq_top_of_forall_le hlarge).ge⟩
  | bot =>
    have hpoint : ∀ z : ℝ, ((-max z (max (-y) 1) : ℝ) : EReal) ∈ i.extended := fun z => by
      refine ⟨hx.1.trans bot_le, (EReal.coe_le_coe_iff.mpr ?_).trans hy.2⟩
      exact neg_le.mp ((le_max_left _ _).trans (le_max_right _ _))
    have hgrows : ∀ z : ℝ, z ≤ (max z (max (-y) 1)) ^ k := fun z =>
      (le_max_left _ _).trans (le_self_pow₀ (by simp) hne)
    rcases Nat.even_or_odd k with heven | hodd
    · have hlarge : ∀ z : ℝ, (z : EReal) ≤ b := fun z => by
        have hmem := (h _ (hpoint z)).2
        rw [heven.neg_pow] at hmem
        exact (EReal.coe_le_coe_iff.mpr (hgrows z)).trans hmem
      rw [ereal_bot_pow_of_even heven hne]
      exact ⟨le_top, (ereal_eq_top_of_forall_le hlarge).ge⟩
    · have hsmall : ∀ z : ℝ, a ≤ z := fun z => by
        have hmem := (h _ (hpoint (-z))).1
        rw [hodd.neg_pow] at hmem
        exact hmem.trans (EReal.coe_le_coe_iff.mpr (neg_le.mp (hgrows (-z))))
      rw [ereal_bot_pow_of_odd hodd]
      exact ⟨(ereal_eq_bot_of_forall_le hsmall).le, bot_le⟩

/-- No interval that holds the powers of the real points is smaller. -/
theorem pow_extended_subset {a b : EReal} (hk : 1 ≤ k)
    (h : ∀ x : ℝ, (x : EReal) ∈ i.extended → ((x ^ k : ℝ) : EReal) ∈ Set.Icc a b)
    (hpoint : ∃ x : ℝ, (x : EReal) ∈ i.extended) : (i.pow k).extended ⊆ Set.Icc a b := by
  obtain ⟨y, hy⟩ := hpoint
  obtain ⟨⟨⟨l, hl, hlow⟩, -⟩, ⟨u, hu, hhigh⟩, -⟩ :=
    pow_isLeast_isGreatest (Endpoint.toEReal_le_toEReal.mp (hy.1.trans hy.2)) hk
  have hleft := pow_mem_of_forall_real hk h ⟨y, hy⟩ hl
  have hright := pow_mem_of_forall_real hk h ⟨y, hy⟩ hu
  exact Set.Icc_subset_Icc (hlow ▸ hleft.1) (hhigh ▸ hright.2)

end Interval

end ProbLoop
