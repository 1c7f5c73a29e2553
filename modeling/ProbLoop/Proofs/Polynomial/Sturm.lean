import Mathlib

/-!
# Sturm's theorem

Around a point a polynomial is a power of the distance times a factor that does not vanish there. The
sign changes of a sequence of remainders are therefore counted just before and just behind a point, where
no member vanishes: the two counts differ by one at the roots of the first member, if the second is its
derivative, and agree elsewhere. Between roots nothing changes, so the count to the right of a point is the
one at infinity and the number of roots behind the point.
-/

set_option autoImplicit false

section

open Polynomial

namespace ProbLoop

namespace Sturm

/-! ### Signs next to a point -/

section Sides

variable {f g : ℝ[X]} {c : ℝ} {k : ℕ}

/-- A number with the sign that a polynomial has just behind a point. -/
noncomputable def behind (c : ℝ) (f : ℝ[X]) : ℝ :=
  (f /ₘ (X - C c) ^ f.rootMultiplicity c).eval c

/-- A number with the sign that a polynomial has just before a point. -/
noncomputable def before (c : ℝ) (f : ℝ[X]) : ℝ :=
  (-1) ^ f.rootMultiplicity c * behind c f

theorem behind_ne_zero (c : ℝ) (hf : f ≠ 0) : behind c f ≠ 0 :=
  eval_divByMonic_pow_rootMultiplicity_ne_zero c hf

theorem before_ne_zero (c : ℝ) (hf : f ≠ 0) : before c f ≠ 0 :=
  mul_ne_zero (pow_ne_zero _ (by norm_num)) (behind_ne_zero c hf)

theorem exists_factor (c : ℝ) (f : ℝ[X]) :
    ∃ g : ℝ[X], f = (X - C c) ^ f.rootMultiplicity c * g ∧ g.eval c = behind c f :=
  ⟨_, (pow_mul_divByMonic_rootMultiplicity_eq f c).symm, rfl⟩

/-- The power and the factor are unique. -/
theorem behind_of_factor (h : f = (X - C c) ^ k * g) (hg : g.eval c ≠ 0) :
    f.rootMultiplicity c = k ∧ behind c f = g.eval c := by
  have hg0 : g ≠ 0 := fun h0 => hg (by rw [h0, eval_zero])
  have hpow : (X - C c) ^ k ≠ 0 := pow_ne_zero k (X_sub_C_ne_zero c)
  have hmultiplicity : f.rootMultiplicity c = k := by
    rw [h, rootMultiplicity_mul (mul_ne_zero hpow hg0), rootMultiplicity_X_sub_C_pow,
      rootMultiplicity_eq_zero hg, add_zero]
  refine ⟨hmultiplicity, ?_⟩
  rw [behind, hmultiplicity, h, mul_divByMonic_cancel_left g ((monic_X_sub_C c).pow k)]

theorem behind_of_eval_ne_zero (h : f.eval c ≠ 0) :
    f.rootMultiplicity c = 0 ∧ behind c f = f.eval c :=
  behind_of_factor (by rw [pow_zero, one_mul]) h

end Sides

/-! ### Sequences of remainders -/

/-- The members behind the first one of a sequence of remainders with the signs changed. -/
inductive Remainders : ℝ[X] → ℝ[X] → List ℝ[X] → Prop
  | last {a : ℝ[X]} (nonzero : a ≠ 0) : Remainders a 0 []
  | step {a b q r : ℝ[X]} {l : List ℝ[X]} (nonzero : a ≠ 0) (divisor : b ≠ 0)
      (division : a = q * b - r) (rest : Remainders b r l) : Remainders a b (b :: l)

theorem Remainders.ne_zero {a b : ℝ[X]} {l : List ℝ[X]} (h : Remainders a b l) :
    ∀ f ∈ a :: l, f ≠ 0 := by
  induction h with
  | last ha => simpa using ha
  | step ha _ _ _ ih => exact List.forall_mem_cons.mpr ⟨ha, ih⟩

/-- Whether two numbers have opposite signs. -/
noncomputable def opposite (x y : ℝ) : ℕ := if x * y < 0 then 1 else 0

/-- The sign changes behind a number, zeros left out. -/
noncomputable def flips : ℝ → List ℝ → ℕ
  | _, [] => 0
  | x, y :: l => if y = 0 then flips x l else opposite x y + flips y l

section Opposite

variable {x y z : ℝ}

theorem flips_cons_of_ne_zero (hy : y ≠ 0) (l : List ℝ) :
    flips x (y :: l) = opposite x y + flips y l := by
  rw [flips, if_neg hy]

theorem opposite_congr {x' y' : ℝ} (hx : 0 < x * x') (hy : 0 < y * y') :
    opposite x y = opposite x' y' := by
  unfold opposite
  refine if_congr ?_ rfl rfl
  have hprod : 0 < (x * y) * (x' * y') := by
    have h := mul_pos hx hy
    nlinarith
  constructor <;> intro h <;> nlinarith

theorem opposite_neg_right (hx : x ≠ 0) (hy : y ≠ 0) : opposite x (-y) + opposite x y = 1 := by
  unfold opposite
  rcases lt_or_gt_of_ne (mul_ne_zero hx hy) with h | h
  · rw [if_pos h, if_neg (by linarith)]
  · rw [if_pos (by linarith : x * -y < 0), if_neg (by linarith)]

/-- Only the signs matter. -/
theorem flips_congr {σ τ : ℝ[X] → ℝ} {a : ℝ[X]} {l : List ℝ[X]}
    (h : ∀ f ∈ a :: l, 0 < σ f * τ f) : flips (σ a) (l.map σ) = flips (τ a) (l.map τ) := by
  induction l generalizing a with
  | nil => rfl
  | cons b l ih =>
    obtain ⟨ha, hl⟩ := List.forall_mem_cons.mp h
    have hb := hl b List.mem_cons_self
    rw [List.map_cons, List.map_cons, flips_cons_of_ne_zero (left_ne_zero_of_mul hb.ne'),
      flips_cons_of_ne_zero (right_ne_zero_of_mul hb.ne'), opposite_congr ha hb, ih hl]

end Opposite

section Jump

variable {a b q r : ℝ[X]} {c : ℝ}

/-- By how much the sign changes between two polynomials drop at a point that is a zero of the first
one, relative to the second. -/
noncomputable def jump (c : ℝ) (a b : ℝ[X]) : ℤ :=
  if b ≠ 0 ∧ b.rootMultiplicity c < a.rootMultiplicity c then
    (opposite (before c a) (before c b) : ℤ) - opposite (behind c a) (behind c b)
  else 0

theorem opposite_before_of_eq (h : a.rootMultiplicity c = b.rootMultiplicity c) :
    opposite (before c a) (before c b) = opposite (behind c a) (behind c b) := by
  have hprod : before c a * before c b = behind c a * behind c b := by
    rw [before, before, h]
    have hone : ((-1 : ℝ) ^ b.rootMultiplicity c) * (-1) ^ b.rootMultiplicity c = 1 := by
      rw [← mul_pow]
      norm_num
    linear_combination (behind c a * behind c b) * hone
  rw [opposite, opposite, hprod]

/-- A remainder vanishes at least as much as the dividend and the divisor. -/
theorem jump_remainder (division : a = q * b - r)
    (h : b.rootMultiplicity c ≤ a.rootMultiplicity c) : jump c b r = 0 := by
  refine if_neg fun hr => absurd hr.2 (not_lt.mpr ?_)
  rw [le_rootMultiplicity_iff hr.1]
  have hr' : r = q * b - a := by rw [division]; ring
  rw [hr']
  exact ((pow_rootMultiplicity_dvd b c).mul_left q).sub
    ((pow_dvd_pow _ h).trans (pow_rootMultiplicity_dvd a c))

/-- Where the divisor vanishes more than the dividend, the remainder is the dividend with the other
sign. -/
theorem sides_remainder (division : a = q * b - r) (ha : a ≠ 0)
    (h : a.rootMultiplicity c < b.rootMultiplicity c) :
    r ≠ 0 ∧ r.rootMultiplicity c = a.rootMultiplicity c ∧ behind c r = -behind c a := by
  obtain ⟨g, hg, hgc⟩ := exists_factor c a
  obtain ⟨e, he, -⟩ := exists_factor c b
  obtain ⟨k, hk⟩ := Nat.exists_eq_add_of_lt h
  have hfactor : r = (X - C c) ^ a.rootMultiplicity c * (q * (X - C c) ^ (k + 1) * e - g) := by
    have hr : r = q * b - a := by rw [division]; ring
    rw [hr]
    nth_rewrite 1 [hg]
    rw [he, hk]
    ring
  have heval : (q * (X - C c) ^ (k + 1) * e - g).eval c = -behind c a := by
    simp [hgc]
  have hne : (q * (X - C c) ^ (k + 1) * e - g).eval c ≠ 0 := by
    rw [heval]
    exact neg_ne_zero.mpr (behind_ne_zero c ha)
  obtain ⟨hmultiplicity, hbehind⟩ := behind_of_factor hfactor hne
  refine ⟨fun hr => ?_, hmultiplicity, hbehind.trans heval⟩
  have hzero : behind c r = 0 := by rw [hr, behind, zero_divByMonic, eval_zero]
  exact hne (hbehind.symm.trans hzero)

/-- One division moves the jump to the first two members. -/
theorem jump_step (division : a = q * b - r) (ha : a ≠ 0) (hb : b ≠ 0) :
    (opposite (before c a) (before c b) : ℤ) + jump c b r =
      opposite (behind c a) (behind c b) + jump c a b := by
  rcases lt_trichotomy (a.rootMultiplicity c) (b.rootMultiplicity c) with h | h | h
  · obtain ⟨hr, hmultiplicity, hbehind⟩ := sides_remainder division ha h
    have hbefore : before c r = -before c a := by
      rw [before, before, hmultiplicity, hbehind]
      ring
    have hright := opposite_neg_right (behind_ne_zero c hb) (behind_ne_zero c ha)
    have hleft := opposite_neg_right (before_ne_zero c hb) (before_ne_zero c ha)
    have hcomm : ∀ x y : ℝ, opposite x y = opposite y x := fun x y => by
      rw [opposite, opposite, mul_comm]
    rw [jump, if_pos ⟨hr, by omega⟩, jump, if_neg (by omega), hbefore, hbehind,
      hcomm (before c a), hcomm (behind c a)]
    omega
  · rw [jump_remainder division h.ge, jump, if_neg (by omega), opposite_before_of_eq h]
  · rw [jump_remainder division h.le, jump, if_pos ⟨hb, h⟩]
    ring

/-- Passing a point changes the count by the jump of the first two members. -/
theorem Remainders.flips_before {l : List ℝ[X]} (h : Remainders a b l) (c : ℝ) :
    (flips (before c a) (l.map (before c)) : ℤ) =
      flips (behind c a) (l.map (behind c)) + jump c a b := by
  induction h with
  | last _ => simp [flips, jump]
  | step ha hb division _ ih =>
    have hstep := jump_step (c := c) division ha hb
    rw [List.map_cons, List.map_cons, flips_cons_of_ne_zero (before_ne_zero c hb),
      flips_cons_of_ne_zero (behind_ne_zero c hb)]
    push_cast
    rw [ih]
    linarith

/-- The jump of a polynomial and its derivative shows the roots. -/
theorem jump_derivative (ha : a ≠ 0) (c : ℝ) :
    jump c a (derivative a) = if a.IsRoot c then 1 else 0 := by
  by_cases hroot : a.IsRoot c
  · obtain ⟨g, hg, hgc⟩ := exists_factor c a
    have hpos : 0 < a.rootMultiplicity c := (rootMultiplicity_pos ha).mpr hroot
    obtain ⟨k, hk⟩ := Nat.exists_eq_add_of_lt hpos
    rw [zero_add] at hk
    have hfactor : derivative a =
        (X - C c) ^ k * (C ((k : ℝ) + 1) * g + (X - C c) * derivative g) := by
      rw [hg, hk, derivative_mul, derivative_X_sub_C_pow]
      simp only [Nat.add_sub_cancel, map_add, map_natCast, map_one]
      push_cast
      ring
    have hvalue : (C ((k : ℝ) + 1) * g + (X - C c) * derivative g).eval c =
        (k + 1) * behind c a := by
      simp [hgc]
    have hne : (C ((k : ℝ) + 1) * g + (X - C c) * derivative g).eval c ≠ 0 := by
      rw [hvalue]
      exact mul_ne_zero (by positivity) (behind_ne_zero c ha)
    obtain ⟨hmultiplicity, hbehind⟩ := behind_of_factor hfactor hne
    have hd : derivative a ≠ 0 := by
      intro h0
      have hzero : behind c (derivative a) = 0 := by rw [h0, behind, zero_divByMonic, eval_zero]
      exact hne (hbehind.symm.trans hzero)
    have hsquare : 0 < behind c a * behind c a := mul_self_pos.mpr (behind_ne_zero c ha)
    have hbehind' : behind c (derivative a) = (k + 1) * behind c a := hbehind.trans hvalue
    have hright : 0 < behind c a * behind c (derivative a) := by
      rw [hbehind']
      nlinarith [mul_pos (by positivity : (0 : ℝ) < k + 1) hsquare]
    have hleft : before c a * before c (derivative a) < 0 := by
      have hodd : ((-1 : ℝ) ^ (k + 1)) * (-1) ^ k = -1 := by
        rw [← pow_add, show k + 1 + k = 2 * k + 1 by ring, pow_succ, pow_mul]
        norm_num
      have hprod : before c a * before c (derivative a) =
          -(behind c a * behind c (derivative a)) := by
        rw [before, before, hk, hmultiplicity]
        linear_combination (behind c a * behind c (derivative a)) * hodd
      rw [hprod]
      linarith
    rw [if_pos hroot, jump, if_pos ⟨hd, by omega⟩, opposite, if_pos hleft, opposite,
      if_neg (not_lt.mpr hright.le)]
    norm_num
  · have hzero := rootMultiplicity_eq_zero hroot
    rw [if_neg hroot, jump, if_neg (by omega)]

end Jump

/-! ### Counting roots -/

section Signs

variable {f : ℝ[X]} {s t : ℝ}

/-- A polynomial has one sign between two points if it has no roots there. -/
theorem eval_mul_eval_pos (h : ∀ z ∈ Set.uIcc s t, f.eval z ≠ 0) : 0 < f.eval s * f.eval t := by
  by_contra hneg
  have hle := not_lt.mp hneg
  have hzero : (0 : ℝ) ∈ Set.uIcc (f.eval s) (f.eval t) := by
    rw [Set.mem_uIcc]
    rcases mul_nonpos_iff.mp hle with h' | h'
    · exact Or.inr ⟨h'.2, h'.1⟩
    · exact Or.inl h'
  obtain ⟨z, hz, hroot⟩ := intermediate_value_uIcc f.continuous.continuousOn hzero
  exact h z hz hroot

/-- The sign behind a point is the one up to the next root. -/
theorem behind_mul_eval (hst : s < t) (h : ∀ z, s < z → z ≤ t → f.eval z ≠ 0) :
    0 < behind s f * f.eval t := by
  have hf : f ≠ 0 := fun h0 => h t hst le_rfl (by rw [h0, eval_zero])
  obtain ⟨g, hg, hgs⟩ := exists_factor s f
  have heval : ∀ z, f.eval z = (z - s) ^ f.rootMultiplicity s * g.eval z := by
    intro z
    nth_rewrite 1 [hg]
    simp
  have hpos : 0 < g.eval s * g.eval t := by
    apply eval_mul_eval_pos
    intro z hz
    rw [Set.uIcc_of_le hst.le] at hz
    rcases eq_or_lt_of_le hz.1 with rfl | hlt
    · rw [hgs]
      exact behind_ne_zero _ hf
    · have hne := h z hlt hz.2
      rw [heval] at hne
      exact right_ne_zero_of_mul hne
  rw [heval, ← hgs, mul_left_comm]
  exact mul_pos (pow_pos (sub_pos.mpr hst) _) hpos

/-- The sign before a point is the one from the last root. -/
theorem before_mul_eval (hst : s < t) (h : ∀ z, s ≤ z → z < t → f.eval z ≠ 0) :
    0 < before t f * f.eval s := by
  have hf : f ≠ 0 := fun h0 => h s le_rfl hst (by rw [h0, eval_zero])
  obtain ⟨g, hg, hgt⟩ := exists_factor t f
  have heval : ∀ z, f.eval z = (z - t) ^ f.rootMultiplicity t * g.eval z := by
    intro z
    nth_rewrite 1 [hg]
    simp
  have hpos : 0 < g.eval t * g.eval s := by
    apply eval_mul_eval_pos
    intro z hz
    rw [Set.uIcc_of_ge hst.le] at hz
    rcases eq_or_lt_of_le hz.2 with rfl | hlt
    · rw [hgt]
      exact behind_ne_zero _ hf
    · have hne := h z hz.1 hlt
      rw [heval] at hne
      exact right_ne_zero_of_mul hne
  have hpow : (-1 : ℝ) ^ f.rootMultiplicity t * (s - t) ^ f.rootMultiplicity t =
      (t - s) ^ f.rootMultiplicity t := by
    rw [← mul_pow]
    ring_nf
  rw [heval, before, ← hgt, show (-1 : ℝ) ^ f.rootMultiplicity t * g.eval t *
    ((s - t) ^ f.rootMultiplicity t * g.eval s) =
      ((-1) ^ f.rootMultiplicity t * (s - t) ^ f.rootMultiplicity t) * (g.eval t * g.eval s) by ring,
    hpow]
  exact mul_pos (pow_pos (sub_pos.mpr hst) _) hpos

/-- Behind all roots the sign is that of the leading coefficient. -/
theorem behind_mul_leadingCoeff (h : ∀ z, s < z → f.eval z ≠ 0) :
    0 < behind s f * f.leadingCoeff := by
  have hf : f ≠ 0 := fun h0 => h (s + 1) (lt_add_one s) (by rw [h0, eval_zero])
  have hlead : f.leadingCoeff ≠ 0 := leadingCoeff_ne_zero.mpr hf
  have hlimit := div_tendsto_atTop_leadingCoeff_div_of_degree_eq f (X ^ f.natDegree)
    (by rw [degree_X_pow, degree_eq_natDegree hf])
  rw [leadingCoeff_X_pow, div_one] at hlimit
  have hsquare := (hlimit.mul_const f.leadingCoeff).eventually
    (lt_mem_nhds (mul_self_pos.mpr hlead))
  obtain ⟨t, hsign, hts, ht0⟩ := (hsquare.and
    ((Filter.eventually_gt_atTop s).and (Filter.eventually_gt_atTop 0))).exists
  have hpow : 0 < t ^ f.natDegree := pow_pos ht0 _
  rw [eval_pow, eval_X, div_mul_eq_mul_div, div_pos_iff_of_pos_right hpow] at hsign
  have hbehind := behind_mul_eval hts fun z hz _ => h z hz
  have hprod : 0 < (behind s f * f.leadingCoeff) * (f.eval t * f.eval t) := by
    have hmul := mul_pos hbehind hsign
    nlinarith
  exact (mul_pos_iff_of_pos_right (mul_self_pos.mpr (h t hts))).mp hprod

end Signs

section Counting

variable {a b : ℝ[X]} {l : List ℝ[X]}

/-- The roots behind a point. -/
noncomputable def rootsBehind (x : ℝ) (f : ℝ[X]) : Finset ℝ := f.roots.toFinset.filter (x < ·)

theorem mem_rootsBehind {x z : ℝ} {f : ℝ[X]} (hf : f ≠ 0) :
    z ∈ rootsBehind x f ↔ x < z ∧ f.eval z = 0 := by
  rw [rootsBehind, Finset.mem_filter, Multiset.mem_toFinset, mem_roots hf, IsRoot, and_comm]

/-- Up to the next root, a polynomial keeps its sign. -/
theorem behind_mul_before {f : ℝ[X]} {x c : ℝ} (hxc : x < c)
    (h : ∀ z, x < z → z < c → f.eval z ≠ 0) : 0 < behind x f * before c f := by
  obtain ⟨t, hxt, htc⟩ := exists_between hxc
  have hleft := behind_mul_eval hxt fun z hz hzt => h z hz (hzt.trans_lt htc)
  have hright := before_mul_eval htc fun z hz hzc => h z (hxt.trans_le hz) hzc
  have hprod : 0 < (behind x f * before c f) * (f.eval t * f.eval t) := by
    have hmul := mul_pos hleft hright
    nlinarith
  exact (mul_pos_iff_of_pos_right (mul_self_pos.mpr (h t hxt htc))).mp hprod

theorem card_rootsBehind {f : ℝ[X]} (hf : f ≠ 0) {x c : ℝ} (hxc : x < c)
    (h : ∀ z, x < z → z < c → f.eval z ≠ 0) :
    (rootsBehind x f).card = (rootsBehind c f).card + if f.IsRoot c then 1 else 0 := by
  have hbehind : ∀ z, x < z → f.eval z = 0 → c ≤ z := fun z hxz h0 =>
    not_lt.mp fun hzc => h z hxz hzc h0
  by_cases hroot : f.IsRoot c
  · have hinsert : rootsBehind x f = insert c (rootsBehind c f) := by
      ext z
      rw [Finset.mem_insert, mem_rootsBehind hf, mem_rootsBehind hf]
      constructor
      · rintro ⟨hxz, h0⟩
        rcases eq_or_lt_of_le (hbehind z hxz h0) with rfl | hlt
        · exact Or.inl rfl
        · exact Or.inr ⟨hlt, h0⟩
      · rintro (rfl | ⟨hcz, h0⟩)
        · exact ⟨hxc, hroot⟩
        · exact ⟨hxc.trans hcz, h0⟩
    have hnotMem : c ∉ rootsBehind c f := fun hmem => lt_irrefl c ((mem_rootsBehind hf).mp hmem).1
    rw [hinsert, Finset.card_insert_of_notMem hnotMem, if_pos hroot]
  · have hsame : rootsBehind x f = rootsBehind c f := by
      ext z
      rw [mem_rootsBehind hf, mem_rootsBehind hf]
      constructor
      · rintro ⟨hxz, h0⟩
        exact ⟨lt_of_le_of_ne (hbehind z hxz h0) fun heq => hroot (heq ▸ h0), h0⟩
      · rintro ⟨hcz, h0⟩
        exact ⟨hxc.trans hcz, h0⟩
    rw [hsame, if_neg hroot, add_zero]

/-- The sign changes behind a point are those at infinity and one for each root behind the point. -/
theorem Remainders.flips_behind (h : Remainders a (derivative a) l) (x : ℝ) :
    flips (behind x a) (l.map (behind x)) =
      flips a.leadingCoeff (l.map leadingCoeff) + (rootsBehind x a).card := by
  have hne := h.ne_zero
  have hprod : (a :: l).prod ≠ 0 := List.prod_ne_zero fun h0 => hne 0 h0 rfl
  have hroots : ∀ f ∈ a :: l, ∀ z, f.eval z = 0 → (a :: l).prod.eval z = 0 := by
    intro f hf z hz
    obtain ⟨g, hg⟩ := List.dvd_prod hf
    rw [hg, eval_mul, hz, zero_mul]
  -- The induction is on the number of roots of all members behind the point.
  induction hn : (rootsBehind x (a :: l).prod).card using Nat.strong_induction_on generalizing x with
  | _ n ih =>
    by_cases hempty : rootsBehind x (a :: l).prod = ∅
    · have hnone : ∀ f ∈ a :: l, ∀ z, x < z → f.eval z ≠ 0 := by
        intro f hf z hz h0
        have hmem := (mem_rootsBehind hprod).mpr ⟨hz, hroots f hf z h0⟩
        rw [hempty] at hmem
        exact absurd hmem (Finset.notMem_empty z)
      have hcard : rootsBehind x a = ∅ := by
        apply Finset.eq_empty_of_forall_notMem
        intro z hz
        obtain ⟨hxz, h0⟩ := (mem_rootsBehind (hne a List.mem_cons_self)).mp hz
        exact hnone a List.mem_cons_self z hxz h0
      rw [hcard, Finset.card_empty, add_zero]
      exact flips_congr fun f hf => behind_mul_leadingCoeff (hnone f hf)
    · -- The first root of any member behind the point.
      set c := (rootsBehind x (a :: l).prod).min' (Finset.nonempty_iff_ne_empty.mpr hempty)
      have hc : c ∈ rootsBehind x (a :: l).prod := Finset.min'_mem _ _
      have hxc : x < c := ((mem_rootsBehind hprod).mp hc).1
      have hnone : ∀ f ∈ a :: l, ∀ z, x < z → z < c → f.eval z ≠ 0 := by
        intro f hf z hxz hzc h0
        have hmem := (mem_rootsBehind hprod).mpr ⟨hxz, hroots f hf z h0⟩
        exact absurd (Finset.min'_le _ z hmem) (not_le.mpr hzc)
      have hfewer : (rootsBehind c (a :: l).prod).card < n := by
        rw [← hn]
        apply Finset.card_lt_card
        rw [Finset.ssubset_iff_of_subset]
        · exact ⟨c, hc, fun hmem => lt_irrefl c ((mem_rootsBehind hprod).mp hmem).1⟩
        · intro z hz
          obtain ⟨hcz, h0⟩ := (mem_rootsBehind hprod).mp hz
          exact (mem_rootsBehind hprod).mpr ⟨hxc.trans hcz, h0⟩
      have hpass := h.flips_before c
      rw [jump_derivative (hne a List.mem_cons_self)] at hpass
      have hsigns : flips (behind x a) (l.map (behind x)) = flips (before c a) (l.map (before c)) :=
        flips_congr fun f hf => behind_mul_before hxc (hnone f hf)
      have hcard := card_rootsBehind (hne a List.mem_cons_self) hxc (hnone a List.mem_cons_self)
      have hlater := ih _ hfewer c rfl
      rw [hsigns, hcard]
      split_ifs at hpass ⊢ <;> omega

/-- Two numbers of which one is between two of opposite signs. -/
theorem opposite_between {x y : ℝ} (hx : x ≠ 0) (hy : y ≠ 0) :
    opposite x y + opposite y (-x) = opposite x (-x) := by
  have hself : opposite x (-x) = 1 := if_pos (by nlinarith [mul_self_pos.mpr hx])
  have hcomm : opposite x y = opposite y x := by rw [opposite, opposite, mul_comm]
  have hsum := opposite_neg_right hy hx
  omega

/-- At a point that is no root the members that vanish do not count. -/
theorem Remainders.flips_eval {a b : ℝ[X]} {l : List ℝ[X]} (h : Remainders a b l) (x : ℝ) :
    (a.eval x ≠ 0 → flips (a.eval x) (l.map (eval x)) = flips (behind x a) (l.map (behind x))) ∧
      (b.eval x ≠ 0 → ∀ u, flips u (l.map (eval x)) = flips u (l.map (behind x))) := by
  induction h with
  | last _ => exact ⟨fun _ => rfl, fun _ _ => rfl⟩
  | @step a b q r l ha hb division rest ih =>
    obtain ⟨ihb, ihr⟩ := ih
    have hsecond : b.eval x ≠ 0 → ∀ u, flips u ((b :: l).map (eval x)) =
        flips u ((b :: l).map (behind x)) := by
      intro hbx u
      rw [List.map_cons, List.map_cons, flips_cons_of_ne_zero hbx,
        flips_cons_of_ne_zero (behind_ne_zero x hb), ihb hbx, (behind_of_eval_ne_zero hbx).2]
    refine ⟨fun hax => ?_, hsecond⟩
    have hbehind := (behind_of_eval_ne_zero hax).2
    by_cases hbx : b.eval x = 0
    · -- The next remainder has the value of the first member with the other sign.
      have hrx : r.eval x = -a.eval x := by
        rw [division, eval_sub, eval_mul, hbx]
        ring
      have hrx0 : r.eval x ≠ 0 := by
        rw [hrx]
        exact neg_ne_zero.mpr hax
      have hskip : flips (a.eval x) ((b :: l).map (eval x)) = flips (a.eval x) (l.map (eval x)) := by
        rw [List.map_cons, flips, if_pos hbx]
      rw [hskip, ihr hrx0, hbehind, List.map_cons, flips_cons_of_ne_zero (behind_ne_zero x hb)]
      cases rest with
      | last _ => exact absurd eval_zero hrx0
      | step _ hr _ _ =>
        rw [List.map_cons, flips_cons_of_ne_zero (behind_ne_zero x hr),
          flips_cons_of_ne_zero (behind_ne_zero x hr), (behind_of_eval_ne_zero hrx0).2, hrx,
          ← opposite_between hax (behind_ne_zero x hb)]
        ring
    · rw [hbehind]
      exact hsecond hbx (a.eval x)

/-- Sturm's theorem: the sign changes at a point that is no root exceed those at infinity by the number
of roots behind the point. -/
theorem Remainders.flips_eval_eq {a : ℝ[X]} {l : List ℝ[X]} (h : Remainders a (derivative a) l)
    {x : ℝ} (hx : a.eval x ≠ 0) :
    flips (a.eval x) (l.map (eval x)) =
      flips a.leadingCoeff (l.map leadingCoeff) + (rootsBehind x a).card := by
  rw [(h.flips_eval x).1 hx, h.flips_behind x]

end Counting

end Sturm

end ProbLoop

end
