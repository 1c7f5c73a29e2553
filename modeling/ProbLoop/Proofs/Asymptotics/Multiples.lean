import ProbLoop.Proofs.Asymptotics.Comparison
import ProbLoop.Proofs.Envelope.Counter

/-!
# What dominance says about values

An expression that dominates another one is, for large counters, on the outer side of a positive multiple
of it, unless both tend to zero. For expressions in the counter the converse holds: where dominance is
denied there is no such multiple.
-/

set_option autoImplicit false

namespace ProbLoop

open Filter Topology

/-! ### Multiples of sequences -/

section Sequences

variable {F G : Nat → ℝ} {a b κ μ : ℝ} {k l : Growth}

/-- In the end the first sequence is at least a positive multiple of the second. -/
def AboveMultiple (F G : Nat → ℝ) : Prop :=
  ∃ c : Rat, 0 < c ∧ ∀ᶠ n in atTop, c * G n ≤ F n

/-- A positive multiple that keeps a number below a positive one. -/
theorem exists_rat_mul_lt (ha : 0 < a) (b : ℝ) : ∃ c : Rat, 0 < c ∧ (c : ℝ) * b < a := by
  have hden : 0 < |b| + 1 := by positivity
  obtain ⟨c, hc, hlt⟩ := exists_rat_btwn (div_pos ha hden)
  refine ⟨c, by exact_mod_cast hc, ?_⟩
  calc (c : ℝ) * b ≤ c * |b| := mul_le_mul_of_nonneg_left (le_abs_self b) hc.le
    _ < c * (|b| + 1) := mul_lt_mul_of_pos_left (lt_add_one _) hc
    _ < a := (lt_div_iff₀ hden).mp hlt

theorem aboveMultiple_of_lt (hF : Tendsto F atTop (𝓝 a)) (hG : Tendsto G atTop (𝓝 b)) {c : Rat}
    (hc : 0 < c) (h : (c : ℝ) * b < a) : AboveMultiple F G :=
  ⟨c, hc, ((hG.const_mul (c : ℝ)).eventually_lt hF h).mono fun _ hn => hn.le⟩

/-- Turning both sequences over swaps their parts. -/
theorem AboveMultiple.swap (h : AboveMultiple F G) :
    AboveMultiple (fun n => -G n) fun n => -F n := by
  obtain ⟨c, hc, hle⟩ := h
  refine ⟨c⁻¹, inv_pos.mpr hc, hle.mono fun n hn => ?_⟩
  have hc' : (0 : ℝ) < c := by exact_mod_cast hc
  rw [Rat.cast_inv, mul_neg, neg_le_neg_iff, ← div_eq_inv_mul, le_div_iff₀ hc', mul_comm]
  exact hn

/-- Of limits other than two zeros, one has to be on the side that allows a multiple. -/
theorem aboveMultiple_iff_of_tendsto (hF : Tendsto F atTop (𝓝 a)) (hG : Tendsto G atTop (𝓝 b))
    (h0 : ¬(a = 0 ∧ b = 0)) : AboveMultiple F G ↔ 0 < a ∨ b < 0 := by
  constructor
  · rintro ⟨c, hc, hle⟩
    have hlimit : (c : ℝ) * b ≤ a := le_of_tendsto_of_tendsto (hG.const_mul _) hF hle
    have hc' : (0 : ℝ) < c := by exact_mod_cast hc
    by_contra hnot
    obtain ⟨ha, hb⟩ := not_or.mp hnot
    have hcb : 0 ≤ (c : ℝ) * b := mul_nonneg hc'.le (not_lt.mp hb)
    have ha0 : a = 0 := le_antisymm (not_lt.mp ha) (hcb.trans hlimit)
    have hb0 : (c : ℝ) * b = 0 := le_antisymm (hlimit.trans ha0.le) hcb
    exact h0 ⟨ha0, (mul_eq_zero.mp hb0).resolve_left hc'.ne'⟩
  · rintro (ha | hb)
    · obtain ⟨c, hc, hlt⟩ := exists_rat_mul_lt ha b
      exact aboveMultiple_of_lt hF hG hc hlt
    · obtain ⟨c, hc, hlt⟩ := exists_rat_mul_lt (neg_pos.mpr hb) (-a)
      have hswap := (aboveMultiple_of_lt hG.neg hF.neg hc hlt).swap
      simpa only [neg_neg] using hswap

theorem aboveMultiple_of_atTop (hF : Tendsto F atTop atTop) {C : ℝ} (hG : ∀ᶠ n in atTop, G n ≤ C) :
    AboveMultiple F G := by
  refine ⟨1, one_pos, ?_⟩
  filter_upwards [hF.eventually_ge_atTop C, hG] with n hn hle
  rw [Rat.cast_one, one_mul]
  exact hle.trans hn

theorem not_aboveMultiple_of_atTop (hG : Tendsto G atTop atTop) {C : ℝ}
    (hF : ∀ᶠ n in atTop, F n ≤ C) : ¬AboveMultiple F G := by
  rintro ⟨c, hc, hle⟩
  have hc' : (0 : ℝ) < c := by exact_mod_cast hc
  obtain ⟨n, hn, hlarge, hsmall⟩ := (hle.and
    (((hG.const_mul_atTop hc').eventually_gt_atTop C).and hF)).exists
  linarith

/-- What has a slower growth vanishes against a faster one. -/
theorem tendsto_div_faster (hk : 0 < k.magnitude) (hl : 0 < l.magnitude) (hle : l.LE k)
    (hne : l ≠ k) (hG : Tendsto (fun n => G n / l.value n) atTop (𝓝 μ)) :
    Tendsto (fun n => G n / k.value n) atTop (𝓝 0) := by
  have habs : (⟨|l.magnitude|, l.degree⟩ : Growth) = l := by rw [abs_of_pos hl]
  have hvanish : Tendsto (fun n => l.value n / k.value n) atTop (𝓝 0) :=
    Growth.tendsto_div_value hk (b := l.magnitude) (habs.symm ▸ hle) (habs.symm ▸ hne)
  have hproduct := hG.mul hvanish
  rw [mul_zero] at hproduct
  refine hproduct.congr' ?_
  filter_upwards [eventually_ge_atTop 1] with n hn
  exact div_mul_div_cancel₀ (Growth.value_pos hl (by omega)).ne'

theorem aboveMultiple_div_iff (hk : 0 < k.magnitude) :
    AboveMultiple (fun n => F n / k.value n) (fun n => G n / k.value n) ↔ AboveMultiple F G := by
  refine exists_congr fun c => and_congr_right fun _ => eventually_congr ?_
  filter_upwards [eventually_ge_atTop 1] with n hn
  rw [← mul_div_assoc, div_le_div_iff_of_pos_right (Growth.value_pos hk (by omega))]

/-- Between sequences that grow with positive factors the growths decide. -/
theorem aboveMultiple_iff_of_growth (hk : 0 < k.magnitude) (hl : 0 < l.magnitude)
    (hF : Tendsto (fun n => F n / k.value n) atTop (𝓝 κ)) (hκ : 0 < κ)
    (hG : Tendsto (fun n => G n / l.value n) atTop (𝓝 μ)) (hμ : 0 < μ) :
    AboveMultiple F G ↔ l.LE k := by
  by_cases hlk : l = k
  · subst hlk
    rw [← aboveMultiple_div_iff hl, aboveMultiple_iff_of_tendsto hF hG fun h => hκ.ne' h.1]
    exact ⟨fun _ => .refl l, fun _ => Or.inl hκ⟩
  constructor
  · intro h
    refine (Growth.LE.total l k).resolve_right fun hkl => ?_
    have hvanish := tendsto_div_faster hl hk hkl (Ne.symm hlk) hF
    rw [← aboveMultiple_div_iff hl,
      aboveMultiple_iff_of_tendsto hvanish hG fun h => hμ.ne' h.2] at h
    exact h.elim (lt_irrefl 0) hμ.not_gt
  · intro hle
    have hvanish := tendsto_div_faster hk hl hle hlk hG
    rw [← aboveMultiple_div_iff hk, aboveMultiple_iff_of_tendsto hF hvanish fun h => hκ.ne' h.1]
    exact Or.inl hκ

end Sequences

/-! ### Values on the outer side -/

/-- The first number is not before the second in the given direction. -/
def Direction.Beyond : Direction → ℝ → ℝ → Prop
  | up, a, b => b ≤ a
  | down, a, b => a ≤ b

theorem Direction.beyond_iff (direction : Direction) (a b : ℝ) :
    direction.Beyond a b ↔ (direction.factor : ℝ) * b ≤ direction.factor * a := by
  cases direction <;> simp [Beyond, factor]

namespace Expr

variable {direction side : Direction} {e f g : Expr} {k l : Growth} {x : RealValuation}

/-- For large counters the first expression is on the outer side of a positive multiple of the second,
for the given values of the symbols. -/
def Outweighs (f g : Expr) (direction : Direction) (x : RealValuation) : Prop :=
  ∃ c : Rat, 0 < c ∧ ∃ N, ∀ n, N ≤ n →
    direction.Beyond (f.realValue n x) (c * g.realValue n x)

theorem outweighs_iff : f.Outweighs g direction x ↔
    AboveMultiple (fun n => direction.factor * f.realValue n x)
      (fun n => direction.factor * g.realValue n x) := by
  simp only [Outweighs, AboveMultiple, direction.beyond_iff, eventually_atTop,
    mul_left_comm (direction.factor : ℝ)]

/-! ### Values in the long run -/

theorem realValue_of_sign? (hx : x.Admissible) {n : Nat} (h : e.sign? = some direction.sign) :
    0 < (direction.factor : ℝ) * e.realValue n x := by
  cases direction with
  | up => simpa [Direction.factor] using realValue_pos_of_sign? (n := n) hx h
  | down => simpa [Direction.factor] using realValue_neg_of_sign? (n := n) hx h

theorem tendsto_outer (he : e.Canonical) (hx : x.Admissible)
    (h : e.limit = .infinite direction) :
    Tendsto (fun n => (direction.factor : ℝ) * e.realValue n x) atTop atTop := by
  cases direction with
  | up => simpa [Direction.factor] using (tendsto_real_of_limit_infinite he hx).1 h
  | down =>
    simp only [Direction.factor, Rat.cast_neg, Rat.cast_one, neg_one_mul]
    exact tendsto_neg_atBot_atTop.comp ((tendsto_real_of_limit_infinite he hx).2 h)

theorem tendsto_inner (he : e.Canonical) (hx : x.Admissible)
    (h : e.limit = .infinite direction.opposite) :
    Tendsto (fun n => -((direction.factor : ℝ) * e.realValue n x)) atTop atTop := by
  have houter := tendsto_outer he hx h
  simpa only [direction.factor_opposite, Rat.cast_neg, neg_mul] using houter

theorem tendsto_finite (he : e.Canonical) {a : Expr} (h : e.limit = .finite a) :
    Tendsto (fun n => (direction.factor : ℝ) * e.realValue n x) atTop
      (𝓝 (direction.factor * a.realValue 0 x)) :=
  (tendsto_real_of_limit_finite he h 0).const_mul _

theorem eventually_le_of_tendsto {F : Nat → ℝ} {a : ℝ} (h : Tendsto F atTop (𝓝 a)) :
    ∀ᶠ n in atTop, F n ≤ a + 1 :=
  (h.eventually_lt_const (lt_add_one a)).mono fun _ hn => hn.le

/-- Divided by the growth of its dominant part, an expression tends to a number on the side of the
part's coefficient. -/
theorem Leads.tendsto_div (he : e.Canonical) (hx : x.Admissible) (h : e.Leads side k) :
    ∃ κ : ℝ, 0 < κ ∧
      Tendsto (fun n => (side.factor : ℝ) * e.realValue n x / k.value n) atTop (𝓝 κ) := by
  obtain ⟨d, hd, hosc, rfl, hsign⟩ := h
  refine ⟨_, realValue_of_sign? hx (n := 0) hsign, ?_⟩
  exact ((tendsto_div_growth he hd hosc 0).const_mul _).congr fun n => (mul_div_assoc _ _ _).symm

theorem aboveMultiple_iff_of_diverges (hf : f.Canonical) (hg : g.Canonical) (hx : x.Admissible)
    (hk : f.Diverges side k) (hl : g.Diverges side l) :
    AboveMultiple (fun n => direction.factor * f.realValue n x)
      (fun n => direction.factor * g.realValue n x) ↔
        if side = direction then l.LE k else k.LE l := by
  have hk0 := hk.leads.magnitude_pos hf
  have hl0 := hl.leads.magnitude_pos hg
  obtain ⟨κ, hκ, hF⟩ := hk.leads.tendsto_div hf hx
  obtain ⟨μ, hμ, hG⟩ := hl.leads.tendsto_div hg hx
  rcases direction.eq_or_eq_opposite side with rfl | rfl
  · rw [if_pos rfl]
    exact aboveMultiple_iff_of_growth hk0 hl0 hF hκ hG hμ
  · -- On the inner side the two sequences are turned over, which swaps them.
    rw [if_neg direction.opposite_ne, ← aboveMultiple_iff_of_growth hl0 hk0 hG hμ hF hκ]
    simp only [direction.factor_opposite, Rat.cast_neg, neg_mul]
    exact ⟨fun h => h.swap, fun h => by simpa only [neg_neg] using h.swap⟩

/-- On the outer side a sequence is bounded unless it diverges there. -/
theorem eventually_le_of_not_outer (he : e.Canonical) (hx : x.Admissible)
    (h : (∃ a, e.limit = .finite a) ∨ e.limit = .infinite direction.opposite) :
    ∃ C : ℝ, ∀ᶠ n in atTop, (direction.factor : ℝ) * e.realValue n x ≤ C := by
  rcases h with ⟨a, ha⟩ | h
  · exact ⟨_, eventually_le_of_tendsto (tendsto_finite he ha)⟩
  · exact ⟨0, ((tendsto_inner he hx h).eventually_ge_atTop 0).mono fun n hn => neg_nonneg.mp hn⟩

theorem eventually_neg_le_of_finite (direction : Direction) (x : RealValuation) (he : e.Canonical)
    (h : ∃ a, e.limit = .finite a) :
    ∃ C : ℝ, ∀ᶠ n in atTop, -((direction.factor : ℝ) * e.realValue n x) ≤ C := by
  obtain ⟨a, ha⟩ := h
  exact ⟨_, eventually_le_of_tendsto (tendsto_finite he ha).neg⟩

/-! ### Dominance and multiples -/

section Apart

variable {i j : Int} (hf : f.Canonical) (hg : g.Canonical) (hx : x.Admissible)
  (hi : f.limit.rank? = some i) (hj : g.limit.rank? = some j)

include hf hg hx hi hj

/-- Limits that are apart leave room for every multiple. -/
theorem aboveMultiple_of_apart (h : direction.factor * j < direction.factor * i) :
    AboveMultiple (fun n => direction.factor * f.realValue n x)
      (fun n => direction.factor * g.realValue n x) := by
  rcases Limit.cases_of_apart hi hj h with ⟨houter, hrest⟩ | ⟨hfinite, hinner⟩
  · obtain ⟨C, hC⟩ := eventually_le_of_not_outer hg hx hrest
    exact aboveMultiple_of_atTop (tendsto_outer hf hx houter) hC
  · obtain ⟨C, hC⟩ := eventually_neg_le_of_finite direction x hf hfinite
    simpa only [neg_neg] using (aboveMultiple_of_atTop (tendsto_inner hg hx hinner) hC).swap

/-- Limits that are apart the other way leave no room for any multiple. -/
theorem not_aboveMultiple_of_apart (h : direction.factor * i < direction.factor * j) :
    ¬AboveMultiple (fun n => direction.factor * f.realValue n x)
      (fun n => direction.factor * g.realValue n x) := by
  rcases Limit.cases_of_apart hj hi h with ⟨houter, hrest⟩ | ⟨hfinite, hinner⟩
  · obtain ⟨C, hC⟩ := eventually_le_of_not_outer hf hx hrest
    exact not_aboveMultiple_of_atTop (tendsto_outer hg hx houter) hC
  · obtain ⟨C, hC⟩ := eventually_neg_le_of_finite direction x hg hfinite
    exact fun hmultiple =>
      not_aboveMultiple_of_atTop (tendsto_inner hf hx hinner) hC hmultiple.swap

end Apart

theorem aboveMultiple_iff_of_finite (hf : f.Canonical) (hg : g.Canonical) {a b : Expr}
    (ha : f.limit = .finite a) (hb : g.limit = .finite b)
    (h0 : ¬(a.realValue 0 x = 0 ∧ b.realValue 0 x = 0)) :
    AboveMultiple (fun n => direction.factor * f.realValue n x)
      (fun n => direction.factor * g.realValue n x) ↔
        0 < (direction.factor : ℝ) * a.realValue 0 x ∨
          (direction.factor : ℝ) * b.realValue 0 x < 0 := by
  have hfactor : (direction.factor : ℝ) ≠ 0 := by exact_mod_cast direction.factor_ne_zero
  refine aboveMultiple_iff_of_tendsto (tendsto_finite hf ha) (tendsto_finite hg hb) fun h => h0 ?_
  exact ⟨(mul_eq_zero.mp h.1).resolve_left hfactor, (mul_eq_zero.mp h.2).resolve_left hfactor⟩

/-- A limit that dominates another one is on the outer side of zero, or the other one on the inner
side, unless both are zero. -/
theorem outer_or_inner_of_dominatesFinite (hx : x.Admissible) {a b : Expr} (ha : a.Ordered)
    (hb : b.Ordered) (h : dominatesFinite a b direction = true)
    (h0 : ¬(a.realValue 0 x = 0 ∧ b.realValue 0 x = 0)) :
    0 < (direction.factor : ℝ) * a.realValue 0 x ∨
      (direction.factor : ℝ) * b.realValue 0 x < 0 := by
  by_contra hnot
  obtain ⟨houter, hinner⟩ := not_or.mp hnot
  rcases (dominatesFinite_iff ha hb).mp h with rfl | hsign | hsign | hsign
  · have hzero : (direction.factor : ℝ) * a.realValue 0 x = 0 :=
      le_antisymm (not_lt.mp houter) (not_lt.mp hinner)
    have hfactor : (direction.factor : ℝ) ≠ 0 := by exact_mod_cast direction.factor_ne_zero
    have ha0 := (mul_eq_zero.mp hzero).resolve_left hfactor
    exact h0 ⟨ha0, ha0⟩
  · exact houter (realValue_of_sign? hx hsign)
  · have hpos := realValue_of_sign? (n := 0) hx hsign
    rw [direction.factor_opposite, Rat.cast_neg, neg_mul, neg_pos] at hpos
    exact hinner hpos
  · have hpos := realValue_of_sign? (n := 0) hx hsign
    rw [realValue_sub, mul_sub, sub_pos] at hpos
    exact hpos.not_ge ((not_lt.mp houter).trans (not_lt.mp hinner))

theorem outweighs_of_dominates (hf : f.Canonical) (hg : g.Canonical) (hx : x.Admissible)
    (h : f.dominates g direction = true)
    (h0 : ¬(Tendsto (fun n => f.realValue n x) atTop (𝓝 0) ∧
      Tendsto (fun n => g.realValue n x) atTop (𝓝 0))) : f.Outweighs g direction x := by
  rw [outweighs_iff]
  cases dominates_iff.mp h with
  | same heq =>
    subst heq
    exact ⟨1, one_pos, Eventually.of_forall fun n => by rw [Rat.cast_one, one_mul]⟩
  | @finite a b ha hb hab =>
    have hlimits : ¬(a.realValue 0 x = 0 ∧ b.realValue 0 x = 0) := by
      rintro ⟨ha0, hb0⟩
      have hfa := tendsto_real_of_limit_finite (x := x) hf ha 0
      have hgb := tendsto_real_of_limit_finite (x := x) hg hb 0
      rw [ha0] at hfa
      rw [hb0] at hgb
      exact h0 ⟨hfa, hgb⟩
    exact (aboveMultiple_iff_of_finite hf hg ha hb hlimits).mpr
      (outer_or_inner_of_dominatesFinite hx (ordered_of_limit_finite hf ha)
        (ordered_of_limit_finite hg hb) hab hlimits)
  | apart hi hj hlt => exact aboveMultiple_of_apart hf hg hx hi hj hlt
  | infinite hk hl hkl => exact (aboveMultiple_iff_of_diverges hf hg hx hk hl).mpr hkl

/-! ### Expressions in the counter -/

/-- Where no symbol occurs but the counter, a limit has a place on the extended line unless the
expression oscillates. -/
theorem exists_rank?_of_counting (he : e.Canonical) (hcounting : e.All Monomial.Counting)
    (h : e.limit ≠ .undefined) : ∃ i, e.limit.rank? = some i := by
  cases hlimit : e.limit with
  | finite a => exact ⟨0, rfl⟩
  | posInf => exact ⟨1, rfl⟩
  | negInf => exact ⟨-1, rfl⟩
  | undefined => exact absurd hlimit h
  | signedInf c =>
    obtain ⟨d, hd, hosc, rfl, -, -, hsign⟩ := dominant_of_limit_signedInf hlimit
    obtain ⟨q, hq⟩ := dominant?_counting hcounting hd
    have hne := coefficient_ne_zero he hd hosc
    rw [hq] at hne hsign
    rcases lt_trichotomy q 0 with hq0 | hq0 | hq0
    · exact absurd ((sign?_const q).trans (by rw [Sign.of_eq_negative.mpr hq0]; rfl)) (hsign .down)
    · exact absurd (by rw [hq0]; rfl) hne
    · exact absurd ((sign?_const q).trans (by rw [Sign.of_eq_positive.mpr hq0]; rfl)) (hsign .up)

theorem dominatesFinite_const {p q : Rat}
    (h : 0 < direction.factor * p ∨ direction.factor * q < 0) :
    dominatesFinite (const p) (const q) direction = true := by
  refine (dominatesFinite_iff (canonical_const p).toOrdered (canonical_const q).toOrdered).mpr
    (Or.inr ?_)
  rw [sign?_const, sign?_const, Option.some.injEq, Option.some.injEq, direction.of_eq_sign,
    Direction.of_eq_sign, direction.factor_opposite, neg_mul, neg_pos]
  exact h.imp_right Or.inl

/-- For expressions in the counter dominance is not denied without reason. -/
theorem dominates_of_outweighs (hf : f.Canonical) (hg : g.Canonical) (hx : x.Admissible)
    (hfc : f.All Monomial.Counting) (hgc : g.All Monomial.Counting) (hfu : f.limit ≠ .undefined)
    (hgu : g.limit ≠ .undefined) (h0 : ¬(f.limit.isZero = true ∧ g.limit.isZero = true))
    (h : f.Outweighs g direction x) : f.dominates g direction = true := by
  rw [outweighs_iff] at h
  obtain ⟨i, hi⟩ := exists_rank?_of_counting hf hfc hfu
  obtain ⟨j, hj⟩ := exists_rank?_of_counting hg hgc hgu
  rw [dominates_iff]
  rcases lt_trichotomy (direction.factor * j) (direction.factor * i) with hlt | heq | hlt
  · exact .apart hi hj hlt
  · obtain rfl : j = i := by exact_mod_cast mul_left_cancel₀ direction.factor_ne_zero heq
    rcases Limit.cases_of_rank? hi hj with ⟨a, b, ha, hb⟩ | ⟨side, hside, hside'⟩
    · obtain ⟨p, rfl⟩ := (limit_counting hf.toOrdered hfc).1 a ha
      obtain ⟨q, rfl⟩ := (limit_counting hg.toOrdered hgc).1 b hb
      rw [aboveMultiple_iff_of_finite hf hg ha hb, realValue_const, realValue_const] at h
      · exact .finite ha hb (dominatesFinite_const (by exact_mod_cast h))
      · rw [realValue_const, realValue_const]
        rintro ⟨hp, hq⟩
        have hp0 : p = 0 := by exact_mod_cast hp
        have hq0 : q = 0 := by exact_mod_cast hq
        rw [ha, hb, hp0, hq0] at h0
        exact h0 ⟨rfl, rfl⟩
    · obtain ⟨k, hk⟩ := exists_diverges hside
      obtain ⟨l, hl⟩ := exists_diverges hside'
      exact .infinite hk hl ((aboveMultiple_iff_of_diverges hf hg hx hk hl).mp h)
  · exact absurd h (not_aboveMultiple_of_apart hf hg hx hi hj hlt)

/-- Dominance means what it says: whatever the values of the symbols, an expression that dominates
another one outweighs it, unless both tend to zero. Conversely, of two expressions in the counter whose
limits are defined and not both zero, one that outweighs the other dominates it. -/
theorem Built.dominates_outweighs (hf : f.Built) (hg : g.Built) (direction : Direction)
    (hx : x.Admissible) :
    (f.dominates g direction = true →
      ¬(Tendsto (fun n => f.realValue n x) atTop (𝓝 0) ∧
        Tendsto (fun n => g.realValue n x) atTop (𝓝 0)) → f.Outweighs g direction x) ∧
    ((∀ s ∈ f.freeSymbols, s = .counter) → (∀ s ∈ g.freeSymbols, s = .counter) →
      f.limit ≠ .undefined → g.limit ≠ .undefined →
      ¬(f.limit.isZero = true ∧ g.limit.isZero = true) →
      f.dominates g direction = false → ¬f.Outweighs g direction x) := by
  refine ⟨outweighs_of_dominates hf.canonical hg.canonical hx,
    fun hfs hgs hfu hgu h0 hnot houtweighs => ?_⟩
  have hcounting : ∀ e : Expr, (∀ s ∈ e.freeSymbols, s = .counter) → e.All Monomial.Counting :=
    fun e he => counting_of_freeSymbols (List.all_eq_true.mpr fun s hs => by rw [he s hs]; rfl)
  have hdominates := dominates_of_outweighs hf.canonical hg.canonical hx (hcounting f hfs)
    (hcounting g hgs) hfu hgu h0 houtweighs
  rw [hnot] at hdominates
  exact Bool.false_ne_true hdominates

/-- Toward negative infinity an exponential with a positive constant outweighs what falls as a power, for
every value of the constants, and a linear expression does not outweigh a quadratic one. -/
theorem outweighs_falling :
    (counter.pow 3 - ofSymbol (.positive "c") * counter * exponential 2).dominates
        (ofSymbol (.real "r") - counter.pow 2) .down = true ∧
      (counter.pow 3 - ofSymbol (.positive "c") * counter * exponential 2).Outweighs
        (ofSymbol (.real "r") - counter.pow 2) .down (fun _ => Real.sqrt 2) ∧
      (-counter).dominates (-counter.pow 2) .down = false ∧
      ¬(-counter).Outweighs (-counter.pow 2) .down fun _ => Real.sqrt 2 := by
  have hx : RealValuation.Admissible fun _ => Real.sqrt 2 := fun _ => Real.sqrt_pos.mpr two_pos
  have hf : (counter.pow 3 - ofSymbol (.positive "c") * counter * exponential 2).Built :=
    .sub (.pow (.ofSymbol _) 3) (.mul (.mul (.ofSymbol _) (.ofSymbol _)) (.exponential _))
  have hg : (ofSymbol (.real "r") - counter.pow 2).Built :=
    .sub (.ofSymbol _) (.pow (.ofSymbol _) 2)
  have hdominates : (counter.pow 3 - ofSymbol (.positive "c") * counter * exponential 2).dominates
      (ofSymbol (.real "r") - counter.pow 2) .down = true := by decide +kernel
  have hlimit : (ofSymbol (.real "r") - counter.pow 2).limit = .negInf := by decide +kernel
  have hnot : (-counter).dominates (-counter.pow 2) .down = false := by decide +kernel
  refine ⟨hdominates, (Built.dominates_outweighs hf hg .down hx).1 hdominates fun h => ?_, hnot,
    (Built.dominates_outweighs (.neg (.ofSymbol _)) (.neg (.pow (.ofSymbol _) 2)) .down hx).2
      (by decide +kernel) (by decide +kernel) (by decide +kernel) (by decide +kernel)
      (by decide +kernel) hnot⟩
  exact not_tendsto_nhds_of_tendsto_atBot
    ((tendsto_real_of_limit_infinite hg.canonical hx).2 hlimit) _ h.2

end Expr

end ProbLoop
