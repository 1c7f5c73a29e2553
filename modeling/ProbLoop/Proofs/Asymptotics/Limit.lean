import Mathlib.Analysis.SpecificLimits.Normed
import ProbLoop.Asymptotics.Limit
import ProbLoop.Proofs.Expr.Built
import ProbLoop.Proofs.Expr.RealValue

/-!
# Limits of expressions

An expression divided by the growth of its dominant part tends to the coefficient of that part. The
limits that are read off the dominant part are therefore right for all real values of the constants.
-/

set_option autoImplicit false

namespace ProbLoop

open Filter Topology

namespace Number

theorem abs_eq (q : Rat) : abs q = |q| := by
  unfold abs
  split
  · next h => exact (abs_of_neg h).symm
  · next h => exact (abs_of_nonneg (not_lt.mp h)).symm

end Number

namespace Growth

/-- The value of `n ^ degree * magnitude ^ n`. -/
noncomputable def value (g : Growth) (n : Nat) : ℝ :=
  (n : ℝ) ^ g.degree * (g.magnitude : ℝ) ^ n

/-- The order of growths, by magnitude and then by degree. -/
def LE (a b : Growth) : Prop :=
  a.magnitude < b.magnitude ∨ (a.magnitude = b.magnitude ∧ a.degree ≤ b.degree)

theorem cmp_isLE {a b : Growth} : (a.cmp b).isLE = true ↔ a.LE b := by
  rw [cmp, LE, Number.cmp_eq_compare]
  rcases lt_trichotomy a.magnitude b.magnitude with h | h | h
  · simp [compare_lt_iff_lt.mpr h, h]
  · simp [h, Nat.isLE_compare]
  · simp [compare_gt_iff_gt.mpr h, h.not_gt, h.ne']

theorem LE.refl (a : Growth) : a.LE a := Or.inr ⟨rfl, le_rfl⟩

theorem LE.trans {a b c : Growth} (hab : a.LE b) (hbc : b.LE c) : a.LE c := by
  unfold LE at *
  rcases hab with h | ⟨h, hd⟩ <;> rcases hbc with k | ⟨k, kd⟩
  · exact Or.inl (h.trans k)
  · exact Or.inl (h.trans_eq k)
  · exact Or.inl (h.trans_lt k)
  · exact Or.inr ⟨h.trans k, hd.trans kd⟩

theorem LE.total (a b : Growth) : a.LE b ∨ b.LE a := by
  unfold LE
  rcases lt_trichotomy a.magnitude b.magnitude with h | h | h
  · exact Or.inl (Or.inl h)
  · rcases Nat.le_total a.degree b.degree with hd | hd
    · exact Or.inl (Or.inr ⟨h, hd⟩)
    · exact Or.inr (Or.inr ⟨h.symm, hd⟩)
  · exact Or.inr (Or.inl h)

theorem le_max_left (a b : Growth) : a.LE (a.max b) := by
  unfold max
  split
  · next h => exact cmp_isLE.mp h
  · exact LE.refl a

theorem le_max_right (a b : Growth) : b.LE (a.max b) := by
  unfold max
  split
  · exact LE.refl b
  · next h => exact (LE.total a b).resolve_left fun hab => h (cmp_isLE.mpr hab)

theorem foldl_max (l : List Growth) (g : Growth) :
    g.LE (l.foldl max g) ∧ (∀ x ∈ l, x.LE (l.foldl max g)) ∧
      (l.foldl max g = g ∨ l.foldl max g ∈ l) := by
  induction l generalizing g with
  | nil => exact ⟨LE.refl g, by simp, Or.inl rfl⟩
  | cons x l ih =>
    obtain ⟨hg, hl, hmem⟩ := ih (g.max x)
    refine ⟨(le_max_left g x).trans hg, ?_, ?_⟩
    · intro y hy
      rcases List.mem_cons.mp hy with rfl | hy
      · exact (le_max_right g y).trans hg
      · exact hl y hy
    · rw [List.foldl_cons]
      rcases hmem with h | h
      · rw [h]
        unfold max
        split
        · exact Or.inr List.mem_cons_self
        · exact Or.inl rfl
      · exact Or.inr (List.mem_cons_of_mem x h)

/-- The largest growth is one of the list, and none is above it. -/
theorem largest?_spec {l : List Growth} {g : Growth} (h : largest? l = some g) :
    g ∈ l ∧ ∀ x ∈ l, x.LE g := by
  cases l with
  | nil => simp [largest?] at h
  | cons x l =>
    have hg : l.foldl max x = g := Option.some.inj h
    obtain ⟨hx, hl, hmem⟩ := foldl_max l x
    rw [hg] at hx hl hmem
    constructor
    · rcases hmem with rfl | hmem
      · exact List.mem_cons_self
      · exact List.mem_cons_of_mem x hmem
    · exact List.forall_mem_cons.mpr ⟨hx, hl⟩

theorem value_pos {g : Growth} (hg : 0 < g.magnitude) {n : Nat} (hn : 0 < n) : 0 < g.value n := by
  have hm : (0 : ℝ) < g.magnitude := by exact_mod_cast hg
  have hn' : (0 : ℝ) < n := by exact_mod_cast hn
  exact mul_pos (pow_pos hn' _) (pow_pos hm _)

/-- What grows more slowly vanishes against what grows faster. -/
theorem tendsto_div_value {g : Growth} (hg : 0 < g.magnitude) {b : Rat} {d : Nat}
    (h : (⟨|b|, d⟩ : Growth).LE g) (hne : (⟨|b|, d⟩ : Growth) ≠ g) :
    Tendsto (fun n : Nat => (n : ℝ) ^ d * (b : ℝ) ^ n / g.value n) atTop (𝓝 0) := by
  have hm : (0 : ℝ) < g.magnitude := by exact_mod_cast hg
  rcases h with h | ⟨h, hd⟩
  · have hb : |(b : ℝ)| < g.magnitude := by exact_mod_cast h
    have hr : |(b : ℝ) / g.magnitude| < 1 := by
      rw [abs_div, abs_of_pos hm, div_lt_one hm]
      exact hb
    have hfast := (tendsto_pow_const_mul_const_pow_of_abs_lt_one d hr).norm
    rw [norm_zero] at hfast
    apply squeeze_zero_norm' _ hfast
    filter_upwards [eventually_ge_atTop 1] with n hn
    have hpow : (1 : ℝ) ≤ (n : ℝ) ^ g.degree := one_le_pow₀ (by exact_mod_cast hn)
    have heq : (n : ℝ) ^ d * (b : ℝ) ^ n / g.value n =
        (n : ℝ) ^ d * ((b : ℝ) / g.magnitude) ^ n / (n : ℝ) ^ g.degree := by
      rw [value, div_pow]
      field_simp
    rw [heq, norm_div, Real.norm_of_nonneg (zero_le_one.trans hpow)]
    exact div_le_self (norm_nonneg _) hpow
  · have hb : |(b : ℝ)| = g.magnitude := by exact_mod_cast h
    have hlt : d + 1 ≤ g.degree := by
      apply Nat.lt_of_le_of_ne hd
      intro hdeg
      apply hne
      cases g
      simp_all
    apply squeeze_zero_norm' _ tendsto_one_div_atTop_nhds_zero_nat
    filter_upwards [eventually_ge_atTop 1] with n hn
    have hn' : (1 : ℝ) ≤ n := by exact_mod_cast hn
    have hpos := value_pos hg (n := n) (by omega)
    rw [norm_div, norm_mul, norm_pow, norm_pow, Real.norm_eq_abs (b : ℝ), hb, Real.norm_natCast,
      Real.norm_of_nonneg hpos.le, div_le_div_iff₀ hpos (by linarith), one_mul, value,
      mul_right_comm, ← pow_succ]
    apply mul_le_mul_of_nonneg_right _ (by positivity)
    exact pow_le_pow_right₀ hn' hlt

end Growth

namespace Expr

variable {x : RealValuation}

theorem sum_map_ite {α : Type} (keep : α → Bool) (f : α → ℝ) (l : List α) :
    (l.map fun a => if keep a = true then f a else 0).sum = ((l.filter keep).map f).sum := by
  induction l with
  | nil => rfl
  | cons a l ih =>
    rw [List.map_cons, List.sum_cons, ih, List.filter_cons]
    by_cases h : keep a = true
    · rw [if_pos h, if_pos h, List.map_cons, List.sum_cons]
    · rw [if_neg h, if_neg h, zero_add]

/-- The dominant part has the largest growth, and its coefficient is the sum of those of the terms
with this growth, unless one of them oscillates. -/
theorem dominant?_spec {e : Expr} {d : Dominant} (h : e.dominant? = some d) :
    (∃ t ∈ e.terms, Growth.ofMonomial t.1 = d.growth) ∧
    (∀ t ∈ e.terms, (Growth.ofMonomial t.1).LE d.growth) ∧
    (d.oscillates = false → (∀ t ∈ e.terms, Growth.ofMonomial t.1 = d.growth → 0 ≤ t.1.base) ∧
      ∀ n x, d.coefficient.realValue n x =
        ((e.terms.filter fun t => Growth.ofMonomial t.1 == d.growth).map fun t =>
          (t.2 : ℝ) * ((t.1.without .counter).withBase 1).realValue 0 x).sum) := by
  rw [dominant?, Option.map_eq_some_iff] at h
  obtain ⟨g, hg, rfl⟩ := h
  obtain ⟨hmem, hle⟩ := Growth.largest?_spec hg
  refine ⟨?_, fun t ht => hle _ (List.mem_map_of_mem ht), fun hosc => ?_⟩
  · obtain ⟨t, ht, htg⟩ := List.mem_map.mp hmem
    exact ⟨t, ht, htg⟩
  · have hbase : ∀ t ∈ e.terms.filter fun t => Growth.ofMonomial t.1 == g,
        0 ≤ t.1.base := by
      intro t ht
      have hnot := List.any_eq_false.mp hosc t ht
      simpa using hnot
    constructor
    · intro t ht htg
      exact hbase t (List.mem_filter.mpr ⟨ht, by simp [htg]⟩)
    · intro n x
      have hall : (e.terms.filter fun t => Growth.ofMonomial t.1 == g).filter
          (fun t => !decide (t.1.base < 0)) = e.terms.filter fun t => Growth.ofMonomial t.1 == g := by
        rw [List.filter_eq_self]
        intro t ht
        simp [not_lt.mpr (hbase t ht)]
      simp only [hall, realValue_ofTerms, List.map_map]
      refine congrArg List.sum (List.map_congr_left fun t _ => ?_)
      rw [Function.comp_apply, Monomial.realValue_still n x t.1 0]

/-- The growth of a dominant part that does not oscillate. -/
theorem magnitude_pos {e : Expr} (he : e.Canonical) {d : Dominant} (h : e.dominant? = some d) :
    0 < d.growth.magnitude := by
  obtain ⟨⟨t, ht, htg⟩, -⟩ := dominant?_spec h
  rw [← htg]
  change 0 < Number.abs t.1.base
  rw [Number.abs_eq, abs_pos]
  exact (he.monomials t ht).base_ne_zero

/-- Divided by the growth of the dominant part, an expression tends to the coefficient. -/
theorem tendsto_div_growth {e : Expr} (he : e.Canonical) {d : Dominant}
    (h : e.dominant? = some d) (hosc : d.oscillates = false) (m : Nat) :
    Tendsto (fun n => e.realValue n x / d.growth.value n) atTop
      (𝓝 (d.coefficient.realValue m x)) := by
  obtain ⟨-, hle, hspec⟩ := dominant?_spec h
  obtain ⟨hbase, hcoefficient⟩ := hspec hosc
  have hpos := magnitude_pos he h
  rw [hcoefficient m x, ← sum_map_ite]
  simp only [realValue_eq_sum _ x he, div_eq_mul_inv, ← List.sum_map_mul_right]
  apply tendsto_list_sum
  intro t ht
  by_cases htg : Growth.ofMonomial t.1 = d.growth
  · have hb : |t.1.base| = d.growth.magnitude := by
      rw [← htg, ← Number.abs_eq]
      rfl
    rw [abs_of_nonneg (hbase t ht htg)] at hb
    have hd : t.1.counterDegree = d.growth.degree := by
      rw [← htg]
      rfl
    rw [if_pos (by simpa using htg)]
    apply tendsto_const_nhds.congr'
    filter_upwards [eventually_ge_atTop 1] with n hn
    have hg := (Growth.value_pos hpos (n := n) (by omega)).ne'
    rw [hb, hd, ← Growth.value, ← div_eq_mul_inv, mul_div_cancel_left₀ _ hg]
  · rw [if_neg (by simpa using htg)]
    have hle' := hle t ht
    rw [Growth.ofMonomial, Number.abs_eq] at hle' htg
    have hvanish := (Growth.tendsto_div_value hpos hle' htg).mul_const
      (t.2 * ((t.1.without .counter).withBase 1).realValue 0 x)
    rw [zero_mul] at hvanish
    apply hvanish.congr
    intro n
    rw [div_mul_eq_mul_div, div_eq_mul_inv]

theorem tendsto_growth {g : Growth} (hone : ¬g.magnitude < 1)
    (h : ¬(g.magnitude = 1 ∧ g.degree = 0)) : Tendsto g.value atTop atTop := by
  have hm : (1 : ℝ) ≤ g.magnitude := by exact_mod_cast not_lt.mp hone
  by_cases hd : g.degree = 0
  · have hlt : (1 : ℝ) < g.magnitude := by
      apply lt_of_le_of_ne hm
      intro heq
      exact h ⟨by exact_mod_cast heq.symm, hd⟩
    have hvalue : g.value = fun n => (g.magnitude : ℝ) ^ n := by
      funext n
      rw [Growth.value, hd, pow_zero, one_mul]
    rw [hvalue]
    exact tendsto_pow_atTop_atTop_of_one_lt hlt
  · apply tendsto_atTop_mono _ ((tendsto_pow_atTop hd).comp tendsto_natCast_atTop_atTop)
    intro n
    rw [Growth.value]
    exact le_mul_of_one_le_right (pow_nonneg n.cast_nonneg g.degree) (one_le_pow₀ hm)

/-- Where the dominant part has a magnitude below one, the whole expression vanishes. -/
theorem tendsto_zero_of_magnitude {e : Expr} (he : e.Canonical) {d : Dominant}
    (h : e.dominant? = some d) (hsmall : d.growth.magnitude < 1) :
    Tendsto (fun n => e.realValue n x) atTop (𝓝 0) := by
  have hzero : (e.terms.map fun _ => (0 : ℝ)).sum = 0 := by simp
  simp only [realValue_eq_sum _ x he]
  rw [← hzero]
  apply tendsto_list_sum
  intro t ht
  have hle := (dominant?_spec h).2.1 t ht
  rw [Growth.ofMonomial, Number.abs_eq] at hle
  have hbase : |t.1.base| < 1 := by
    rcases hle with hlt | ⟨heq, -⟩
    · exact hlt.trans hsmall
    · exact heq.trans_lt hsmall
  have hb : |(t.1.base : ℝ)| < 1 := by exact_mod_cast hbase
  have hvanish := (tendsto_pow_const_mul_const_pow_of_abs_lt_one t.1.counterDegree hb).mul_const
    (t.2 * ((t.1.without .counter).withBase 1).realValue 0 x)
  rwa [zero_mul] at hvanish

/-- Where the growth of the dominant part is unbounded, the expression has its sign and is unbounded
as well. -/
theorem tendsto_infinite {e : Expr} (he : e.Canonical) {d : Dominant} (h : e.dominant? = some d)
    (hosc : d.oscillates = false) (hgrow : Tendsto d.growth.value atTop atTop) (m : Nat) :
    (0 < d.coefficient.realValue m x → Tendsto (fun n => e.realValue n x) atTop atTop) ∧
    (d.coefficient.realValue m x < 0 → Tendsto (fun n => e.realValue n x) atTop atBot) := by
  have hdiv := tendsto_div_growth (x := x) he h hosc m
  have hvalue : (fun n => e.realValue n x / d.growth.value n * d.growth.value n) =ᶠ[atTop]
      fun n => e.realValue n x := by
    filter_upwards [eventually_ge_atTop 1] with n hn
    exact div_mul_cancel₀ _ (Growth.value_pos (magnitude_pos he h) (n := n) (by omega)).ne'
  exact ⟨fun hpos => (hdiv.pos_mul_atTop hpos hgrow).congr' hvalue,
    fun hneg => (hdiv.neg_mul_atTop hneg hgrow).congr' hvalue⟩

theorem limit_of_dependsOnCounter {e : Expr} (h : e.dependsOnCounter = true) :
    ∃ d, e.dominant? = some d ∧ e.limit = dominantLimit d := by
  have hterms : e.growths ≠ [] := by
    obtain ⟨t, ht, -⟩ := List.any_eq_true.mp h
    intro hnil
    rw [growths, List.map_eq_nil_iff] at hnil
    rw [hnil] at ht
    exact List.not_mem_nil ht
  obtain ⟨g, rest, hg⟩ := List.exists_cons_of_ne_nil hterms
  obtain ⟨d, hd⟩ : ∃ d, e.dominant? = some d := by
    rw [dominant?, hg, Growth.largest?, Option.map_some]
    exact ⟨_, rfl⟩
  refine ⟨d, hd, ?_⟩
  rw [limit, if_pos h, hd]

/-- What does not depend on the counter is its own limit. -/
theorem limit_of_not_dependsOnCounter {e : Expr} (h : e.dependsOnCounter = false) :
    e.limit = .finite e := by
  rw [limit, if_neg (by simp [h])]

/-- The limits that are found, each with what is known of the expression then. -/
inductive LimitCase (e : Expr) : Limit → Prop
  | still (hdep : e.dependsOnCounter = false) : LimitCase e (.finite e)
  | vanishing {d : Dominant} (hd : e.dominant? = some d) (hsmall : d.growth.magnitude < 1) :
      LimitCase e (.finite zero)
  | oscillating : LimitCase e .undefined
  | level {d : Dominant} (hd : e.dominant? = some d) (hosc : d.oscillates = false)
      (hgrowth : d.growth = ⟨1, 0⟩) : LimitCase e (.finite d.coefficient)
  | rising {d : Dominant} (hd : e.dominant? = some d) (hosc : d.oscillates = false)
      (hgrow : Tendsto d.growth.value atTop atTop)
      (hsign : d.coefficient.sign? = some .positive) : LimitCase e .posInf
  | falling {d : Dominant} (hd : e.dominant? = some d) (hosc : d.oscillates = false)
      (hgrow : Tendsto d.growth.value atTop atTop)
      (hsign : d.coefficient.sign? = some .negative) : LimitCase e .negInf
  | signed {d : Dominant} (hd : e.dominant? = some d) (hosc : d.oscillates = false)
      (hgrow : Tendsto d.growth.value atTop atTop) : LimitCase e (.signedInf d.coefficient)

theorem limitCase (e : Expr) : LimitCase e e.limit := by
  cases hdep : e.dependsOnCounter with
  | false =>
    rw [limit_of_not_dependsOnCounter hdep]
    exact .still hdep
  | true =>
    obtain ⟨d, hd, hlimit⟩ := limit_of_dependsOnCounter hdep
    rw [hlimit, dominantLimit]
    split
    · next hsmall => exact .vanishing hd hsmall
    · next hsmall =>
      split
      · exact .oscillating
      · next hosc =>
        have hosc : d.oscillates = false := by simpa using hosc
        split
        · next hunit => exact .level hd hosc (by rw [← hunit.1, ← hunit.2])
        · next hunit =>
          have hgrow := tendsto_growth hsmall hunit
          split
          · next hsign => exact .rising hd hosc hgrow hsign
          · next hsign => exact .falling hd hosc hgrow hsign
          · exact .signed hd hosc hgrow

/-- A finite limit is right for all values of the constants. -/
theorem tendsto_real_of_limit_finite {e a : Expr} (he : e.Canonical) (h : e.limit = .finite a)
    (m : Nat) : Tendsto (fun n => e.realValue n x) atTop (𝓝 (a.realValue m x)) := by
  cases h ▸ limitCase e with
  | still hdep =>
    exact tendsto_const_nhds.congr fun n => realValue_of_not_dependsOnCounter m x he hdep n
  | vanishing hd hsmall => exact tendsto_zero_of_magnitude he hd hsmall
  | level hd hosc hgrowth =>
    simpa [hgrowth, Growth.value] using tendsto_div_growth (x := x) he hd hosc m

/-- An infinite limit is right for all admissible values of the constants. -/
theorem tendsto_real_of_limit_infinite {e : Expr} (he : e.Canonical) (hx : x.Admissible) :
    (e.limit = .posInf → Tendsto (fun n => e.realValue n x) atTop atTop) ∧
    (e.limit = .negInf → Tendsto (fun n => e.realValue n x) atTop atBot) := by
  constructor
  · intro h
    cases h ▸ limitCase e with
    | rising hd hosc hgrow hsign =>
      exact (tendsto_infinite he hd hosc hgrow 0).1 (realValue_pos_of_sign? hx hsign)
  · intro h
    cases h ▸ limitCase e with
    | falling hd hosc hgrow hsign =>
      exact (tendsto_infinite he hd hosc hgrow 0).2 (realValue_neg_of_sign? hx hsign)

/-- An infinite limit with the sign of a coefficient is right wherever the coefficient has a sign. -/
theorem tendsto_real_of_limit_signed {e c : Expr} (he : e.Canonical) (h : e.limit = .signedInf c)
    (m : Nat) :
    (0 < c.realValue m x → Tendsto (fun n => e.realValue n x) atTop atTop) ∧
    (c.realValue m x < 0 → Tendsto (fun n => e.realValue n x) atTop atBot) := by
  cases h ▸ limitCase e with
  | signed hd hosc hgrow => exact tendsto_infinite he hd hosc hgrow m

theorem tendsto_of_limit_finite {e a : Expr} (he : e.Canonical) (h : e.limit = .finite a)
    (v : Valuation) : Tendsto (fun n => (e.value n v : ℝ)) atTop (𝓝 (a.value 0 v : ℝ)) := by
  simpa only [realValue_cast] using tendsto_real_of_limit_finite (x := fun s => v s) he h 0

theorem tendsto_of_limit_infinite {e : Expr} (he : e.Canonical) {v : Valuation}
    (hv : v.Admissible) :
    (e.limit = .posInf → Tendsto (fun n => (e.value n v : ℝ)) atTop atTop) ∧
    (e.limit = .negInf → Tendsto (fun n => (e.value n v : ℝ)) atTop atBot) := by
  have hx : RealValuation.Admissible fun s => v s := fun name => Rat.cast_pos.mpr (hv name)
  simpa only [realValue_cast] using tendsto_real_of_limit_infinite he hx

/-- A limit that is given is right for all admissible real values of the symbols: the expression tends
to the value of a finite limit, to an infinite one, and to the infinity with the sign of the
coefficient wherever this is not zero. -/
theorem Built.tendsto_limit {e : Expr} (he : e.Built) (hx : x.Admissible) (m : Nat) :
    (∀ a, e.limit = .finite a →
      Tendsto (fun n => e.realValue n x) atTop (𝓝 (a.realValue m x))) ∧
    (e.limit = .posInf → Tendsto (fun n => e.realValue n x) atTop atTop) ∧
    (e.limit = .negInf → Tendsto (fun n => e.realValue n x) atTop atBot) ∧
    ∀ c, e.limit = .signedInf c →
      (0 < c.realValue m x → Tendsto (fun n => e.realValue n x) atTop atTop) ∧
      (c.realValue m x < 0 → Tendsto (fun n => e.realValue n x) atTop atBot) :=
  ⟨fun _ h => tendsto_real_of_limit_finite he.canonical h m,
    (tendsto_real_of_limit_infinite he.canonical hx).1,
    (tendsto_real_of_limit_infinite he.canonical hx).2,
    fun _ h => tendsto_real_of_limit_signed he.canonical h m⟩

/-- The sign of an infinite limit is that of a constant, here a positive irrational number. -/
theorem tendsto_limit_scaled :
    (ofSymbol (.real "x0") * counter * exponential 2 -
        counter.pow 3 * exponential (-3 / 2)).limit = .signedInf (ofSymbol (.real "x0")) ∧
      Tendsto (fun n => (ofSymbol (.real "x0") * counter * exponential 2 -
        counter.pow 3 * exponential (-3 / 2)).realValue n fun _ => Real.sqrt 2) atTop atTop := by
  have hlimit : (ofSymbol (.real "x0") * counter * exponential 2 -
      counter.pow 3 * exponential (-3 / 2)).limit = .signedInf (ofSymbol (.real "x0")) := by
    decide +kernel
  have hbuilt : (ofSymbol (.real "x0") * counter * exponential 2 -
      counter.pow 3 * exponential (-3 / 2)).Built :=
    .sub (.mul (.mul (.ofSymbol _) (.ofSymbol _)) (.exponential _))
      (.mul (.pow (.ofSymbol _) 3) (.exponential _))
  have hpositive : (0 : ℝ) < (ofSymbol (.real "x0")).realValue 0 fun _ => Real.sqrt 2 := by
    rw [realValue_ofSymbol]
    exact Real.sqrt_pos.mpr two_pos
  have hx : RealValuation.Admissible fun _ => Real.sqrt 2 := fun _ => Real.sqrt_pos.mpr two_pos
  exact ⟨hlimit, ((Built.tendsto_limit hbuilt hx 0).2.2.2 _ hlimit).1 hpositive⟩

end Expr

end ProbLoop
