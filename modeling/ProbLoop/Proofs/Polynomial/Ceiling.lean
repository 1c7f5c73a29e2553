import Mathlib
import ProbLoop.Proofs.Asymptotics.Limit
import ProbLoop.Proofs.Polynomial.Roots

/-!
# The ceiling of the roots

The search for the first natural number above which there is no root keeps a pair of numbers with a root
above the low one and, unless it is the top of the search, none above the high one. It ends with neighbours.
The top is Cauchy's bound, if that fits in 64 bits. Above the ceiling a polynomial has the sign of its
leading coefficient.
-/

set_option autoImplicit false

section

open Polynomial

namespace ProbLoop

/-- The roots of a real polynomial are small, if its coefficients are small against the leading one. -/
theorem abs_root_lt {f : ℝ[X]} (hf : f ≠ 0) {b z : ℝ} (hb : 1 ≤ b)
    (h : ∀ k < f.natDegree, |f.coeff k| ≤ (b - 1) * |f.leadingCoeff|) (hz : f.eval z = 0) :
    |z| < b := by
  have hlead : 0 < ‖f.leadingCoeff‖₊ := nnnorm_pos.mpr (leadingCoeff_ne_zero.mpr hf)
  have hsup : (Finset.range f.natDegree).sup (fun k => ‖f.coeff k‖₊) ≤
      (b - 1).toNNReal * ‖f.leadingCoeff‖₊ := by
    refine Finset.sup_le fun k hk => ?_
    rw [← NNReal.coe_le_coe, NNReal.coe_mul, Real.coe_toNNReal _ (sub_nonneg.mpr hb), coe_nnnorm,
      coe_nnnorm]
    exact h k (Finset.mem_range.mp hk)
  have hbound : (cauchyBound f : ℝ) ≤ b := by
    have hdiv := NNReal.coe_le_coe.mpr ((div_le_iff₀ hlead).mpr hsup)
    rw [Real.coe_toNNReal _ (sub_nonneg.mpr hb)] at hdiv
    rw [cauchyBound, NNReal.coe_add, NNReal.coe_one]
    linarith
  have hlt := NNReal.coe_lt_coe.mpr (IsRoot.norm_lt_cauchyBound hf hz)
  exact hlt.trans_le hbound

end ProbLoop

namespace ProbLoop.Polynomial

open Sturm

variable {p : ProbLoop.Polynomial} {x y : ℝ}

/-- Above the point there is no root. -/
def ClearAbove (p : ProbLoop.Polynomial) (x : ℝ) : Prop := ∀ z, x < z → p.toReal.eval z ≠ 0

theorem ClearAbove.mono (h : p.ClearAbove x) (hxy : x ≤ y) : p.ClearAbove y :=
  fun z hz => h z (hxy.trans_lt hz)

theorem Proper.rootsAbove_natCast_eq_zero_iff (hp : p.Proper) (m : Nat) :
    p.rootsAbove m = 0 ↔ p.ClearAbove m := by
  rw [hp.rootsAbove_eq_zero_iff, Rat.cast_natCast]
  rfl

/-! ### Cauchy's bound -/

theorem cauchyBound_spec {rest : List Rat} (h : p.coefficients.reverse = p.leading :: rest) :
    1 ≤ p.cauchyBound ∧ ∀ c ∈ rest, |c / p.leading| ≤ p.cauchyBound - 1 := by
  have hmaximum : p.cauchyBound =
      1 + (Number.maximum? (rest.map fun c => Number.abs (c / p.leading))).getD 0 := by
    rw [cauchyBound, h]
  cases rest with
  | nil =>
    have hone : p.cauchyBound = 1 := by simp [hmaximum, Number.maximum?]
    exact ⟨hone.ge, by simp⟩
  | cons c rest =>
    cases hmax : Number.maximum? ((c :: rest).map fun c => Number.abs (c / p.leading)) with
    | none => simp [Number.maximum?] at hmax
    | some top =>
      rw [hmax, Option.getD_some] at hmaximum
      have hle : ∀ d ∈ c :: rest, |d / p.leading| ≤ top := by
        intro d hd
        rw [← Number.abs_eq]
        exact Number.le_maximum? hmax _ (List.mem_map_of_mem hd)
      have htop : 0 ≤ top := (abs_nonneg _).trans (hle c List.mem_cons_self)
      rw [hmaximum]
      exact ⟨by linarith, fun d hd => by linarith [hle d hd]⟩

/-- Every real root is smaller in magnitude than Cauchy's bound. -/
theorem Proper.abs_lt_cauchyBound (hp : p.Proper) {z : ℝ} (hz : p.toReal.eval z = 0) :
    |z| < p.cauchyBound := by
  obtain ⟨rest, hrest⟩ := reverse_eq_cons hp.nonzero
  obtain ⟨hone, hle⟩ := cauchyBound_spec hrest
  have hlead : (0 : ℝ) < |(p.leading : ℝ)| := by
    rw [← hp.leadingCoeff_eq, abs_pos]
    exact leadingCoeff_ne_zero.mpr hp.toReal_ne_zero
  apply abs_root_lt hp.toReal_ne_zero (by exact_mod_cast hone) _ hz
  intro k hk
  have hcoefficients : p.coefficients = rest.reverse ++ [p.leading] := by
    rw [← List.reverse_reverse p.coefficients, hrest, List.reverse_cons]
  have hk' : k < rest.reverse.length := by
    have hdegree := (hp.normal.spec hp.nonzero).2.1
    rw [hcoefficients, List.length_append, List.length_singleton] at hdegree
    omega
  have hmem : rest.reverse[k] ∈ rest := List.mem_reverse.mp (List.getElem_mem hk')
  rw [hp.leadingCoeff_eq, toReal, coeff_ofCoefficients, hcoefficients,
    List.getElem?_append_left hk', List.getElem?_eq_getElem hk', Option.getD_some,
    ← div_le_iff₀ hlead, ← abs_div]
  exact_mod_cast hle _ hmem

theorem Proper.clearAbove_cauchyBound (hp : p.Proper) : p.ClearAbove p.cauchyBound :=
  fun z hz hroot => absurd (hp.abs_lt_cauchyBound hroot) (not_lt.mpr (hz.le.trans (le_abs_self z)))

/-! ### Halving -/

/-- There is a root above the low end, and there is none above the high end unless that is the top of
the search. -/
structure Brackets (p : ProbLoop.Polynomial) (top low high : Nat) : Prop where
  lt : low < high
  le : high ≤ top
  root : ¬p.ClearAbove low
  clear : high < top → p.ClearAbove high

/-- One halving keeps the half with the last root. -/
theorem Brackets.step {top low mid high : Nat} (h : p.Brackets top low high) (hp : p.Proper)
    (hlow : low < mid) (hhigh : mid < high) :
    if p.rootsAbove mid = 0 then p.Brackets top low mid else p.Brackets top mid high := by
  split
  · next hzero =>
    exact ⟨hlow, hhigh.le.trans h.le, h.root,
      fun _ => (hp.rootsAbove_natCast_eq_zero_iff mid).mp hzero⟩
  · next hzero =>
    exact ⟨hhigh, h.le, fun hclear => hzero ((hp.rootsAbove_natCast_eq_zero_iff mid).mpr hclear),
      h.clear⟩

/-- The search ends with neighbours. -/
theorem Brackets.searchRoots {top low high : Nat} (h : p.Brackets top low high) (hp : p.Proper) :
    ∃ k, p.searchRoots low high = k + 1 ∧ p.Brackets top k (k + 1) := by
  induction low, high using searchRoots.induct p with
  | case1 low high hlt mid hzero ih =>
    have hstep := h.step hp (show low < mid by omega) (by omega)
    rw [if_pos hzero] at hstep
    rw [Polynomial.searchRoots, if_pos hlt, if_pos hzero]
    exact ih hstep
  | case2 low high hlt mid hzero ih =>
    have hstep := h.step hp (show low < mid by omega) (by omega)
    rw [if_neg hzero] at hstep
    rw [Polynomial.searchRoots, if_pos hlt, if_neg hzero]
    exact ih hstep
  | case3 low high hlt =>
    have hnext : high = low + 1 := by
      have := h.lt
      omega
    rw [Polynomial.searchRoots, if_neg hlt]
    exact ⟨low, hnext, hnext ▸ h⟩

/-! ### The ceiling -/

theorem Proper.one_le_cauchyBound (hp : p.Proper) : 1 ≤ p.cauchyBound := by
  obtain ⟨rest, hrest⟩ := reverse_eq_cons hp.nonzero
  exact (cauchyBound_spec hrest).1

theorem le_ceil_cauchyBound (p : ProbLoop.Polynomial) :
    (p.cauchyBound : ℝ) ≤ p.cauchyBound.ceil.toNat := by
  have hceil : (p.cauchyBound : ℝ) ≤ p.cauchyBound.ceil := by exact_mod_cast Rat.le_ceil
  have hnat : (p.cauchyBound.ceil : ℝ) ≤ p.cauchyBound.ceil.toNat := by
    exact_mod_cast Int.self_le_toNat _
  exact hceil.trans hnat

theorem maxRootBound_eq : maxRootBound = 2 ^ 64 - 1 := by decide

/-- The ceiling is the first natural number that has no root above it or is the largest one that is
looked at. -/
theorem Proper.isLeast_rootCeiling (hp : p.Proper) :
    IsLeast {m : Nat | p.ClearAbove m ∨ maxRootBound ≤ m} p.rootCeiling := by
  have hzero := hp.rootsAbove_natCast_eq_zero_iff 0
  rw [Nat.cast_zero] at hzero
  rw [rootCeiling]
  split
  · next hcount => exact ⟨Or.inl (hzero.mp hcount), fun m _ => m.zero_le⟩
  · next hcount =>
    have hceil : 0 < p.cauchyBound.ceil.toNat := by
      have hpos : 0 < p.cauchyBound.ceil := Rat.lt_ceil_iff.mpr (by
        rw [Int.cast_zero]
        exact one_pos.trans_le hp.one_le_cauchyBound)
      omega
    have hmax : 0 < maxRootBound := by decide
    set top := min p.cauchyBound.ceil.toNat maxRootBound with htop
    have hstart : p.Brackets top 0 top :=
      ⟨by omega, le_rfl, fun hclear => hcount (hzero.mpr hclear), fun h => absurd h (lt_irrefl _)⟩
    obtain ⟨k, hk, hend⟩ := hstart.searchRoots hp
    rw [hk]
    constructor
    · show p.ClearAbove (k + 1 : Nat) ∨ maxRootBound ≤ k + 1
      by_cases hlt : k + 1 < top
      · exact Or.inl (hend.clear hlt)
      · -- At its top the search is behind Cauchy's bound or at the largest number.
        have heq : k + 1 = top := le_antisymm hend.le (not_lt.mp hlt)
        by_cases hfits : p.cauchyBound.ceil.toNat ≤ maxRootBound
        · left
          rw [heq, htop, min_eq_left hfits]
          exact hp.clearAbove_cauchyBound.mono (le_ceil_cauchyBound p)
        · right
          omega
    · intro m hm
      by_contra hlt
      rcases hm with hclear | hlarge
      · have hle : (m : ℝ) ≤ k := by exact_mod_cast (show m ≤ k by omega)
        exact hend.root (hclear.mono hle)
      · have hle := hend.le
        omega

/-- No root is found above zero exactly if there is none. -/
theorem Proper.rootCeiling_eq_zero_iff (hp : p.Proper) :
    p.rootCeiling = 0 ↔ ∀ z : ℝ, 0 < z → p.toReal.eval z ≠ 0 := by
  obtain ⟨hmem, hleast⟩ := hp.isLeast_rootCeiling
  constructor
  · intro h
    rw [h] at hmem
    rcases hmem with hclear | hlarge
    · rw [Nat.cast_zero] at hclear
      exact hclear
    · exact absurd hlarge (by decide)
  · intro h
    apply Nat.le_zero.mp
    apply hleast
    left
    rw [Nat.cast_zero]
    exact h

/-- Without roots above zero a polynomial has one sign at all positive counters, and at zero that sign or
none. -/
theorem Proper.eval_mul_eval_one (hp : p.Proper) (h : p.rootCeiling = 0) (n : Nat) :
    0 ≤ p.eval n * p.eval 1 ∧ p.eval 1 ≠ 0 := by
  have hroots := hp.rootCeiling_eq_zero_iff.mp h
  have hone : p.toReal.eval (1 : ℝ) = (p.eval 1 : ℝ) := by
    rw [← eval_toReal, Rat.cast_one]
  have hn : p.toReal.eval (n : ℝ) = (p.eval n : ℝ) := by
    rw [← eval_toReal, Rat.cast_natCast]
  constructor
  · by_cases hzero : p.eval n = 0
    · rw [hzero, zero_mul]
    · have hpos := eval_mul_eval_pos (f := p.toReal) (s := (n : ℝ)) (t := 1) (by
        intro z hz
        have hge : 0 ≤ z := (le_min (Nat.cast_nonneg n) zero_le_one).trans hz.1
        rcases hge.eq_or_lt with rfl | hlt
        · -- Zero lies between the counter and one only if the counter is zero.
          have hn0 : (n : ℝ) = 0 := by
            have hmin := hz.1
            rw [inf_le_iff] at hmin
            rcases hmin with hle | hle
            · exact le_antisymm hle (Nat.cast_nonneg n)
            · linarith
          have hcast : (p.eval n : ℝ) ≠ 0 := by exact_mod_cast hzero
          rwa [← hn, hn0] at hcast
        · exact hroots z hlt)
      rw [hn, hone] at hpos
      exact_mod_cast hpos.le
  · have hne := hroots 1 one_pos
    rw [hone] at hne
    exact_mod_cast hne

/-- For coefficients that are not all zero, every real root is within Cauchy's bound. If that fits in 64
bits, the ceiling is the smallest natural number that no root exceeds. -/
theorem rootCeiling_ofList {cs : List Rat} (h : ∃ c ∈ cs, c ≠ 0) :
    (∀ z : ℝ, (ofCoefficients cs).eval z = 0 →
        z ∈ Set.Icc (-((ofList cs).cauchyBound : ℝ)) (ofList cs).cauchyBound) ∧
      ((ofList cs).cauchyBound ≤ 2 ^ 64 - 1 →
        IsLeast {m : Nat | ∀ z : ℝ, (ofCoefficients cs).eval z = 0 → z ≤ m}
          (ofList cs).rootCeiling) := by
  have hp := proper_ofList h
  have hroots : ∀ z : ℝ, (ofCoefficients cs).eval z = 0 → |z| < (ofList cs).cauchyBound := by
    intro z hz
    rw [← toReal_ofList] at hz
    exact hp.abs_lt_cauchyBound hz
  have hclear : ∀ m : Nat, (ofList cs).ClearAbove m ↔
      ∀ z : ℝ, (ofCoefficients cs).eval z = 0 → z ≤ m := by
    intro m
    rw [ClearAbove, toReal_ofList]
    exact forall_congr' fun z => ⟨fun hz hroot => not_lt.mp fun hlt => hz hlt hroot,
      fun hz hlt hroot => not_lt.mpr (hz hroot) hlt⟩
  refine ⟨fun z hz => abs_le.mp (hroots z hz).le, fun hfits => ?_⟩
  obtain ⟨hmem, hleast⟩ := hp.isLeast_rootCeiling
  constructor
  · rcases hmem with hclearAbove | hlarge
    · exact (hclear _).mp hclearAbove
    · -- Every root is below the largest number that is looked at.
      intro z hz
      have hfits' : ((ofList cs).cauchyBound : ℝ) ≤ maxRootBound := by
        have hcast : (maxRootBound : Rat) = 2 ^ 64 - 1 := by norm_num [maxRootBound_eq]
        rw [← hcast] at hfits
        exact_mod_cast hfits
      have hlarge' : (maxRootBound : ℝ) ≤ (ofList cs).rootCeiling := by exact_mod_cast hlarge
      exact (le_abs_self z).trans ((hroots z hz).le.trans (hfits'.trans hlarge'))
  · intro m hm
    exact hleast (Or.inl ((hclear m).mpr hm))

/-- The largest root of `n (n ^ 2 - 10)` is between three and four. -/
theorem rootCeiling_between :
    (∃ c ∈ ([0, -10, 0, 1] : List Rat), c ≠ 0) ∧
      (ofList [0, -10, 0, 1]).cauchyBound ≤ 2 ^ 64 - 1 ∧
      IsLeast {m : Nat | ∀ z : ℝ, (ofCoefficients [0, -10, 0, 1]).eval z = 0 → z ≤ m} 4 := by
  have hne : ∃ c ∈ ([0, -10, 0, 1] : List Rat), c ≠ 0 := ⟨-10, by simp, by norm_num⟩
  have hfits : (ofList [0, -10, 0, 1]).cauchyBound ≤ 2 ^ 64 - 1 := by decide +kernel
  have hceiling : (ofList [0, -10, 0, 1]).rootCeiling = 4 := by decide +kernel
  have hleast := (rootCeiling_ofList hne).2 hfits
  rw [hceiling] at hleast
  exact ⟨hne, hfits, hleast⟩

/-! ### The sign in the long run -/

/-- Above all roots the sign is that of the leading coefficient. -/
theorem ClearAbove.sign_eval (h : p.ClearAbove x) (hp : p.Normal) {y : Rat} (hxy : x < y) :
    Sign.of (p.eval y) = Sign.of p.leading := by
  have hnonzero : p.isZero = false := by
    by_contra hzero
    apply h y hxy
    rw [toReal_of_isZero (by simpa using hzero), eval_zero]
  have hlead := behind_mul_leadingCoeff fun z hz => h z hz
  have hvalue := behind_mul_eval hxy fun z hz _ => h z hz
  rw [(hp.spec hnonzero).2.2] at hlead
  rw [eval_toReal] at hvalue
  have hsame : 0 < p.eval y * p.leading := by
    have hprod := mul_pos hvalue hlead
    have hsquare := mul_self_pos.mpr (left_ne_zero_of_mul hlead.ne')
    have hcast : (0 : ℝ) < p.eval y * p.leading := by
      apply (mul_pos_iff_of_pos_left hsquare).mp
      linarith
    exact_mod_cast hcast
  rcases pos_and_pos_or_neg_and_neg_of_mul_pos hsame with ⟨hy, hl⟩ | ⟨hy, hl⟩
  · rw [Sign.of_eq_positive.mpr hy, Sign.of_eq_positive.mpr hl]
  · rw [Sign.of_eq_negative.mpr hy, Sign.of_eq_negative.mpr hl]

section Zero

variable (h : p.isZero = true)
include h

theorem eval_of_isZero (y : Rat) : p.eval y = 0 := by
  rw [eval, List.isEmpty_iff.mp h, List.foldr_nil]

theorem leading_of_isZero : p.leading = 0 := by
  rw [leading, List.isEmpty_iff.mp h]
  rfl

end Zero

theorem Normal.proper_or_isZero (hp : p.Normal) : p.Proper ∨ p.isZero = true := by
  cases hzero : p.isZero with
  | false => exact Or.inl ⟨hp, hzero⟩
  | true => exact Or.inr rfl

/-- In the long run a polynomial has the sign of its leading coefficient. -/
theorem Normal.eventually_sign_eval (hp : p.Normal) :
    ∃ N : Nat, ∀ n : Nat, N ≤ n → Sign.of (p.eval n) = Sign.of p.leading := by
  rcases hp.proper_or_isZero with hproper | hzero
  · refine ⟨p.cauchyBound.ceil.toNat + 1, fun n hn => ?_⟩
    apply hproper.clearAbove_cauchyBound.sign_eval hp
    have hlt : (p.cauchyBound.ceil.toNat : ℝ) < (n : Rat) := by exact_mod_cast hn
    exact (le_ceil_cauchyBound p).trans_lt hlt
  · refine ⟨0, fun n _ => ?_⟩
    rw [eval_of_isZero hzero, leading_of_isZero hzero]

theorem rootCeiling_of_isZero (h : p.isZero = true) : p.rootCeiling = 0 := by
  have hp : p = ⟨[]⟩ := by
    cases p
    exact congrArg _ (List.isEmpty_iff.mp h)
  rw [hp]
  decide

theorem Proper.rootCeiling_le (hp : p.Proper) : p.rootCeiling ≤ maxRootBound :=
  hp.isLeast_rootCeiling.2 (Or.inr le_rfl)

/-- The number behind the ceiling fits in 64 bits exactly if no root is larger than the second largest
number of 64 bits. -/
theorem Normal.rootCeiling_fits_iff (hp : p.Normal) :
    p.rootCeiling + 1 < 2 ^ 64 ↔ ∀ z ∈ p.toReal.roots, z ≤ 2 ^ 64 - 2 := by
  rcases hp.proper_or_isZero with hproper | hzero
  · have hroots : (∀ z ∈ p.toReal.roots, z ≤ 2 ^ 64 - 2) ↔ p.ClearAbove (2 ^ 64 - 2) := by
      refine forall_congr' fun z => ?_
      rw [mem_roots hproper.toReal_ne_zero, IsRoot]
      exact ⟨fun hz hlt hroot => not_lt.mpr (hz hroot) hlt,
        fun hz hroot => not_lt.mp fun hlt => hz hlt hroot⟩
    obtain ⟨hmem, hleast⟩ := hproper.isLeast_rootCeiling
    rw [hroots]
    constructor
    · intro hfits
      have hle : (p.rootCeiling : ℝ) ≤ 2 ^ 64 - 2 := by
        have hnat : p.rootCeiling ≤ 2 ^ 64 - 2 := by omega
        have hcast : (p.rootCeiling : ℝ) ≤ (2 ^ 64 - 2 : Nat) := by exact_mod_cast hnat
        norm_num at hcast ⊢
        exact hcast
      rcases hmem with hclear | hlarge
      · exact hclear.mono hle
      · rw [maxRootBound_eq] at hlarge
        omega
    · intro hclear
      have hle : p.rootCeiling ≤ 2 ^ 64 - 2 := by
        apply hleast
        left
        norm_num at hclear ⊢
        exact hclear
      omega
  · rw [rootCeiling_of_isZero hzero, toReal_of_isZero hzero]
    simp

/-- The sign that is computed is the one in the long run, unless the number behind the ceiling does not
fit in 64 bits: then it is the sign at zero. -/
theorem Normal.eventualSign_eq (hp : p.Normal) :
    p.eventualSign = if p.rootCeiling + 1 < 2 ^ 64
      then (p.rootCeiling + 1, Sign.of p.leading) else (0, Sign.of (p.eval 0)) := by
  have hmax : maxRootBound + 1 = 2 ^ 64 := by decide
  rw [eventualSign, hmax]
  rcases hp.proper_or_isZero with hproper | hzero
  · by_cases hfits : p.rootCeiling + 1 < 2 ^ 64
    · have hclear : p.ClearAbove p.rootCeiling := by
        rcases hproper.isLeast_rootCeiling.1 with hclear | hlarge
        · exact hclear
        · omega
      have hsign : Sign.of (p.eval (p.rootCeiling + 1 : Nat)) = Sign.of p.leading := by
        apply hclear.sign_eval hp
        push_cast
        exact lt_add_one _
      rw [if_pos hfits, Nat.mod_eq_of_lt hfits]
      simp only [hsign]
    · have heq : p.rootCeiling + 1 = 2 ^ 64 := by
        have hle := hproper.rootCeiling_le
        omega
      rw [if_neg hfits, heq, Nat.mod_self]
      simp only [Nat.cast_zero]
  · rw [rootCeiling_of_isZero hzero, leading_of_isZero hzero]
    simp [eval_of_isZero hzero]

end ProbLoop.Polynomial

end
