import Mathlib
import ProbLoop.Proofs.Expr.Sign
import ProbLoop.Proofs.Interval
import ProbLoop.Proofs.Polynomial.Basic
import ProbLoop.Proofs.Polynomial.Sturm

/-!
# Counting real roots

Dividing out a point that is a root leaves the other roots as they are, and the sequence of remainders
that is computed is one of Sturm's. So the number that is counted is that of the real roots above the
point.
-/

set_option autoImplicit false

section

open Polynomial

namespace ProbLoop.Polynomial

open Sturm

variable {p a b : ProbLoop.Polynomial}

/-! ### Sequences of remainders -/

/-- A polynomial that is not zero, in normal form. -/
structure Proper (p : ProbLoop.Polynomial) : Prop where
  normal : p.Normal
  nonzero : p.isZero = false

theorem Proper.toReal_ne_zero (hp : p.Proper) : p.toReal ≠ 0 :=
  (hp.normal.spec hp.nonzero).1

theorem Proper.leadingCoeff_eq (hp : p.Proper) : p.toReal.leadingCoeff = (p.leading : ℝ) :=
  (hp.normal.spec hp.nonzero).2.2

theorem normal_neg (p : ProbLoop.Polynomial) : p.neg.Normal := normal_ofList _

theorem length_neg_le (p : ProbLoop.Polynomial) :
    p.neg.coefficients.length ≤ p.coefficients.length := by
  have h := length_trim_le (p.coefficients.map (-·))
  rwa [List.length_map] at h

/-- The sequence that is computed is one of remainders with the signs changed. -/
theorem remaindersFrom_spec (ha : a.Proper) (hb : b.Normal) :
    (∀ q ∈ remaindersFrom a b, q.Proper) ∧
      ∃ l, remaindersFrom a b = a :: l ∧ Remainders a.toReal b.toReal (l.map toReal) := by
  induction a, b using remaindersFrom.induct with
  | case1 a b hzero =>
    rw [remaindersFrom, if_pos hzero]
    refine ⟨by simpa using ha, [], rfl, ?_⟩
    rw [toReal_of_isZero hzero]
    exact .last ha.toReal_ne_zero
  | case2 a b hzero next hlt ih =>
    have hb' : b.Proper := ⟨hb, by simpa using hzero⟩
    obtain ⟨hproper, l, hl, hremainders⟩ := ih hb' (normal_neg _)
    obtain ⟨-, -, q, hq⟩ := hb.exists_rem hb'.nonzero a
    rw [remaindersFrom, if_neg hzero, if_pos hlt]
    refine ⟨List.forall_mem_cons.mpr ⟨ha, hproper⟩, b :: l, by rw [hl], ?_⟩
    refine .step ha.toReal_ne_zero hb'.toReal_ne_zero (q := q) ?_ hremainders
    rw [toReal_neg, sub_neg_eq_add]
    exact hq
  | case3 a b hzero next hlt =>
    -- A remainder is always shorter than what it is divided by.
    obtain ⟨-, hshort, -⟩ := hb.exists_rem (by simpa using hzero) a
    exact absurd ((length_neg_le _).trans_lt hshort) hlt

/-! ### Sign changes -/

theorem changesFrom_eq {x : Rat} (hx : x ≠ 0) (ys : List Rat) :
    changesFrom (Sign.of x) (ys.map Sign.of) = flips (x : ℝ) (ys.map fun y : Rat => (y : ℝ)) := by
  induction ys generalizing x with
  | nil => rfl
  | cons y ys ih =>
    rw [List.map_cons, List.map_cons, changesFrom]
    by_cases hy : y = 0
    · rw [if_pos (Sign.of_eq_zero.mpr hy), ih hx, flips, if_pos (by exact_mod_cast hy)]
    · have hy0 : Sign.of y ≠ .zero := fun h => hy (Sign.of_eq_zero.mp h)
      have hx0 : Sign.of x ≠ .zero := fun h => hx (Sign.of_eq_zero.mp h)
      rw [if_neg hy0, flips_cons_of_ne_zero (by exact_mod_cast hy), ← ih hy, opposite]
      have hsame : Sign.of x = Sign.of y ↔ ¬(x : ℝ) * y < 0 := by
        norm_cast
        rcases lt_or_gt_of_ne hx with h | h
        · rcases lt_or_gt_of_ne hy with h' | h'
          · simp [Sign.of_eq_negative.mpr h, Sign.of_eq_negative.mpr h', (mul_pos_of_neg_of_neg h h').le]
          · simp [Sign.of_eq_negative.mpr h, Sign.of_eq_positive.mpr h', mul_neg_of_neg_of_pos h h']
        · rcases lt_or_gt_of_ne hy with h' | h'
          · simp [Sign.of_eq_positive.mpr h, Sign.of_eq_negative.mpr h', mul_neg_of_pos_of_neg h h']
          · simp [Sign.of_eq_positive.mpr h, Sign.of_eq_positive.mpr h', (mul_pos h h').le]
      by_cases hneg : (x : ℝ) * y < 0
      · rw [if_neg (by simp [hx0, hsame, hneg]), if_pos hneg]
      · rw [if_pos (Or.inr (hsame.mpr hneg)), if_neg hneg, zero_add]

theorem signChanges_eq {x : Rat} (hx : x ≠ 0) (ys : List Rat) :
    signChanges ((x :: ys).map Sign.of) = flips (x : ℝ) (ys.map fun y : Rat => (y : ℝ)) := by
  have hx0 : Sign.of x ≠ .zero := fun h => hx (Sign.of_eq_zero.mp h)
  rw [signChanges, List.map_cons, changesFrom, if_neg hx0, if_pos (Or.inl rfl), changesFrom_eq hx]

/-! ### Deflation -/

theorem Proper.isConstant_iff (hp : p.Proper) : p.isConstant = true ↔ p.toReal.natDegree = 0 := by
  have hdegree := (hp.normal.spec hp.nonzero).2.1
  rw [isConstant, decide_eq_true_eq]
  omega

/-- What is left when a point has been divided out. -/
structure Deflates (p : ProbLoop.Polynomial) (root : Rat) (q : ProbLoop.Polynomial) : Prop where
  proper : q.Proper
  factor : ∃ k : ℕ, p.toReal = (X - C (root : ℝ)) ^ k * q.toReal
  moved : q.isConstant = false → q.eval root ≠ 0

theorem deflates_deflateUpTo (root : Rat) {fuel : Nat} (hp : p.Proper)
    (hfuel : p.coefficients.length ≤ fuel) : p.Deflates root (deflateUpTo root fuel p) := by
  induction fuel generalizing p with
  | zero =>
    have hnil : p.coefficients = [] := List.length_eq_zero_iff.mp (Nat.le_zero.mp hfuel)
    exact absurd hp.nonzero (by simp [isZero, hnil])
  | succ fuel ih =>
    rw [deflateUpTo]
    by_cases h : (!p.isConstant && p.eval root == 0) = true
    · rw [if_pos h]
      obtain ⟨-, hroot⟩ := Bool.and_eq_true_iff.mp h
      obtain ⟨hnormal, hlength, hfactor⟩ := divideOut_spec hp.nonzero (beq_iff_eq.mp hroot)
      have hnonzero : (p.divideOut root).isZero = false := by
        cases hz : (p.divideOut root).isZero
        · rfl
        · rw [toReal_of_isZero hz, mul_zero] at hfactor
          exact absurd hfactor hp.toReal_ne_zero
      obtain ⟨hproper, ⟨k, hk⟩, hmoved⟩ := ih ⟨hnormal, hnonzero⟩ (by omega)
      refine ⟨hproper, ⟨k + 1, ?_⟩, hmoved⟩
      rw [hfactor, hk, pow_succ]
      ring
    · rw [if_neg h]
      refine ⟨hp, ⟨0, by rw [pow_zero, one_mul]⟩, fun hconst heval => h ?_⟩
      rw [hconst, heval]
      rfl

theorem Proper.deflates (hp : p.Proper) (root : Rat) : p.Deflates root (p.deflate root) :=
  deflates_deflateUpTo root hp le_rfl

/-- Dividing out a point keeps the roots above it. -/
theorem Deflates.rootsBehind_eq {root : Rat} (h : p.Deflates root a) (hp : p.Proper) :
    rootsBehind (root : ℝ) p.toReal = rootsBehind (root : ℝ) a.toReal := by
  obtain ⟨k, hk⟩ := h.factor
  ext z
  rw [mem_rootsBehind hp.toReal_ne_zero, mem_rootsBehind h.proper.toReal_ne_zero]
  refine and_congr_right fun hz => ?_
  have hne : (z - root) ^ k ≠ 0 := pow_ne_zero k (sub_pos.mpr hz).ne'
  rw [hk, eval_mul, eval_pow, eval_sub, eval_X, eval_C, mul_eq_zero, or_iff_right hne]

theorem Proper.rootsBehind_of_isConstant (hp : p.Proper) (h : p.isConstant = true) (x : ℝ) :
    rootsBehind x p.toReal = ∅ := by
  rw [Finset.eq_empty_iff_forall_notMem]
  intro z hz
  have hroot := ((mem_rootsBehind hp.toReal_ne_zero).mp hz).2
  rw [eq_C_of_natDegree_eq_zero (hp.isConstant_iff.mp h), eval_C] at hroot
  apply hp.toReal_ne_zero
  rw [eq_C_of_natDegree_eq_zero (hp.isConstant_iff.mp h), hroot, C_0]

/-! ### Roots above a point -/

/-- The number that is counted is that of the distinct real roots above the point. -/
theorem Proper.rootsAbove_eq (hp : p.Proper) (x : Rat) :
    p.rootsAbove x = (rootsBehind (x : ℝ) p.toReal).card := by
  have hdeflates := hp.deflates x
  rw [hdeflates.rootsBehind_eq hp]
  unfold rootsAbove
  set q := p.deflate x
  have hq := hdeflates.proper
  simp only
  cases hconst : q.isConstant with
  | true => rw [if_pos rfl, hq.rootsBehind_of_isConstant hconst, Finset.card_empty]
  | false =>
    have heval := hdeflates.moved hconst
    have hnormal : q.derivative.Normal := normal_ofList _
    obtain ⟨hproper, l, hl, hremainders⟩ := remaindersFrom_spec hq hnormal
    rw [ProbLoop.toReal_derivative] at hremainders
    rw [if_neg Bool.false_ne_true, sturmSequence, hl]
    rw [hl] at hproper
    have hlead : q.leading ≠ 0 := hq.normal.leading_ne_zero hq.nonzero
    have hpoint : signChanges ((q :: l).map fun f => Sign.of (f.eval x)) =
        flips (q.toReal.eval (x : ℝ)) ((l.map toReal).map fun f : ℝ[X] => f.eval (x : ℝ)) := by
      have h := signChanges_eq heval (l.map (·.eval x))
      rw [← List.map_cons (f := fun f : ProbLoop.Polynomial => f.eval x), List.map_map] at h
      rw [eval_toReal, List.map_map]
      refine h.trans (congrArg _ ?_)
      rw [List.map_map]
      exact List.map_congr_left fun f _ => (eval_toReal f x).symm
    have hinfinity : signChanges ((q :: l).map fun f => Sign.of f.leading) =
        flips q.toReal.leadingCoeff ((l.map toReal).map leadingCoeff) := by
      have h := signChanges_eq hlead (l.map leading)
      rw [← List.map_cons (f := leading), List.map_map] at h
      rw [hq.leadingCoeff_eq, List.map_map]
      refine h.trans (congrArg _ ?_)
      rw [List.map_map]
      exact List.map_congr_left fun f hf =>
        (hproper f (List.mem_cons_of_mem _ hf)).leadingCoeff_eq.symm
    have hsturm := hremainders.flips_eval_eq (x := (x : ℝ)) (by
      rw [eval_toReal]
      exact_mod_cast heval)
    rw [hpoint, hinfinity, hsturm, Nat.add_sub_cancel_left]

/-- No root is counted above a point exactly if there is none. -/
theorem Proper.rootsAbove_eq_zero_iff (hp : p.Proper) {x : Rat} :
    p.rootsAbove x = 0 ↔ ∀ z : ℝ, x < z → p.toReal.eval z ≠ 0 := by
  rw [hp.rootsAbove_eq, Finset.card_eq_zero, Finset.eq_empty_iff_forall_notMem]
  refine forall_congr' fun z => ?_
  rw [mem_rootsBehind hp.toReal_ne_zero, not_and]

theorem proper_ofList {cs : List Rat} (h : ∃ c ∈ cs, c ≠ 0) : (ofList cs).Proper := by
  obtain ⟨c, hc, hne⟩ := h
  obtain ⟨k, hk⟩ := List.mem_iff_getElem?.mp hc
  refine ⟨normal_ofList cs, ?_⟩
  by_contra hzero
  have hcoeff : (ofCoefficients cs).coeff k = 0 := by
    rw [← toReal_ofList, toReal_of_isZero (by simpa using hzero), coeff_zero]
  rw [coeff_ofCoefficients, hk, Option.getD_some] at hcoeff
  exact hne (by exact_mod_cast hcoeff)

/-- For coefficients that are not all zero, the number that is counted at a point is that of the
distinct real roots above it. The point may be a root itself, and the roots may be repeated. -/
theorem rootsAbove_ofList {cs : List Rat} (h : ∃ c ∈ cs, c ≠ 0) (x : Rat) :
    ((ofList cs).rootsAbove x : ℕ∞) =
      {z : ℝ | x < z ∧ (ofCoefficients cs).eval z = 0}.encard := by
  have hp := proper_ofList h
  have hroots : {z : ℝ | x < z ∧ (ofCoefficients cs).eval z = 0} =
      (rootsBehind (x : ℝ) (ofList cs).toReal : Set ℝ) := by
    ext z
    show _ ↔ z ∈ rootsBehind (x : ℝ) (ofList cs).toReal
    rw [mem_rootsBehind hp.toReal_ne_zero, toReal_ofList]
    rfl
  rw [hp.rootsAbove_eq, hroots, Set.encard_coe_eq_coe_finsetCard]

/-- One and the two square roots of two are double roots, and only one of them is above one. -/
theorem rootsAbove_double :
    (∃ c ∈ ([4, -8, 0, 8, -3, -2, 1] : List Rat), c ≠ 0) ∧
      {z : ℝ | ((1 : Rat) : ℝ) < z ∧
        (ofCoefficients [4, -8, 0, 8, -3, -2, 1]).eval z = 0}.encard = 1 := by
  have hne : ∃ c ∈ ([4, -8, 0, 8, -3, -2, 1] : List Rat), c ≠ 0 := ⟨4, by simp, by norm_num⟩
  have hcount : (ofList [4, -8, 0, 8, -3, -2, 1]).rootsAbove 1 = 1 := by decide +kernel
  have hroots := rootsAbove_ofList hne 1
  rw [hcount] at hroots
  exact ⟨hne, hroots.symm⟩

end ProbLoop.Polynomial

end
