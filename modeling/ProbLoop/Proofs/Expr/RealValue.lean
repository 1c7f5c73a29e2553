import Mathlib.Analysis.SpecificLimits.Normed
import Mathlib.Topology.Instances.Real.Lemmas
import ProbLoop.Proofs.Expr.Sign

/-!
# Real values of expressions

The symbols of an expression may stand for real numbers. The real values of an expression are limits of
rational ones, so that equations between rational values carry over to them.
-/

set_option autoImplicit false

namespace ProbLoop

open Filter Topology

/-- Real values of the symbols other than the counter. -/
abbrev RealValuation := Symbol → ℝ

/-- Every positive constant has a positive real value. -/
def RealValuation.Admissible (x : RealValuation) : Prop :=
  ∀ name, 0 < x (.positive name)

noncomputable def Symbol.realValue (n : Nat) (x : RealValuation) : Symbol → ℝ
  | .counter => n
  | s => x s

noncomputable def Monomial.realValue (n : Nat) (x : RealValuation) (m : Monomial) : ℝ :=
  (m.powers.map fun q => q.1.realValue n x ^ q.2).prod * (m.base : ℝ) ^ n

noncomputable def Expr.realValue (n : Nat) (x : RealValuation) (e : Expr) : ℝ :=
  (e.terms.map fun t => (t.2 : ℝ) * t.1.realValue n x).sum

section Values

variable (n : Nat) (v : Valuation)

theorem Symbol.realValue_cast (s : Symbol) : s.realValue n (fun r => v r) = s.value n v := by
  cases s <;> simp [realValue, value]

theorem Monomial.realValue_cast (m : Monomial) : m.realValue n (fun r => v r) = m.value n v := by
  have hproduct : ∀ l : List (Symbol × Nat),
      (l.map fun q => q.1.realValue n (fun r => v r) ^ q.2).prod =
        powerProduct (Symbol.value n v) l := by
    intro l
    induction l with
    | nil => simp [powerProduct]
    | cons q l ih =>
      rw [List.map_cons, List.prod_cons, ih, powerProduct_cons, Symbol.realValue_cast]
      push_cast
      rfl
  rw [realValue, hproduct, value_eq]
  push_cast
  rfl

/-- On rational values the real value is the rational one. -/
theorem Expr.realValue_cast (e : Expr) : e.realValue n (fun r => v r) = e.value n v := by
  rw [realValue, value_eq_sum, Rat.cast_list_sum, List.map_map]
  refine congrArg List.sum (List.map_congr_left fun t _ => ?_)
  rw [Monomial.realValue_cast, Function.comp_apply, Rat.cast_mul]

theorem Expr.realValue_const (x : RealValuation) (q : Rat) : (const q).realValue n x = q := by
  unfold const term nonzero?
  split
  · next h => simp [Assoc.consSome, realValue, h]
  · simp [Assoc.consSome, realValue, Monomial.realValue, Monomial.one]

theorem Expr.realValue_ofSymbol (x : RealValuation) (s : Symbol) :
    (ofSymbol s).realValue n x = s.realValue n x := by
  have hterms : (ofSymbol s).terms = [(Monomial.ofSymbol s 1, 1)] := rfl
  simp [realValue, hterms, Monomial.realValue, Monomial.ofSymbol]

theorem Expr.realValue_zero (x : RealValuation) : zero.realValue n x = 0 := rfl

end Values

/-! ### Approaching real values -/

theorem exists_rat_tendsto (x : ℝ) :
    ∃ f : ℕ → Rat, Tendsto (fun k => (f k : ℝ)) atTop (𝓝 x) := by
  obtain ⟨f, -, -, hf⟩ := Real.exists_seq_rat_strictAnti_tendsto x
  exact ⟨f, hf⟩

/-- The valuations approach real values of the given symbols. -/
def Approach (among : Symbol → Prop) (u : ℕ → Valuation) (x : RealValuation) : Prop :=
  ∀ s, among s → Tendsto (fun k => (u k s : ℝ)) atTop (𝓝 (x s))

/-- All real values of symbols are approached by rational ones. -/
theorem exists_approach (x : RealValuation) : ∃ u : ℕ → Valuation, Approach (fun _ => True) u x := by
  choose f hf using fun s => exists_rat_tendsto (x s)
  exact ⟨fun k s => f s k, fun s _ => hf s⟩

variable {among : Symbol → Prop} {u : ℕ → Valuation} {x : RealValuation}

theorem Approach.set (hu : Approach among u x) (s : Symbol) {f : ℕ → Rat} {q : ℝ}
    (hf : Tendsto (fun k => (f k : ℝ)) atTop (𝓝 q)) :
    Approach among (fun k => (u k).set s (f k)) (Function.update x s q) := by
  intro t ht
  by_cases hts : t = s
  · subst hts
    simpa [Valuation.set] using hf
  · simpa [Valuation.set, hts] using hu t ht

theorem Monomial.tendsto_value {m : Monomial}
    (hm : ∀ q ∈ m.powers, q.1.isCounter = true ∨ among q.1) (hu : Approach among u x) (n : Nat) :
    Tendsto (fun k => (m.value n (u k) : ℝ)) atTop (𝓝 (m.realValue n x)) := by
  simp only [← realValue_cast]
  refine Tendsto.mul_const _ (tendsto_list_prod m.powers fun q hq => Tendsto.pow ?_ _)
  rcases hm q hq with hcounter | hamong
  · cases hs : q.1 with
    | counter => exact tendsto_const_nhds
    | _ => simp [hs, Symbol.isCounter] at hcounter
  · cases hs : q.1 with
    | counter => exact tendsto_const_nhds
    | _ => exact hu _ (hs ▸ hamong)

/-- The values of an expression in symbols whose values are approached approach its real value. -/
theorem Expr.tendsto_value {e : Expr}
    (he : ∀ t ∈ e.terms, ∀ q ∈ t.1.powers, q.1.isCounter = true ∨ among q.1)
    (hu : Approach among u x) (n : Nat) :
    Tendsto (fun k => (e.value n (u k) : ℝ)) atTop (𝓝 (e.realValue n x)) := by
  simp only [value_eq_sum, Rat.cast_list_sum, List.map_map]
  refine tendsto_list_sum e.terms fun t ht => ?_
  simpa using (Monomial.tendsto_value (he t ht) hu n).const_mul (t.2 : ℝ)

/-! ### Equations that carry over -/

namespace Monomial

variable (n : Nat) (x : RealValuation)

/-- Equal rational values, up to a factor, make equal real ones. -/
theorem realValue_eq_mul {a b : Monomial} {k : Nat} {c : Rat}
    (h : ∀ v, a.value n v = c * b.value k v) : a.realValue n x = c * b.realValue k x := by
  obtain ⟨u, hu⟩ := exists_approach x
  have hlimit : ∀ (m : Monomial) (i : Nat),
      Tendsto (fun k => (m.value i (u k) : ℝ)) atTop (𝓝 (m.realValue i x)) := fun m =>
    tendsto_value (fun _ _ => Or.inr trivial) hu
  refine tendsto_nhds_unique (hlimit a n) (((hlimit b k).const_mul (c : ℝ)).congr fun i => ?_)
  rw [h (u i), Rat.cast_mul]

/-- The counter and the exponential split off from the remaining factors. -/
theorem realValue_split {m : Monomial} (hm : m.Canonical) (k : Nat) :
    m.realValue n x = (n : ℝ) ^ m.counterDegree * (m.base : ℝ) ^ n *
      ((m.without .counter).withBase 1).realValue k x := by
  have h := realValue_eq_mul n x (k := k) fun v =>
    (value_split n v hm).trans (by rw [value_still n v m k])
  rw [h]
  push_cast
  rfl

theorem realValue_still (m : Monomial) (k : Nat) :
    ((m.without .counter).withBase 1).realValue n x =
      ((m.without .counter).withBase 1).realValue k x := by
  simpa using realValue_eq_mul n x (c := 1) fun v => by rw [value_still n v m k, one_mul]

end Monomial

namespace Expr

variable (n : Nat) (x : RealValuation)

theorem realValue_ofTerms (ts : List (Monomial × Rat)) :
    (ofTerms ts).realValue n x = (ts.map fun t => (t.2 : ℝ) * t.1.realValue n x).sum := by
  obtain ⟨u, hu⟩ := exists_approach x
  have hterms : Tendsto (fun k => (ts.map fun t => (t.2 : ℝ) * (t.1.value n (u k) : ℝ)).sum) atTop
      (𝓝 (ts.map fun t => (t.2 : ℝ) * t.1.realValue n x).sum) :=
    tendsto_list_sum ts fun t _ =>
      (Monomial.tendsto_value (fun _ _ => Or.inr trivial) hu n).const_mul _
  refine tendsto_nhds_unique (tendsto_value (fun _ _ _ _ => Or.inr trivial) hu n)
    (hterms.congr fun k => ?_)
  rw [value_ofTerms, Rat.cast_list_sum, List.map_map]
  exact congrArg List.sum (List.map_congr_left fun t _ => (Rat.cast_mul _ _).symm)

/-- The real value of an expression as the sum of its terms, the counter and the exponential split
off. -/
theorem realValue_eq_sum {e : Expr} (he : e.Canonical) :
    e.realValue n x = (e.terms.map fun t => (n : ℝ) ^ t.1.counterDegree * (t.1.base : ℝ) ^ n *
      (t.2 * ((t.1.without .counter).withBase 1).realValue 0 x)).sum := by
  refine congrArg List.sum (List.map_congr_left fun t ht => ?_)
  rw [Monomial.realValue_split n x (he.monomials t ht) 0]
  ring

/-- All expressions take their real values in the limit along the same rational valuations. -/
theorem exists_tendsto_value : ∃ u : ℕ → Valuation, ∀ e : Expr,
    Tendsto (fun k => (e.value n (u k) : ℝ)) atTop (𝓝 (e.realValue n x)) := by
  obtain ⟨u, hu⟩ := exists_approach x
  exact ⟨u, fun _ => tendsto_value (fun _ _ _ _ => Or.inr trivial) hu n⟩

theorem realValue_add (a b : Expr) :
    (a + b).realValue n x = a.realValue n x + b.realValue n x := by
  obtain ⟨u, hu⟩ := exists_tendsto_value n x
  exact tendsto_nhds_unique (hu _) (((hu a).add (hu b)).congr fun k => by
    rw [value_add, Rat.cast_add])

theorem realValue_sub (a b : Expr) :
    (a - b).realValue n x = a.realValue n x - b.realValue n x := by
  obtain ⟨u, hu⟩ := exists_tendsto_value n x
  exact tendsto_nhds_unique (hu _) (((hu a).sub (hu b)).congr fun k => by
    rw [value_sub, Rat.cast_sub])

theorem realValue_neg (a : Expr) : (-a).realValue n x = -a.realValue n x := by
  obtain ⟨u, hu⟩ := exists_tendsto_value n x
  exact tendsto_nhds_unique (hu _) ((hu a).neg.congr fun k => by rw [value_neg, Rat.cast_neg])

theorem realValue_scale (a : Expr) (q : Rat) :
    (a.scale q).realValue n x = a.realValue n x * q := by
  obtain ⟨u, hu⟩ := exists_tendsto_value n x
  exact tendsto_nhds_unique (hu _) (((hu a).mul_const (q : ℝ)).congr fun k => by
    rw [value_scale, Rat.cast_mul])

/-- Only the values of the symbols that occur count. -/
theorem realValue_congr {e : Expr} {y : RealValuation}
    (h : ∀ t ∈ e.terms, ∀ q ∈ t.1.powers, x q.1 = y q.1) : e.realValue n x = e.realValue n y := by
  refine congrArg List.sum (List.map_congr_left fun t ht => ?_)
  have hpowers : t.1.powers.map (fun q => q.1.realValue n x ^ q.2) =
      t.1.powers.map fun q => q.1.realValue n y ^ q.2 := by
    refine List.map_congr_left fun q hq => ?_
    have hq := h t ht q hq
    cases hs : q.1 <;> simp_all [Symbol.realValue]
  rw [Monomial.realValue, hpowers, Monomial.realValue]

theorem realValue_of_not_dependsOnCounter {e : Expr} (he : e.Canonical)
    (h : e.dependsOnCounter = false) (k : Nat) : e.realValue n x = e.realValue k x := by
  obtain ⟨u, hu⟩ := exists_approach x
  refine tendsto_nhds_unique (tendsto_value (fun _ _ _ _ => Or.inr trivial) hu n)
    ((tendsto_value (fun _ _ _ _ => Or.inr trivial) hu k).congr fun i => ?_)
  rw [value_of_not_dependsOnCounter k (u i) he h n]

end Expr

/-! ### Signs -/

section Signs

variable {n : Nat} {x : RealValuation} (hx : x.Admissible)

theorem Expr.realValue_of_constant? {e : Expr} {q : Rat} (h : e.constant? = some q) :
    e.realValue n x = q := by
  obtain ⟨u, hu⟩ := exists_approach x
  refine tendsto_nhds_unique (tendsto_value (fun _ _ _ _ => Or.inr trivial) hu n)
    (tendsto_const_nhds.congr fun k => ?_)
  rw [value_of_constant? h]

include hx

theorem Monomial.realValue_pos {m : Monomial} (hbase : m.base = 1)
    (hm : ∀ q ∈ m.powers, q.1.isPositive = true) : 0 < m.realValue n x := by
  rw [realValue, hbase, Rat.cast_one, one_pow, mul_one]
  refine List.prod_pos (List.forall_mem_map.mpr fun q hq => pow_pos ?_ _)
  cases hs : q.1 with
  | positive name => exact hx name
  | _ => simpa [hs, Symbol.isPositive] using hm q hq

theorem Expr.realValue_pos_of_sign? {e : Expr} (h : e.sign? = some .positive) :
    0 < e.realValue n x := by
  rcases sign?_cases h with ⟨q, hq, hs⟩ | ⟨hne, hterms⟩
  · rw [realValue_of_constant? hq]
    exact_mod_cast Sign.of_eq_positive.mp hs
  · have hsum := List.sum_lt_sum_of_ne_nil hne (f := fun _ => (0 : ℝ))
      (g := fun t => (t.2 : ℝ) * t.1.realValue n x) fun t ht => by
        obtain ⟨hbase, hpositive, hs⟩ := hterms t ht
        exact mul_pos (by exact_mod_cast Sign.of_eq_positive.mp hs)
          (Monomial.realValue_pos hx hbase hpositive)
    simpa [realValue] using hsum

theorem Expr.realValue_neg_of_sign? {e : Expr} (h : e.sign? = some .negative) :
    e.realValue n x < 0 := by
  rcases sign?_cases h with ⟨q, hq, hs⟩ | ⟨hne, hterms⟩
  · rw [realValue_of_constant? hq]
    exact_mod_cast Sign.of_eq_negative.mp hs
  · have hsum := List.sum_lt_sum_of_ne_nil hne (f := fun t => (t.2 : ℝ) * t.1.realValue n x)
      (g := fun _ => (0 : ℝ)) fun t ht => by
        obtain ⟨hbase, hpositive, hs⟩ := hterms t ht
        exact mul_neg_of_neg_of_pos (by exact_mod_cast Sign.of_eq_negative.mp hs)
          (Monomial.realValue_pos hx hbase hpositive)
    simpa [realValue] using hsum

end Signs

end ProbLoop
