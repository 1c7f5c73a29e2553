import ProbLoop.Asymptotics.SignSplit
import ProbLoop.Proofs.Asymptotics.Canonicalize
import ProbLoop.Proofs.ClosedForm
import ProbLoop.Proofs.Expr.Affine
import ProbLoop.Proofs.Program.Cases

/-!
# Splitting on an unknown sign

The constant that is replaced takes a value at which the coefficient of the dominant part is the fresh
constant or its opposite, so that both candidates have infinite limits with known signs and no candidate
is split again. Whatever the values of the symbols, unless the coefficient is zero there, one of the
candidates has the values of the given expression for some value of the fresh constant.
-/

set_option autoImplicit false

namespace ProbLoop

namespace Growth

variable {m k : Monomial} {s : Symbol}

theorem ofMonomial_mul (hm : m.Canonical) (hk : k.Canonical) (hstill : k.IsStill) :
    ofMonomial (m * k) = ofMonomial m := by
  have hbase : (m * k).base = m.base := by
    change m.base * k.base = m.base
    rw [hstill.1, mul_one]
  have hdegree : (m * k).counterDegree = m.counterDegree := by
    rw [Monomial.counterDegree, Monomial.powerOf_mul hm hk, Monomial.powerOf_eq_zero hstill.2,
      add_zero]
    rfl
  rw [ofMonomial, hbase, hdegree]
  rfl

theorem ofMonomial_without (hs : s ≠ .counter) : ofMonomial (m.without s) = ofMonomial m :=
  congrArg (Growth.mk (Number.abs m.base)) (Monomial.powerOf_without m (Ne.symm hs))

end Growth

namespace Expr

variable {e value c rest : Expr} {d : Dominant} {g : Growth} {p s : Symbol} {side : Direction}

/-! ### The terms of one growth and the other ones -/

theorem lift_filter (φ : Monomial → Rat) (keep : Monomial → Bool) (e : Expr) :
    (⟨e.terms.filter fun t => keep t.1⟩ : Expr).lift φ =
      e.lift fun m => if keep m = true then φ m else 0 := by
  obtain ⟨ts⟩ := e
  simp only
  induction ts with
  | nil => rfl
  | cons t ts ih =>
    by_cases h : keep t.1 = true
    · rw [List.filter_cons, if_pos h, lift_cons, lift_cons, ih, if_pos h]
    · rw [List.filter_cons, if_neg h, lift_cons, ih, if_neg h, mul_zero, zero_add]

/-- The terms with another growth. -/
def otherPart (e : Expr) (g : Growth) : Expr :=
  ⟨e.terms.filter fun t => Growth.ofMonomial t.1 != g⟩

theorem otherPart_add_dominantPart (he : e.Canonical) (g : Growth) :
    e.otherPart g + e.dominantPart g = e := by
  have hother : (e.otherPart g).Canonical := he.filter _
  have hdominant : (e.dominantPart g).Canonical := he.filter _
  refine (hother.add hdominant).toOrdered.ext_lift he.toOrdered fun φ => ?_
  rw [lift_add, otherPart, dominantPart, lift_filter φ fun m => Growth.ofMonomial m != g,
    lift_filter φ fun m => Growth.ofMonomial m == g, ← lift_fun_add]
  refine lift_congr fun t _ => ?_
  by_cases h : Growth.ofMonomial t.1 = g <;> simp [h]

/-- Terms of other growths do not count. -/
theorem dominantPart_add_bound (he : e.Canonical) (hg : 0 < g.magnitude) (hp : p ≠ .counter)
    (hother : e.All fun m => Growth.ofMonomial m ≠ g) :
    (e + g.bound side p).dominantPart g = g.bound side p := by
  have hbound : (g.bound side p).Canonical := canonical_term (Growth.canonical_monomial hg p) _
  have hpart : ((e + g.bound side p).dominantPart g).Canonical := (he.add hbound).filter _
  refine hpart.toOrdered.ext_lift hbound.toOrdered fun φ => ?_
  have hzero : (e.lift fun m => if (Growth.ofMonomial m == g) = true then φ m else 0) = 0 := by
    rw [lift_eq_sum]
    refine List.sum_eq_zero fun q hq => ?_
    obtain ⟨t, ht, rfl⟩ := List.mem_map.mp hq
    rw [if_neg (by simpa using hother t ht), mul_zero]
  rw [dominantPart, lift_filter φ fun m => Growth.ofMonomial m == g, lift_add, hzero, zero_add,
    Growth.bound, lift_term, lift_term, if_pos (by simp [Growth.ofMonomial_monomial hg hp])]

/-- Terms of smaller growth leave a canonical expression the dominant part. -/
theorem leads_add_bound (he : e.Canonical) (hg : 0 < g.magnitude) (hp : p.isPositive = true)
    (hbelow : e.All fun m => (Growth.ofMonomial m).LE g ∧ Growth.ofMonomial m ≠ g) :
    (e + g.bound side p).Leads side g := by
  have hcounter := ne_counter_of_isPositive hp
  have hle : (e + g.bound side p).All fun m => (Growth.ofMonomial m).LE g := by
    refine all_add (hbelow.mono fun _ hm => hm.1) (all_term ?_)
    rw [Growth.ofMonomial_monomial hg hcounter]
    exact .refl g
  exact ⟨_, dominant?_of_dominantPart hg hcounter hle (dominantPart_add_bound he hg hcounter
    (hbelow.mono fun _ hm => hm.2)), rfl, rfl, sign?_positive hp⟩

/-! ### Replacing a symbol -/

/-- Replacing a symbol by what does not depend on the counter keeps all growths. -/
theorem all_growth_subst {P : Growth → Prop} (he : e.Canonical) (hs : s ≠ .counter)
    (hvalue : value.Still) (h : e.All fun m => P (Growth.ofMonomial m)) :
    (e.subst s value).All fun m => P (Growth.ofMonomial m) := by
  unfold Expr.subst
  split
  · refine all_sum fun x hx => ?_
    obtain ⟨t, ht, rfl⟩ := List.mem_map.mp hx
    have hwithout : (term (t.1.without s) t.2).All fun m =>
        m.Canonical ∧ P (Growth.ofMonomial m) := by
      refine all_term ⟨(he.monomials t ht).without s, ?_⟩
      rw [Growth.ofMonomial_without hs]
      exact h t ht
    have hpower := hvalue.pow (t.1.powerOf s)
    unfold substTerm
    simp only
    split
    · exact hwithout.mono fun _ hm => hm.2
    · have hfactor : (value.pow (t.1.powerOf s)).All fun k => k.Canonical ∧ k.IsStill :=
        fun u hu => ⟨hpower.monomials u hu, hpower.still u hu⟩
      refine all_mul (fun m k hm hk => ?_) hwithout hfactor
      rw [Growth.ofMonomial_mul hm.1 hk.1 hk.2]
      exact hm.2
  · exact h

theorem realValue_subst (he : e.Canonical) (hs : s ≠ .counter) (n : Nat) (x : RealValuation) :
    (e.subst s value).realValue n x =
      e.realValue n (Function.update x s (value.realValue n x)) := by
  obtain ⟨u, hu⟩ := exists_approach x
  have hvalue := tendsto_value (e := value) (fun _ _ _ _ => Or.inr trivial) hu n
  refine tendsto_nhds_unique (tendsto_value (fun _ _ _ _ => Or.inr trivial) hu n)
    ((tendsto_value (e := e) (fun _ _ _ _ => Or.inr trivial) (hu.set s hvalue) n).congr fun k => ?_)
  rw [value_subst he hs]

theorem Canonical.ext_realValue {a b : Expr} (ha : a.Canonical) (hb : b.Canonical)
    (h : ∀ n x, a.realValue n x = b.realValue n x) : a = b := by
  refine ha.ext_value hb (N := 0) fun n _ v _ => ?_
  have hvalue := h n fun r => v r
  rw [realValue_cast, realValue_cast] at hvalue
  exact_mod_cast hvalue

/-- A symbol that does not occur may have any value. -/
theorem realValue_update (h : e.All fun m => m.mentions s = false) (n : Nat) (x : RealValuation)
    (q : ℝ) : e.realValue n (Function.update x s q) = e.realValue n x := by
  refine realValue_congr n _ fun t ht r hr => Function.update_of_ne ?_ _ _
  simpa using List.any_eq_false.mp (h t ht) r hr

theorem all_not_mentions (hs : s.isPositive = true) (h : e.mentions s = false) :
    e.All fun m => m.mentions s = false := by
  have hcounter : s.isCounter = false := by cases s <;> simp_all [Symbol.isPositive, Symbol.isCounter]
  rw [mentions, hcounter, if_neg Bool.false_ne_true] at h
  exact fun t ht => by simpa using List.any_eq_false.mp h t ht

/-! ### The coefficient of the dominant part -/

theorem all_coefficient {P : Monomial → Prop} (hd : e.dominant? = some d)
    (h : e.All fun m => P ((m.without .counter).withBase 1)) : d.coefficient.All P := by
  obtain ⟨g, -, rfl⟩ := Option.map_eq_some_iff.mp hd
  refine all_ofTerms fun u hu => ?_
  obtain ⟨t, ht, rfl⟩ := List.mem_map.mp hu
  exact h t (List.mem_filter.mp (List.mem_filter.mp ht).1).1

theorem still_coefficient (he : e.Canonical) (hd : e.dominant? = some d) : d.coefficient.Still :=
  ⟨⟨ordered_coefficient hd, all_coefficient hd fun t ht =>
      ((he.monomials t ht).without _).withBase one_ne_zero⟩,
    all_coefficient hd fun t _ => Monomial.isStill_without t.1⟩

theorem Still.not_dependsOnCounter (hc : c.Still) : c.dependsOnCounter = false := by
  refine List.any_eq_false.mpr fun t ht => ?_
  have hstill := hc.still t ht
  simp [Monomial.isExponential, hstill.1, hstill.2]

/-- What does not occur in an expression does not occur in the coefficient. -/
theorem not_mentions_coefficient (hd : e.dominant? = some d)
    (h : e.All fun m => m.mentions p = false) : d.coefficient.All fun m => m.mentions p = false :=
  all_coefficient hd fun t ht => List.any_eq_false.mpr fun r hr =>
    List.any_eq_false.mp (h t ht) r (List.mem_filter.mp hr).1

/-! ### Solving for a constant -/

theorem solvable?_spec {s : Solvable} (h : c.solvable? = some s) :
    s.symbol.isConstant = true ∧ c.linearIn? s.symbol = some (s.factor, s.rest) := by
  unfold solvable? at h
  obtain ⟨r, hr, hs⟩ := List.exists_of_findSome?_eq_some h
  obtain ⟨⟨a, rest⟩, hlinear, rfl⟩ := Option.map_eq_some_iff.mp hs
  refine ⟨?_, hlinear⟩
  rcases List.mem_append.mp hr with hr | hr
  · exact (List.mem_filter.mp (List.mem_filter.mp hr).1).2
  · exact (List.mem_filter.mp (List.mem_filter.mp hr).1).2

section Linear

variable {a : Rat}

/-- A symbol that occurs linearly occurs in one term, alone, and in no other one. -/
theorem linearIn?_spec (h : c.linearIn? s = some (a, rest)) :
    (Monomial.ofSymbol s 1, a) ∈ c.terms ∧ rest = ⟨c.terms.filter (·.1 != .ofSymbol s 1)⟩ ∧
      rest.All fun m => m.mentions s = false := by
  unfold linearIn? at h
  simp only at h
  split at h
  · simp at h
  · next hany =>
    obtain ⟨b, hb, heq⟩ := Option.map_eq_some_iff.mp h
    obtain ⟨rfl, rfl⟩ := Prod.mk.inj heq
    refine ⟨Assoc.mem_of_find? hb, rfl, fun t ht => ?_⟩
    simpa using List.any_eq_false.mp (by simpa only [Bool.not_eq_true] using hany) t ht

theorem Still.linearIn? (hc : c.Still) (h : c.linearIn? s = some (a, rest)) : rest.Still := by
  refine ⟨hc.toCanonical.linearIn? h, fun t ht => hc.still t ?_⟩
  rw [(linearIn?_spec h).2.1] at ht
  exact (List.mem_filter.mp ht).1

theorem realValue_of_linearIn? (hc : c.Canonical) (h : c.linearIn? s = some (a, rest)) (n : Nat)
    (x : RealValuation) : c.realValue n x = s.realValue n x * a + rest.realValue n x := by
  obtain ⟨hmem, hrest, -⟩ := linearIn?_spec h
  have hsum : (ofSymbol s).scale a + rest = c := by
    rw [← ((mem_terms_iff hc.toOrdered _ _).mp hmem).1, hrest]
    exact hc.scale_add_filter s
  rw [← hsum, realValue_add, realValue_scale, realValue_ofSymbol]

end Linear

/-- The dominant part is unbounded, its coefficient has no known sign, and a symbol occurs linearly in
it. -/
structure Splits (e : Expr) (d : Dominant) (s : Solvable) : Prop where
  canonical : e.Canonical
  dominant : e.dominant? = some d
  oscillates : d.oscillates = false
  one_le_magnitude : 1 ≤ d.growth.magnitude
  growth_ne : d.growth ≠ ⟨1, 0⟩
  solvable : d.coefficient.solvable? = some s

theorem exists_splits (he : e.Canonical) (h : e.limit = .signedInf c) {s : Solvable}
    (hs : c.solvable? = some s) : ∃ d, d.coefficient = c ∧ e.Splits d s := by
  obtain ⟨d, hd, hosc, rfl, hone, hne, -⟩ := dominant_of_limit_signedInf h
  exact ⟨d, rfl, he, hd, hosc, hone, hne, hs⟩

namespace Splits

variable {target : Expr} {s : Solvable} (h : e.Splits d s)

include h

theorem linear : d.coefficient.linearIn? s.symbol = some (s.factor, s.rest) :=
  (solvable?_spec h.solvable).2

theorem symbol_ne_counter : s.symbol ≠ .counter := by
  intro heq
  have hconstant := (solvable?_spec h.solvable).1
  rw [heq] at hconstant
  simp [Symbol.isConstant] at hconstant

theorem factor_ne_zero : s.factor ≠ 0 :=
  (still_coefficient h.canonical h.dominant).coefficient_ne_zero _ (linearIn?_spec h.linear).1

theorem still_rest : s.rest.Still :=
  (still_coefficient h.canonical h.dominant).linearIn? h.linear

theorem realValue_coefficient (n : Nat) (x : RealValuation) : d.coefficient.realValue n x =
    s.symbol.realValue n x * s.factor + s.rest.realValue n x :=
  realValue_of_linearIn? (still_coefficient h.canonical h.dominant).toCanonical h.linear n x

/-- The value that the symbol gets. -/
theorem realValue_solveFor {f : Expr} (hf : f.Canonical) (n : Nat) (x : RealValuation) :
    (f.solveFor s target).realValue n x = f.realValue n (Function.update x s.symbol
      ((target.realValue n x - s.rest.realValue n x) * (s.factor : ℝ)⁻¹)) := by
  rw [solveFor, realValue_subst hf h.symbol_ne_counter, realValue_scale, realValue_sub, Rat.cast_inv]

variable (target) in
/-- With this value of the symbol the coefficient has the value that was asked for. -/
theorem realValue_coefficient_update (n : Nat) (x : RealValuation) :
    d.coefficient.realValue n (Function.update x s.symbol
      ((target.realValue n x - s.rest.realValue n x) * (s.factor : ℝ)⁻¹)) =
        target.realValue n x := by
  have hfactor : (s.factor : ℝ) ≠ 0 := by exact_mod_cast h.factor_ne_zero
  have hsymbol : ∀ q : ℝ, s.symbol.realValue n (Function.update x s.symbol q) = q := fun q => by
    have hcounter := h.symbol_ne_counter
    cases hs : s.symbol <;> simp_all [Symbol.realValue]
  rw [h.realValue_coefficient, hsymbol, realValue_update (linearIn?_spec h.linear).2.2,
    inv_mul_cancel_right₀ hfactor, sub_add_cancel]

/-! ### The limits of the candidates -/

section Candidate

variable (htarget : target.Still)

include htarget

theorem still_solution : ((target - s.rest).scale s.factor⁻¹).Still :=
  (htarget.sub h.still_rest).scale _

theorem canonical_solveFor {f : Expr} (hf : f.Canonical) : (f.solveFor s target).Canonical :=
  hf.subst (h.still_solution htarget).toCanonical

variable (hp : p.isPositive = true)
  (hvalue : ∀ n x, target.realValue n x = side.factor * p.realValue n x)

include hp hvalue

/-- The dominant part of a candidate is the fresh constant times its growth. -/
theorem solveFor_eq : e.solveFor s target =
    (e.otherPart d.growth).solveFor s target + d.growth.bound side p := by
  have he := h.canonical
  have hg := magnitude_pos he h.dominant
  have hother : (e.otherPart d.growth).Canonical := he.filter _
  have hconstant : ∀ n (x : RealValuation), p.realValue n x = x p := fun n x => by
    cases p <;> simp_all [Symbol.isPositive, Symbol.realValue]
  refine (h.canonical_solveFor htarget he).ext_realValue ((h.canonical_solveFor htarget hother).add
    (canonical_term (Growth.canonical_monomial hg p) _)) fun n x => ?_
  rw [realValue_add, h.realValue_solveFor he, h.realValue_solveFor hother, realValue_bound hg hp]
  have hcoefficient := h.realValue_coefficient_update target n x
  generalize Function.update x s.symbol _ = y at hcoefficient ⊢
  calc e.realValue n y
      = (e.otherPart d.growth).realValue n y + (e.dominantPart d.growth).realValue n y := by
        rw [← realValue_add, otherPart_add_dominantPart he]
    _ = (e.otherPart d.growth).realValue n y + side.factor * (x p * d.growth.value n) := by
        rw [realValue_dominantPart he h.dominant h.oscillates, hcoefficient, hvalue, hconstant]
        ring

omit hp hvalue in
/-- The other terms of a candidate stay below the growth of its dominant part. -/
theorem below_solveFor : ((e.otherPart d.growth).solveFor s target).All fun m =>
    (Growth.ofMonomial m).LE d.growth ∧ Growth.ofMonomial m ≠ d.growth := by
  apply all_growth_subst (P := fun k => k.LE d.growth ∧ k ≠ d.growth) (h.canonical.filter _)
    h.symbol_ne_counter (h.still_solution htarget)
  intro t ht
  obtain ⟨hmem, hne⟩ := List.mem_filter.mp ht
  exact ⟨(dominant?_spec h.dominant).2.1 t hmem, by simpa using hne⟩

theorem leads_solveFor : (e.solveFor s target).Leads side d.growth := by
  have he := h.canonical
  rw [h.solveFor_eq htarget hp hvalue]
  exact leads_add_bound (h.canonical_solveFor htarget (he.filter _)) (magnitude_pos he h.dominant) hp
    (h.below_solveFor htarget)

theorem limit_solveFor : (e.solveFor s target).limit = .infinite side :=
  ((h.leads_solveFor htarget hp hvalue).diverges h.one_le_magnitude h.growth_ne).limit

end Candidate

/-! ### The values of the candidates -/

/-- If the value that is asked for is that of the coefficient, the symbol gets its own value back. -/
theorem realValue_solveFor_eq (hp : p.isPositive = true) (hfresh : e.mentions p = false) {q : ℝ}
    {n : Nat} {x : RealValuation}
    (hq : target.realValue n (Function.update x p q) = d.coefficient.realValue n x) :
    (e.solveFor s target).realValue n (Function.update x p q) = e.realValue n x := by
  have hfactor : (s.factor : ℝ) ≠ 0 := by exact_mod_cast h.factor_ne_zero
  have hnone := all_not_mentions hp hfresh
  have hcoefficient := not_mentions_coefficient h.dominant hnone
  have hne : s.symbol ≠ p := by
    intro heq
    have hmem := hcoefficient _ (linearIn?_spec h.linear).1
    simp [heq, Monomial.mentions, Monomial.ofSymbol] at hmem
  have hsymbol : s.symbol.realValue n (Function.update x p q) = x s.symbol := by
    have hcounter := h.symbol_ne_counter
    cases hs : s.symbol <;> simp_all [Symbol.realValue]
  have hsolved : (target.realValue n (Function.update x p q) -
      s.rest.realValue n (Function.update x p q)) * (s.factor : ℝ)⁻¹ = x s.symbol := by
    rw [hq, ← realValue_update hcoefficient n x q, h.realValue_coefficient, hsymbol,
      add_sub_cancel_right, mul_inv_cancel_right₀ hfactor]
  rw [h.realValue_solveFor h.canonical, hsolved]
  -- The symbol has its own value, and the fresh constant does not occur.
  rw [Function.update_comm hne.symm, Function.update_eq_self, realValue_update hnone]

end Splits

/-! ### The two candidates -/

section Candidates

variable {s : Solvable} (h : e.Splits d s) (name : String)

include h

/-- The candidates tend to minus and to plus infinity. -/
theorem Splits.limits :
    (e.solveFor s (-ofSymbol (.positive name))).limit = .negInf ∧
      (e.solveFor s (ofSymbol (.positive name))).limit = .posInf := by
  have hstill : (ofSymbol (.positive name)).Still := still_ofSymbol (by simp)
  have hneg : (-ofSymbol (.positive name)).Still :=
    ⟨hstill.toCanonical.neg, all_neg hstill.still⟩
  constructor
  · change _ = Limit.infinite .down
    refine h.limit_solveFor (p := .positive name) hneg rfl fun n x => ?_
    rw [realValue_neg, realValue_ofSymbol]
    simp [Direction.factor]
  · change _ = Limit.infinite .up
    refine h.limit_solveFor (p := .positive name) hstill rfl fun n x => ?_
    rw [realValue_ofSymbol]
    simp [Direction.factor]

theorem Splits.not_signed : ∀ f ∈ [e.solveFor s (-ofSymbol (.positive name)),
    e.solveFor s (ofSymbol (.positive name))], ∀ c, f.limit ≠ .signedInf c := by
  obtain ⟨hneg, hpos⟩ := h.limits name
  rw [List.forall_mem_cons, List.forall_mem_singleton, hneg, hpos]
  simp

/-- Unless the coefficient is zero, its absolute value is a value of the fresh constant for which one of
the candidates has the values of the given expression. -/
theorem Splits.exists_candidate (hfresh : e.mentions (.positive name) = false) {m : Nat}
    {x : RealValuation} (hne : d.coefficient.realValue m x ≠ 0) : ∃ q : ℝ, 0 < q ∧
      ((∀ n, (e.solveFor s (-ofSymbol (.positive name))).realValue n
          (Function.update x (.positive name) q) = e.realValue n x) ∨
        ∀ n, (e.solveFor s (ofSymbol (.positive name))).realValue n
          (Function.update x (.positive name) q) = e.realValue n x) := by
  have hstill := still_coefficient h.canonical h.dominant
  have hsame : ∀ n, d.coefficient.realValue n x = d.coefficient.realValue m x := fun n =>
    realValue_of_not_dependsOnCounter n x hstill.toCanonical hstill.not_dependsOnCounter m
  have hconstant : ∀ (n : Nat) (q : ℝ), (ofSymbol (.positive name)).realValue n
      (Function.update x (.positive name) q) = q := fun n q => by
    rw [realValue_ofSymbol, Symbol.realValue, Function.update_self]
    simp
  refine ⟨|d.coefficient.realValue m x|, abs_pos.mpr hne, ?_⟩
  rcases lt_or_gt_of_ne hne with hneg | hpos
  · refine Or.inl fun n => h.realValue_solveFor_eq rfl hfresh ?_
    rw [realValue_neg, hconstant, hsame n, abs_of_neg hneg, neg_neg]
  · refine Or.inr fun n => h.realValue_solveFor_eq rfl hfresh ?_
    rw [hconstant, hsame n, abs_of_pos hpos]

end Candidates

/-! ### Splitting -/

theorem splitSign_of_settled (h : ∀ c, e.limit ≠ .signedInf c) : e.splitSign = pure [e] := by
  unfold splitSign
  split
  · next c hc => exact absurd hc (h c)
  · rfl

theorem splitSign_of_signed {supply later : Supply} {fs : List Expr} (h : e.limit = .signedInf c)
    (hrun : e.splitSign.run.run supply = (.ok fs, later)) :
    ∃ s, c.solvable? = some s ∧ later = ⟨supply.next + 1⟩ ∧
      fs = [e.solveFor s (-ofSymbol (.positive ("e" ++ toString supply.next))),
        e.solveFor s (ofSymbol (.positive ("e" ++ toString supply.next)))] := by
  rw [splitSign] at hrun
  simp only [h] at hrun
  cases hs : c.solvable? with
  | none =>
    rw [hs] at hrun
    exact absurd (Prod.mk.inj hrun).1 (by simp)
  | some s =>
    rw [hs] at hrun
    obtain ⟨hfs, hlater⟩ := Prod.mk.inj hrun
    exact ⟨s, rfl, hlater.symm, (Except.ok.inj hfs).symm⟩

/-! ### The work list -/

namespace Worklist

variable {pending kept : List Expr} {k : Nat}

theorem rounds_nil (k : Nat) : rounds k ⟨[], kept⟩ = pure ⟨[], kept⟩ := by
  induction k with
  | zero => rfl
  | succ k ih =>
    rw [rounds, round, pure_bind]
    exact ih

theorem round_of_settled (h : ∀ c, e.limit ≠ .signedInf c) :
    round ⟨e :: pending, kept⟩ = pure ⟨pending, kept ++ [e]⟩ := by
  rw [round]
  split
  · next c hc => exact absurd hc (h c)
  · rfl

/-- Candidates whose limits have known signs are kept, each in a round of its own. -/
theorem rounds_of_settled (kept : List Expr) (h : ∀ e ∈ pending, ∀ c, e.limit ≠ .signedInf c)
    (hk : pending.length ≤ k) : rounds k ⟨pending, kept⟩ = pure ⟨[], kept ++ pending⟩ := by
  induction pending generalizing k kept with
  | nil => rw [rounds_nil, List.append_nil]
  | cons e pending ih =>
    obtain ⟨he, hpending⟩ := List.forall_mem_cons.mp h
    obtain ⟨j, rfl⟩ := Nat.exists_eq_add_of_le' (Nat.le_trans (Nat.le_add_left 1 _) hk)
    rw [rounds, round_of_settled he, pure_bind, ih _ hpending (Nat.le_of_succ_le_succ hk),
      List.append_assoc, List.singleton_append]

/-- The first round splits the expression, and both candidates are kept. -/
theorem rounds_of_signed (he : e.Canonical) (hlimit : e.limit = .signedInf c) (hk : 3 ≤ k) :
    rounds k ⟨[e], []⟩ = (fun fs => ⟨[], fs⟩) <$> e.splitSign := by
  obtain ⟨j, rfl⟩ := Nat.exists_eq_add_of_le' hk
  rw [rounds, round, splitSign]
  simp only [hlimit]
  cases hs : c.solvable? with
  | none => rfl
  | some s =>
    obtain ⟨d, -, hsplits⟩ := exists_splits he hlimit hs
    refine ExceptT.ext (StateT.ext fun supply => ?_)
    -- Both sides draw the same constant, and the candidates are left to the remaining rounds.
    have hcandidates := hsplits.not_signed ("e" ++ toString supply.next)
    exact congrArg (fun x => x.run.run ⟨supply.next + 1⟩)
      (rounds_of_settled [] hcandidates (Nat.le_add_left 2 j))

theorem rounds_eq (he : e.Canonical) (hk : 3 ≤ k) :
    rounds k ⟨[e], []⟩ = (fun fs => ⟨[], fs⟩) <$> e.splitSign := by
  by_cases h : ∃ c, e.limit = .signedInf c
  · obtain ⟨c, hc⟩ := h
    exact rounds_of_signed he hc hk
  · have hsettled : ∀ c, e.limit ≠ .signedInf c := fun c hc => h ⟨c, hc⟩
    rw [splitSign_of_settled hsettled, rounds_of_settled [] (by simpa using hsettled)
      (Nat.le_trans (Nat.le_add_left 1 2) hk)]
    rfl

end Worklist

/-- The limit has the sign of the difference of two positive constants. -/
def difference : Expr :=
  (ofSymbol (.positive "a") - ofSymbol (.positive "b")) * counter + (ofSymbol (.positive "a")).pow 2

end Expr

end ProbLoop
