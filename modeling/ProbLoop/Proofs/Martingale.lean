import Mathlib
import ProbLoop.Proofs.Deterministic
import ProbLoop.Proofs.Product

/-!
# The martingale and the change of the guard

The mean change of the guard is found in two ways: as the difference of two means, and as the mean of
what one iteration changes, in which the deterministic variables have been replaced by their closed forms.
Replacing them does not change a mean, because closed forms are multiplicative in them, so both are one
expression.
-/

set_option autoImplicit false

namespace ProbLoop

namespace Program

variable {p : Program}

/-- The mean of an expression after `n` iterations, made of closed forms. -/
def meanOf (p : Program) (e : Expr) : Expr :=
  (e.collect Symbol.isVar).foldl (fun acc g => acc + g.2 * p.closed g.1) .zero

theorem canonical_foldl_groups {value : Monomial → Expr} {groups : List (Monomial × Expr)}
    (h : ∀ g ∈ groups, g.2.Canonical ∧ (value g.1).Canonical) {acc : Expr} (ha : acc.Canonical) :
    (groups.foldl (fun acc g => acc + g.2 * value g.1) acc).Canonical := by
  induction groups generalizing acc with
  | nil => exact ha
  | cons g groups ih =>
    obtain ⟨hg, hgroups⟩ := List.forall_mem_cons.mp h
    exact ih hgroups (ha.add (hg.1.mul hg.2))

theorem value_foldl_groups (n : Nat) (v : Valuation) (value : Monomial → Expr)
    (groups : List (Monomial × Expr)) (acc : Expr) :
    (groups.foldl (fun acc g => acc + g.2 * value g.1) acc).value n v =
      acc.value n v + (groups.map fun g => g.2.value n v * (value g.1).value n v).sum := by
  induction groups generalizing acc with
  | nil => exact (add_zero _).symm
  | cons g groups ih =>
    rw [List.foldl_cons, ih, List.map_cons, List.sum_cons, Expr.value_add, Expr.value_mul, add_assoc]

section Mean

variable (n : Nat) (v : Valuation)

/-- What a monomial counts in a mean: variables have the values of their closed forms. -/
def meanTermValue (p : Program) (n : Nat) (v : Valuation) (m : Monomial) : Rat :=
  (m.rest Symbol.isVar).value n v * (p.closed (m.kept Symbol.isVar)).value n v

theorem value_meanOf (e : Expr) : (p.meanOf e).value n v = e.lift (p.meanTermValue n v) := by
  rw [meanOf, value_foldl_groups, Expr.value_zero, zero_add]
  exact Expr.lift_collect (Monomial.value n v) (fun m => (p.closed m).value n v) Symbol.isVar e

theorem meanTermValue_mul {m k : Monomial} (hm : m.Over p.vars) (hk : k.Within []) :
    p.meanTermValue n v (m * k) = (p.closed m).value n v * k.value n v := by
  obtain ⟨hkept, hrest⟩ := Monomial.kept_rest_mul Symbol.isVar hm.toCanonical
    hk.toCanonical hm.base_eq_one (fun q hq => isVar_of_mem_vars _ (hm.mem_vars q hq))
    fun q hq => Bool.eq_false_iff.mpr fun hvar => List.not_mem_nil (hk.mem_vars q hq hvar)
  rw [meanTermValue, hkept, hrest, mul_comm]

variable (hp : p.WellFormed)
include hp

theorem WellFormed.canonical_meanOf {e : Expr} (he : e.Within p.vars) : (p.meanOf e).Canonical := by
  refine canonical_foldl_groups (fun g hg => ?_) Expr.canonical_zero
  obtain ⟨hover, hwithin⟩ := he.collect g hg
  exact ⟨hwithin.canonical, hp.canonical_closed hover⟩

/-- Means are computed, whatever closed forms are known already. -/
theorem WellFormed.keeps_expected {e : Expr} (he : e.Within p.vars) :
    (p.expected e).Keeps (Memo.Sound p.IsClosed []) (p.meanOf e) :=
  keeps_combine (fun g hg => (hp.keeps_closedForm g.1 (he.collect g hg).1).1 []
    fun _ h => absurd h List.not_mem_nil) .zero

omit hp in
theorem value_meanOf_over {e : Expr} (he : e.Over p.vars) :
    (p.meanOf e).value n v = e.lift fun m => (p.closed m).value n v := by
  rw [value_meanOf]
  apply Expr.lift_congr
  intro t ht
  have hplain := (he.monomials t ht).isPlain isVar_of_mem_vars
  rw [meanTermValue, Monomial.kept_of_isPlain hplain, Monomial.rest_of_isPlain hplain,
    Monomial.value_one, one_mul]

/-- The mean after one more iteration is the mean at the next iteration. -/
theorem WellFormed.value_meanOf_expectedNext {e : Expr} (he : e.Over p.vars) :
    (p.meanOf (p.expectedNext e)).value n v = (p.meanOf e).value (n + 1) v := by
  rw [value_meanOf_over n v (hp.over_expectedNext he), value_meanOf_over (n + 1) v he]
  exact (hp.lift_closed_add n v he 1).symm

/-- One term in which the deterministic variables are replaced has the mean that it had. -/
theorem WellFormed.lift_substAllTerm {values : Symbol → Option Expr} {t : Monomial × Rat}
    (ht : t.1.Over p.vars) (hvalues : ∀ q ∈ t.1.powers, values q.1 =
      if q.1 ∈ p.determined then some (p.closed (.ofSymbol q.1 1)) else none)
    (hwithin : ∀ s value, values s = some value → value.Within []) :
    (Expr.substAllTerm values t).lift (p.meanTermValue n v) =
      t.2 * (p.closed t.1).value n v := by
  set d := t.1.kept fun s => decide (s ∈ p.determined)
  set x := t.1.rest fun s => decide (s ∈ p.determined)
  have hd : d.Over p.determined :=
    ⟨ht.toCanonical.filter _ one_ne_zero, rfl, fun q hq => by simpa using (List.mem_filter.mp hq).2⟩
  have hx : x.Over p.vars := ht.filter _ ht.base_eq_one
  have hsplit : d * x = t.1 := Monomial.kept_mul_rest ht.toCanonical _
  have hleft : (⟨t.1.powers.filter fun q => (values q.1).isNone, t.1.base⟩ : Monomial) = x := by
    have hfilter : (t.1.powers.filter fun q => (values q.1).isNone) =
        t.1.powers.filter fun q => !decide (q.1 ∈ p.determined) := by
      apply List.filter_congr
      intro q hq
      rw [hvalues q hq]
      split <;> simp [*]
    rw [hfilter]
    rfl
  have hproduct : (Expr.replacements values t.1.powers).value n v = (p.closed d).value n v := by
    rw [Expr.value_replacements, hp.value_closed_of_determined n v hd]
    apply Monomial.powerProduct_getD fun s => decide (s ∈ p.determined)
    intro q hq
    rw [hvalues q hq]
    by_cases hdet : q.1 ∈ p.determined <;> simp [hdet]
  have hreplaced := Expr.within_replacements hwithin t.1.powers
  rw [Expr.substAllTerm_eq, hleft, Expr.lift_mul, Expr.lift_term]
  have hmul : ((Expr.replacements values t.1.powers).lift fun k => p.meanTermValue n v (x * k)) =
      (p.closed x).value n v * (Expr.replacements values t.1.powers).value n v := by
    rw [Expr.value_eq_lift n v (Expr.replacements values t.1.powers), ← Expr.lift_const_mul]
    exact Expr.lift_congr fun u hu => meanTermValue_mul n v hx (hreplaced.within u hu)
  rw [hmul, hproduct, ← hsplit, hp.closed_mul hd hx, Expr.value_mul]
  ring

/-- Replacing the deterministic variables by their closed forms does not change the mean. -/
theorem WellFormed.meanOf_settled {e : Expr} (he : e.Over p.vars) :
    p.meanOf (p.settled e) = p.meanOf e := by
  have hwithin : (p.settled e).Within p.vars :=
    hp.within_settled_vars he.within
  apply (hp.canonical_meanOf hwithin).ext_value (N := 0) (hp.canonical_meanOf he.within)
  intro n _ v _
  rw [value_meanOf, value_meanOf_over n v he, settled, Expr.substAll, Expr.lift_sum, List.map_map,
    Expr.lift_eq_sum]
  refine congrArg List.sum (List.map_congr_left fun t ht => ?_)
  apply hp.lift_substAllTerm n v (he.monomials t ht)
  · intro q hq
    have hvar := (he.monomials t ht).mem_vars q hq
    rw [find?_settledValues]
    refine if_congr ⟨fun h => mem_determined.mpr ⟨hvar, h.2.2⟩, fun h => ?_⟩ rfl rfl
    exact ⟨Expr.mem_freeSymbols ht hq, isVar_of_mem_vars _ hvar, (mem_determined.mp h).2⟩
  · intro s value hs
    rw [find?_settledValues] at hs
    split at hs
    · next h =>
      rw [← Option.some.inj hs]
      have hvar := isVar_freeSymbols he.within s h.1 h.2.1
      exact hp.within_closed _ (Monomial.over_ofSymbol hvar 1)
    · exact absurd hs (by simp)

/-- The mean of the martingale is the change of the mean. -/
theorem WellFormed.meanOf_martingale :
    p.meanOf (p.settled (p.expectedNext p.guard - p.guard)) =
      (p.meanOf p.guard).shift 1 - p.meanOf p.guard := by
  have hover := hp.over_expectedNext hp.guard
  have hguard := hp.canonical_meanOf hp.guard.within
  rw [hp.meanOf_settled (hover.sub hp.guard)]
  apply (hp.canonical_meanOf (hover.sub hp.guard).within).ext_value (N := 0)
    ((hguard.shift 1).sub hguard)
  intro n _ v _
  rw [value_meanOf, Expr.lift_sub, ← value_meanOf, ← value_meanOf,
    hp.value_meanOf_expectedNext n v hp.guard, Expr.value_sub,
    Expr.value_shift n v hguard (by decide) (m := n + 1) (by push_cast; ring)]

end Mean

/-- A loop with a variable that is the same from the first iteration on, and one that it drives. -/
def driven : Program :=
  ⟨[⟨"d", .deterministic (.const 4), .deterministic (.const 2)⟩,
    ⟨"y", .deterministic (.const 1),
      .branches [(.ofSymbol (.var "y") + .ofSymbol (.var "d"), 1 / 2),
        (.ofSymbol (.var "y") - .const 1, 1 / 2)]⟩],
    .ofSymbol (.var "d") * .ofSymbol (.var "y")⟩

theorem parse_driven :
    Program.parse
      "d = 4\ny = 1\nwhile d*y > 0:\n    d = 2\n    y = y + d @ 1/2; y - 1\nend\n" = .ok driven := by
  decide +kernel

end Program

end ProbLoop
