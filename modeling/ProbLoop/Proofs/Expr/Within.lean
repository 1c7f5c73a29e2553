import Mathlib.Tactic.LinearCombination
import ProbLoop.Proofs.Expr.Over

/-!
# Expressions whose variables are known

Expressions in the counter, in exponentials, in constants and in given variables. Solving recurrences,
moving along the iterations and replacing variables leave an expression in this form.
-/

set_option autoImplicit false

namespace ProbLoop

variable {vars more : List Symbol}

/-- A canonical monomial in which no variable occurs but the given ones. -/
structure Monomial.Within (vars : List Symbol) (m : Monomial) : Prop extends Canonical m where
  mem_vars : ∀ q ∈ m.powers, q.1.isVar = true → q.1 ∈ vars

namespace Monomial

theorem within_one : one.Within vars := ⟨canonical_one, by simp [one]⟩

theorem within_exponential {base : Rat} (h : base ≠ 0) : (exponential base).Within vars :=
  ⟨canonical_exponential h, by simp [exponential]⟩

theorem within_ofSymbol {s : Symbol} (hs : s.isVar = true → s ∈ vars) (k : Nat) :
    (ofSymbol s k).Within vars := by
  refine ⟨canonical_ofSymbol s k, ?_⟩
  unfold ofSymbol
  split
  · simp
  · simpa using hs

theorem Within.mul {a b : Monomial} (ha : a.Within vars) (hb : b.Within vars) :
    (a * b).Within vars where
  toCanonical := ha.toCanonical.mul hb.toCanonical
  mem_vars := Assoc.forall_merge (fun _ _ _ _ h _ _ => h) ha.mem_vars hb.mem_vars

theorem Within.filter {m : Monomial} (h : m.Within vars) (keep : Symbol × Nat → Bool) {q : Rat}
    (hq : q ≠ 0) : (⟨m.powers.filter keep, q⟩ : Monomial).Within vars :=
  ⟨h.toCanonical.filter keep hq, fun p hp => h.mem_vars p (List.mem_filter.mp hp).1⟩

theorem Within.still {m : Monomial} (h : m.Within vars) :
    ((m.without .counter).withBase 1).Within vars :=
  h.filter _ one_ne_zero

theorem Within.mono {m : Monomial} (h : m.Within vars) (hv : ∀ s ∈ vars, s ∈ more) :
    m.Within more :=
  ⟨h.toCanonical, fun q hq hvar => hv _ (h.mem_vars q hq hvar)⟩

theorem Over.within {m : Monomial} (h : m.Over vars) : m.Within vars :=
  ⟨h.toCanonical, fun q hq _ => h.mem_vars q hq⟩

/-- The powers of variables are a monomial over the given ones. -/
theorem Within.over_kept {m : Monomial} (h : m.Within vars) : (m.kept Symbol.isVar).Over vars where
  toCanonical := h.toCanonical.filter _ one_ne_zero
  base_eq_one := rfl
  mem_vars q hq := h.mem_vars q (List.mem_filter.mp hq).1 (List.mem_filter.mp hq).2

end Monomial

namespace Expr

/-- The product of the powers of the values that take the place of symbols. -/
def replacements (values : Symbol → Option Expr) (l : List (Symbol × Nat)) : Expr :=
  l.foldl (fun acc p => match values p.1 with
    | none => acc
    | some value => acc * value.pow p.2) one

theorem substAllTerm_eq (values : Symbol → Option Expr) (t : Monomial × Rat) :
    substAllTerm values t =
      term ⟨t.1.powers.filter fun p => (values p.1).isNone, t.1.base⟩ t.2 *
        replacements values t.1.powers := rfl

/-- A canonical expression in which no variable occurs but the given ones. -/
structure Within (vars : List Symbol) (e : Expr) : Prop extends Ordered e where
  within : e.All (Monomial.Within vars)

theorem Within.canonical {e : Expr} (h : e.Within vars) : e.Canonical :=
  ⟨h.toOrdered, h.within.mono fun _ hm => hm.toCanonical⟩

theorem Within.mono {e : Expr} (h : e.Within vars) (hv : ∀ s ∈ vars, s ∈ more) : e.Within more :=
  ⟨h.toOrdered, h.within.mono fun _ hm => hm.mono hv⟩

theorem Over.within {e : Expr} (h : e.Over vars) : e.Within vars :=
  ⟨h.toOrdered, h.monomials.mono fun _ hm => hm.within⟩

theorem within_zero : zero.Within vars := ⟨ordered_zero, all_zero⟩

theorem within_term {m : Monomial} (h : m.Within vars) (c : Rat) : (term m c).Within vars :=
  ⟨ordered_term m c, all_term h⟩

theorem within_const (q : Rat) : (const q).Within vars := within_term Monomial.within_one q

theorem within_exponential (base : Rat) : (exponential base).Within vars :=
  ⟨ordered_exponential base, all_exponential Monomial.within_exponential⟩

theorem within_ofSymbol {s : Symbol} (hs : s.isVar = true → s ∈ vars) :
    (ofSymbol s).Within vars :=
  within_term (Monomial.within_ofSymbol hs 1) 1

theorem within_counter : counter.Within vars := within_ofSymbol (by simp [Symbol.isVar])

section Operations

variable {a b e : Expr}

theorem Within.add (ha : a.Within vars) (hb : b.Within vars) : (a + b).Within vars :=
  ⟨ha.toOrdered.add hb.toOrdered, all_add ha.within hb.within⟩

theorem Within.neg (ha : a.Within vars) : (-a).Within vars :=
  ⟨ha.toOrdered.neg, all_neg ha.within⟩

theorem Within.sub (ha : a.Within vars) (hb : b.Within vars) : (a - b).Within vars :=
  ha.add hb.neg

theorem Within.scale (ha : a.Within vars) (q : Rat) : (a.scale q).Within vars :=
  ⟨ha.toOrdered.scale q, all_scale ha.within⟩

theorem within_sum {es : List Expr} (h : ∀ e ∈ es, e.Within vars) : (sum es).Within vars :=
  ⟨ordered_sum fun e he => (h e he).toOrdered, all_sum fun e he => (h e he).within⟩

theorem within_ofTerms {ts : List (Monomial × Rat)} (h : ∀ t ∈ ts, t.1.Within vars) :
    (ofTerms ts).Within vars :=
  ⟨ordered_ofTerms ts, all_ofTerms h⟩

theorem Within.mul (ha : a.Within vars) (hb : b.Within vars) : (a * b).Within vars :=
  ⟨ordered_mul a b, all_mul (fun _ _ hm hk => hm.mul hk) ha.within hb.within⟩

theorem Within.pow (he : e.Within vars) (k : Nat) : (e.pow k).Within vars :=
  ⟨ordered_pow e he.toOrdered k,
    all_pow_const (fun _ _ hm hk => hm.mul hk) Monomial.within_one he.within k⟩

theorem within_replacements {values : Symbol → Option Expr}
    (h : ∀ s value, values s = some value → value.Within vars) (l : List (Symbol × Nat)) :
    (replacements values l).Within vars := by
  apply List.foldlRecOn l _ (within_const 1)
  intro acc hacc p _
  cases hp : values p.1 with
  | none => exact hacc
  | some value => exact hacc.mul ((h p.1 value hp).pow p.2)

theorem Within.shift (he : e.Within vars) (k : Int) : (e.shift k).Within vars := by
  unfold Expr.shift
  split
  · exact he
  · apply within_sum
    intro x hx
    obtain ⟨t, ht, rfl⟩ := List.mem_map.mp hx
    have hm := (he.within t ht).still
    exact ((within_term hm _).mul (within_exponential _)).mul
      ((within_counter.add (within_const _)).pow _)

theorem Within.subst {s : Symbol} {value : Expr} (he : e.Within vars)
    (hvalue : value.Within vars) : (e.subst s value).Within vars := by
  unfold Expr.subst
  split
  · apply within_sum
    intro x hx
    obtain ⟨t, ht, rfl⟩ := List.mem_map.mp hx
    have hrest : (term (t.1.without s) t.2).Within vars :=
      within_term ((he.within t ht).filter _ (he.within t ht).base_ne_zero) _
    unfold substTerm
    simp only
    split
    · exact hrest
    · exact hrest.mul (hvalue.pow _)
  · exact he

/-- The variables that are left are those without a value and those of the values. -/
theorem Within.substAll {values : Symbol → Option Expr} (he : e.Within vars)
    (hvalues : ∀ s value, values s = some value → value.Within more)
    (hrest : ∀ s ∈ vars, values s = none → s ∈ more) : (e.substAll values).Within more := by
  apply within_sum
  intro x hx
  obtain ⟨t, ht, rfl⟩ := List.mem_map.mp hx
  have hm := he.within t ht
  have hleft : (⟨t.1.powers.filter fun p => (values p.1).isNone, t.1.base⟩ : Monomial).Within
      more := by
    refine ⟨hm.toCanonical.filter _ hm.base_ne_zero, fun q hq hvar => ?_⟩
    obtain ⟨hmem, hnone⟩ := List.mem_filter.mp hq
    exact hrest q.1 (hm.mem_vars q hmem hvar) (Option.isNone_iff_eq_none.mp hnone)
  exact (within_term hleft _).mul (within_replacements hvalues _)

/-- The groups of an expression by its powers of variables. -/
theorem Within.collect (he : e.Within vars) :
    ∀ g ∈ e.collect Symbol.isVar, g.1.Over vars ∧ g.2.Within [] := by
  have hgroups : ∀ ts : List (Monomial × Rat), (∀ t ∈ ts, t.1.Within vars) →
      ∀ g ∈ ts.foldr (collectTerm Symbol.isVar) [], g.1.Over vars ∧ g.2.Within [] := by
    intro ts
    induction ts with
    | nil => simp
    | cons t ts ih =>
      intro hts
      obtain ⟨ht, hts⟩ := List.forall_mem_cons.mp hts
      have hrest : (t.1.rest Symbol.isVar).Within [] := by
        refine ⟨ht.toCanonical.filter _ ht.base_ne_zero, fun q hq hvar => ?_⟩
        have hnot := (List.mem_filter.mp hq).2
        simp [hvar] at hnot
      apply Assoc.forall_alter _ (ih hts)
      intro o x ho hx
      rw [← Option.some.inj hx]
      have hold : (o.getD zero).Within [] := by
        cases o with
        | none => exact within_zero
        | some w => exact (ho w rfl).2
      exact ⟨ht.over_kept, hold.toOrdered.insertTerm _ _,
        all_insertTerm hrest hold.within⟩
  exact fun g hg => hgroups e.terms he.within g (List.mem_filter.mp hg).1

end Operations

theorem Canonical.within_freeSymbols {e : Expr} (he : e.Canonical) : e.Within e.freeSymbols :=
  ⟨he.toOrdered, fun t ht => ⟨he.monomials t ht, fun _ hq _ => mem_freeSymbols ht hq⟩⟩

theorem Canonical.subst {e value : Expr} {s : Symbol} (he : e.Canonical)
    (hvalue : value.Canonical) : (e.subst s value).Canonical := by
  have hwithin : (e.subst s value).Within (e.freeSymbols ++ value.freeSymbols) :=
    (he.within_freeSymbols.mono fun _ h => List.mem_append_left _ h).subst
      (hvalue.within_freeSymbols.mono fun _ h => List.mem_append_right _ h)
  exact hwithin.canonical

section Value

variable {values : Symbol → Option Expr} (n : Nat) (v : Valuation)

theorem value_replacements (l : List (Symbol × Nat)) :
    (replacements values l).value n v =
      Monomial.powerProduct (fun s => ((values s).map (value n v)).getD 1) l := by
  have hfold : ∀ acc : Expr,
      (l.foldl (fun acc p => match values p.1 with
        | none => acc
        | some value => acc * value.pow p.2) acc).value n v =
      acc.value n v * Monomial.powerProduct (fun s => ((values s).map (value n v)).getD 1) l := by
    induction l with
    | nil => exact fun acc => (mul_one _).symm
    | cons p l ih =>
      intro acc
      rw [List.foldl_cons, ih, Monomial.powerProduct_cons, ← mul_assoc]
      cases values p.1 <;> simp
  exact (hfold one).trans (by rw [value_one, one_mul])

/-- Replacing symbols by expressions gives them the values of the expressions. -/
theorem value_substAll (hcounter : values .counter = none) (e : Expr) :
    (e.substAll values).value n v =
      e.value n fun s => ((values s).map (value n v)).getD (v s) := by
  set w : Valuation := fun s => ((values s).map (value n v)).getD (v s)
  -- The symbols with a value are replaced, and the others are left.
  have hsplit : ∀ l : List (Symbol × Nat),
      Monomial.powerProduct (Symbol.value n v) (l.filter fun p => (values p.1).isNone) *
        Monomial.powerProduct (fun s => ((values s).map (value n v)).getD 1) l =
      Monomial.powerProduct (Symbol.value n w) l := by
    intro l
    induction l with
    | nil => exact one_mul 1
    | cons p l ih =>
      rw [Monomial.powerProduct_cons, Monomial.powerProduct_cons, ← ih]
      cases hp : values p.1 with
      | none =>
        have hsame : p.1.value n w = p.1.value n v := by
          cases hs : p.1 <;> simp_all [Symbol.value, w]
        rw [List.filter_cons_of_pos (by simp [hp]), Monomial.powerProduct_cons, hsame]
        simp [mul_assoc]
      | some f =>
        have hvalue : p.1.value n w = f.value n v := by
          cases hs : p.1 <;> simp_all [Symbol.value, w]
        rw [List.filter_cons_of_neg (by simp [hp]), hvalue, Option.map_some, Option.getD_some]
        ring
  rw [substAll, value_sum, value_eq_sum, List.map_map]
  refine congrArg List.sum (List.map_congr_left fun t _ => ?_)
  rw [Function.comp_apply, substAllTerm_eq, value_mul, value_term, value_replacements,
    Monomial.value_eq, Monomial.value_eq, ← hsplit]
  ring

end Value

end Expr

namespace Recurrence

theorem within_polynomial (coefficients : List Rat) : (polynomial coefficients).Within vars := by
  apply Expr.within_sum
  intro e he
  obtain ⟨p, -, rfl⟩ := List.mem_map.mp he
  exact Expr.within_term (Monomial.within_ofSymbol (by simp [Symbol.isVar]) _) _

theorem within_solve (c : Rat) {h start : Expr} (hh : h.Within vars) (hs : start.Within vars) :
    (solve c h start).Within vars := by
  unfold solve
  split
  · exact hh
  · apply ((Expr.within_exponential c).mul hs).add
    apply Expr.within_sum
    intro e he
    obtain ⟨t, ht, rfl⟩ := List.mem_map.mp he
    exact (Expr.within_term (hh.within t ht).still _).mul
      (((Expr.within_exponential _).mul (within_polynomial _)).sub
        ((Expr.within_exponential _).scale _))

end Recurrence

end ProbLoop
