import ProbLoop.Program.Descent
import ProbLoop.Proofs.Expr.Unique

/-!
# Expressions in program variables alone

Grouping such an expression by its monomials over the variables leaves a number as the coefficient of
each of them.
-/

set_option autoImplicit false

namespace ProbLoop

namespace Monomial

theorem isPlain_iff {m : Monomial} :
    m.isPlain = true ↔ m.base = 1 ∧ ∀ p ∈ m.powers, p.1.isVar = true := by
  simp [isPlain, symbols]

theorem kept_of_isPlain {m : Monomial} (h : m.isPlain = true) : m.kept Symbol.isVar = m := by
  obtain ⟨hb, hp⟩ := isPlain_iff.mp h
  obtain ⟨powers, base⟩ := m
  simp only at hb hp
  rw [kept, List.filter_eq_self.mpr hp, hb]

theorem rest_of_isPlain {m : Monomial} (h : m.isPlain = true) : m.rest Symbol.isVar = one := by
  obtain ⟨hb, hp⟩ := isPlain_iff.mp h
  have hf : m.powers.filter (fun p => !p.1.isVar) = [] :=
    List.filter_eq_nil_iff.mpr fun p hp' => by simp [hp p hp']
  rw [rest, hf, hb]
  rfl

theorem eq_one_of_isOne {m : Monomial} (h : m.isOne = true) : m = one := by
  obtain ⟨powers, base⟩ := m
  simp only [isOne, Bool.and_eq_true, List.isEmpty_iff, beq_iff_eq] at h
  rw [one, h.1, h.2]

section Value

variable (n : Nat) (v : Valuation)

theorem value_kept_mul_rest (keep : Symbol → Bool) (m : Monomial) :
    (m.kept keep).value n v * (m.rest keep).value n v = m.value n v := by
  have hsplit : ∀ l : List (Symbol × Nat),
      powerProduct (Symbol.value n v) (l.filter fun p => keep p.1) *
        powerProduct (Symbol.value n v) (l.filter fun p => !keep p.1) =
      powerProduct (Symbol.value n v) l := by
    intro l
    induction l with
    | nil => exact one_mul 1
    | cons p l ih =>
      rw [powerProduct_cons, ← ih]
      by_cases hp : keep p.1 = true
      · rw [List.filter_cons, if_pos hp, List.filter_cons, if_neg (by simp [hp]), powerProduct_cons]
        ring
      · rw [List.filter_cons, if_neg hp, List.filter_cons, if_pos (by simp [hp]), powerProduct_cons]
        ring
  rw [value_eq, value_eq, value_eq, ← hsplit m.powers, kept, rest, one_pow]
  ring

end Value

end Monomial

namespace Expr

/-- Holds of a polynomial over the program variables with rational coefficients. -/
structure IsPlain (e : Expr) : Prop extends Canonical e where
  plain : e.All fun m => m.isPlain = true

theorem collect_of_plain {ts : List (Monomial × Rat)} (hs : Assoc.Sorted Monomial.cmp ts)
    (hp : ∀ t ∈ ts, t.1.isPlain = true) :
    ts.foldr (collectTerm Symbol.isVar) [] = ts.map fun t => (t.1, const t.2) := by
  induction ts with
  | nil => rfl
  | cons t ts ih =>
    have ht := List.pairwise_cons.mp hs
    have hpt := List.forall_mem_cons.mp hp
    have hc : (⟨insertTerm Monomial.one t.2 zero.terms⟩ : Expr) = const t.2 := by
      rw [insertTerm, zero, Assoc.alter, Option.getD_none, zero_add]
      rfl
    rw [List.foldr_cons, ih ht.2 hpt.2, collectTerm, Monomial.kept_of_isPlain hpt.1,
      Monomial.rest_of_isPlain hpt.1]
    cases ts with
    | nil =>
      rw [List.map_nil, Assoc.alter, Option.getD_none, hc]
      rfl
    | cons u ts =>
      rw [List.map_cons, Assoc.alter, ht.1 u List.mem_cons_self]
      simp only [Option.getD_none, hc]
      rfl

theorem isZero_const {q : Rat} (hq : q ≠ 0) : (const q).isZero = false := by
  simp [const, term, nonzero?, hq, Assoc.consSome, isZero]

theorem IsPlain.collect {e : Expr} (he : e.IsPlain) :
    e.collect Symbol.isVar = e.terms.map fun t => (t.1, const t.2) := by
  rw [Expr.collect, collect_of_plain he.sorted he.plain]
  apply List.filter_eq_self.mpr
  intro g hg
  obtain ⟨t, ht, rfl⟩ := List.mem_map.mp hg
  rw [isZero_const (he.coefficient_ne_zero t ht), Bool.not_false]

theorem find?_map_const (m : Monomial) (ts : List (Monomial × Rat)) :
    Assoc.find? m (ts.map fun t => (t.1, const t.2)) = (Assoc.find? m ts).map const := by
  induction ts with
  | nil => rfl
  | cons t ts ih =>
    rw [List.map_cons, Assoc.find?, Assoc.find?, ih]
    split <;> rfl

theorem IsPlain.collected {e : Expr} (he : e.IsPlain) (m : Monomial) :
    e.collected Symbol.isVar m = const (e.coefficient m) := by
  rw [Expr.collected, he.collect, find?_map_const, coefficient]
  cases Assoc.find? m e.terms with
  | none => rfl
  | some c => rfl

/-- The terms of a list that belong to one group, without the factor that they share. -/
def group (keep : Symbol → Bool) (ts : List (Monomial × Rat)) (m : Monomial) : Expr :=
  (Assoc.find? m (ts.foldr (collectTerm keep) [])).getD zero

theorem sorted_groups (keep : Symbol → Bool) (ts : List (Monomial × Rat)) :
    Assoc.Sorted Monomial.cmp (ts.foldr (collectTerm keep) []) := by
  induction ts with
  | nil => exact List.Pairwise.nil
  | cons t ts ih => exact Assoc.sorted_alter _ _ ih

theorem group_cons (keep : Symbol → Bool) (t : Monomial × Rat) (ts : List (Monomial × Rat))
    (m : Monomial) :
    group keep (t :: ts) m =
      if t.1.kept keep = m then ⟨insertTerm (t.1.rest keep) t.2 (group keep ts m).terms⟩
      else group keep ts m := by
  rw [group, List.foldr_cons, collectTerm, Assoc.find?_alter _ _ (sorted_groups keep ts)]
  split
  · next h => rw [h, Option.getD_some]; rfl
  · rfl

theorem ordered_group (keep : Symbol → Bool) (ts : List (Monomial × Rat)) (m : Monomial) :
    (group keep ts m).Ordered := by
  induction ts with
  | nil => exact ordered_zero
  | cons t ts ih =>
    rw [group_cons]
    split
    · exact ih.insertTerm _ _
    · exact ih

theorem lift_group (φ : Monomial → Rat) (keep : Symbol → Bool) (ts : List (Monomial × Rat))
    (m : Monomial) :
    (group keep ts m).lift φ =
      (⟨ts⟩ : Expr).lift fun k => if k.kept keep = m then φ (k.rest keep) else 0 := by
  induction ts with
  | nil => rfl
  | cons t ts ih =>
    rw [group_cons, lift_cons]
    split
    · rw [lift_insertTerm, ← ih]
    · rw [ih, mul_zero, zero_add]

/-- The monomials of groups are products of the symbols by which they are made. -/
theorem isPlain_of_mem_collect {e : Expr} :
    ∀ g ∈ e.collect Symbol.isVar, g.1.isPlain = true := by
  have hgroups : ∀ ts : List (Monomial × Rat),
      ∀ g ∈ ts.foldr (collectTerm Symbol.isVar) [], g.1.isPlain = true := by
    intro ts
    induction ts with
    | nil => simp
    | cons t ts ih =>
      apply Assoc.forall_alter _ ih
      intro _ _ _ _
      exact Monomial.isPlain_iff.mpr ⟨rfl, fun q hq => (List.mem_filter.mp hq).2⟩
  exact fun g hg => hgroups e.terms g (List.mem_filter.mp hg).1

theorem eq_zero_of_isZero {e : Expr} (h : e.isZero = true) : e = zero := by
  have ht : e.terms = [] := List.isEmpty_iff.mp h
  cases e
  exact congrArg Expr.mk ht

theorem collected_eq_group (keep : Symbol → Bool) (e : Expr) (m : Monomial) :
    e.collected keep m = group keep e.terms m := by
  have hs := sorted_groups keep e.terms
  rw [collected, collect, group]
  generalize e.terms.foldr (collectTerm keep) [] = groups at hs
  cases hf : Assoc.find? m groups with
  | none =>
    have hne : ∀ g ∈ groups.filter (fun g => !g.2.isZero), g.1 ≠ m := by
      rintro g hg rfl
      rw [Assoc.find?_of_mem hs (List.mem_filter.mp hg).1] at hf
      exact absurd hf (by simp)
    rw [Assoc.find?_eq_none hne]
  | some x =>
    have hm := Assoc.mem_of_find? hf
    by_cases hx : x.isZero = true
    · have hne : ∀ g ∈ groups.filter (fun g => !g.2.isZero), g.1 ≠ m := by
        rintro g hg rfl
        have hg' := List.mem_filter.mp hg
        rw [Assoc.find?_of_mem hs hg'.1] at hf
        rw [Option.some.inj hf, hx] at hg'
        exact absurd hg'.2 (by decide)
      rw [Assoc.find?_eq_none hne, eq_zero_of_isZero hx]
      rfl
    · have hmf : (m, x) ∈ groups.filter (fun g => !g.2.isZero) :=
        List.mem_filter.mpr ⟨hm, by simpa using hx⟩
      rw [Assoc.find?_of_mem (hs.filter _) hmf]

theorem eq_of_kept_of_rest {keep : Symbol → Bool} {a b : Monomial} (ha : a.Canonical)
    (hb : b.Canonical) (hk : a.kept keep = b.kept keep) (hr : a.rest keep = b.rest keep) :
    a = b := by
  have hkp : a.powers.filter (fun p => keep p.1) = b.powers.filter (fun p => keep p.1) :=
    congrArg Monomial.powers hk
  have hrp : a.powers.filter (fun p => !keep p.1) = b.powers.filter (fun p => !keep p.1) :=
    congrArg Monomial.powers hr
  have hbase : a.base = b.base := by
    change (a.rest keep).base = (b.rest keep).base
    rw [hr]
  have hmem : ∀ m : Monomial, ∀ p, p ∈ m.powers ↔ p ∈ m.powers.filter (fun p => keep p.1) ∨
      p ∈ m.powers.filter (fun p => !keep p.1) := by
    intro m p
    rw [List.mem_filter, List.mem_filter]
    cases keep p.1 <;> simp
  have hpowers : a.powers = b.powers := by
    apply Assoc.Sorted.ext ha.sorted hb.sorted
    intro p
    rw [hmem a, hmem b, hkp, hrp]
  cases a
  cases b
  simp_all

theorem coefficient_of_constant? {e : Expr} {q : Rat} (h : e.constant? = some q) {m : Monomial}
    (hm : m ≠ Monomial.one) : e.coefficient m = 0 := by
  obtain ⟨ts⟩ := e
  rw [constant?] at h
  split at h
  · next ht => rw [coefficient, ht]; rfl
  · next k c ht =>
    split at h
    · next hk =>
      have hone := Monomial.eq_one_of_isOne hk
      rw [coefficient, ht, Assoc.find?, if_neg (fun hk => hm (hk.symm.trans hone))]
      rfl
    · simp at h
  · simp at h

/-- If a group is a number, its one term is the monomial of the group. -/
theorem rest_eq_one_of_constant? {keep : Symbol → Bool} {e : Expr} (he : e.Canonical)
    {m : Monomial} {q : Rat} (h : (e.collected keep m).constant? = some q) :
    ∀ t ∈ e.terms, t.1.kept keep = m → t.1.rest keep = Monomial.one := by
  intro t ht hk
  by_contra hr
  have hc := coefficient_of_constant? h hr
  rw [collected_eq_group, coefficient_eq_lift (ordered_group _ _ _), lift_group] at hc
  have hφ : e.lift (fun k => if k.kept keep = m then if k.rest keep = t.1.rest keep then 1 else 0
      else 0) = e.coefficient t.1 := by
    rw [coefficient_eq_lift he.toOrdered]
    apply lift_congr
    intro u hu
    by_cases hu1 : u.1 = t.1
    · rw [if_pos hu1, hu1, if_pos hk, if_pos rfl]
    · rw [if_neg hu1]
      by_cases hku : u.1.kept keep = m
      · rw [if_pos hku, if_neg fun hru => hu1 (eq_of_kept_of_rest (he.monomials u hu)
          (he.monomials t ht) (hku.trans hk.symm) hru)]
      · rw [if_neg hku]
  rw [hφ] at hc
  have hmem := (mem_terms_iff he.toOrdered t.1 t.2).mp ht
  exact hmem.2 (hmem.1.symm.trans hc)

/-- Functions of the monomials of the groups and of what is left of the terms extend to their products
on the terms. -/
theorem lift_collect (φ ψ : Monomial → Rat) (keep : Symbol → Bool) (e : Expr) :
    ((e.collect keep).map fun g => g.2.lift φ * ψ g.1).sum =
      e.lift fun m => φ (m.rest keep) * ψ (m.kept keep) := by
  have hfold : ∀ ts : List (Monomial × Rat),
      (ts.foldr (collectTerm keep) []).foldr (fun g acc => g.2.lift φ * ψ g.1 + acc) 0 =
        (⟨ts⟩ : Expr).lift fun m => φ (m.rest keep) * ψ (m.kept keep) := by
    intro ts
    induction ts with
    | nil => rfl
    | cons t ts ih =>
      rw [List.foldr_cons, collectTerm, Assoc.foldr_alter
        (fun (g : Monomial × Expr) acc => g.2.lift φ * ψ g.1 + acc)
        (fun acc => t.2 * (φ (t.1.rest keep) * ψ (t.1.kept keep)) + acc), ih]
      · rfl
      · intro x
        simp only [Option.getD_none, Assoc.act]
        rw [lift_insertTerm]
        simp only [lift, zero, List.foldr_nil]
        ring
      · intro g x
        simp only [Option.getD_some, Assoc.act]
        rw [lift_insertTerm]
        ring
      · intro g x
        ring
  have hnonzero : ∀ gs : List (Monomial × Expr),
      ((gs.filter fun g => !g.2.isZero).map fun g => g.2.lift φ * ψ g.1).sum =
        gs.foldr (fun g acc => g.2.lift φ * ψ g.1 + acc) 0 := by
    intro gs
    induction gs with
    | nil => rfl
    | cons g gs ih =>
      rw [List.foldr_cons, ← ih, List.filter_cons]
      by_cases hg : g.2.isZero = true
      · rw [if_neg (by simp [hg]), eq_zero_of_isZero hg, lift_zero, zero_mul, zero_add]
      · rw [if_pos (by simp [hg]), List.map_cons, List.sum_cons]
  rw [collect, hnonzero, hfold]

/-- An expression is the sum of its groups, each times the monomial that it shares. -/
theorem value_collect (n : Nat) (v : Valuation) (keep : Symbol → Bool) (e : Expr) :
    ((e.collect keep).map fun g => g.2.value n v * g.1.value n v).sum = e.value n v := by
  have hlift := lift_collect (Monomial.value n v) (Monomial.value n v) keep e
  refine hlift.trans (lift_congr fun t _ => ?_)
  rw [mul_comm, Monomial.value_kept_mul_rest]

theorem constant?_const (q : Rat) : (const q).constant? = some q := by
  by_cases hq : q = 0
  · rw [hq]
    rfl
  · simp [const, term, nonzero?, hq, Assoc.consSome, constant?, Monomial.isOne, Monomial.one]

end Expr

end ProbLoop
