import Mathlib.Algebra.Order.Ring.Rat
import Mathlib.Order.Compare
import ProbLoop.Monomial

/-!
# Orders of symbols and monomials

The comparisons by which monomials and expressions are sorted are linear orders: what compares equal
is equal, and they are transitive.
-/

set_option autoImplicit false

namespace ProbLoop

theorem transCmp_comap {α β : Type} (f : α → β) (cmp : β → β → Ordering) [Std.TransCmp cmp] :
    Std.TransCmp fun a b => cmp (f a) (f b) where
  eq_swap := Std.OrientedCmp.eq_swap
  isLE_trans := Std.TransCmp.isLE_trans

theorem Symbol.cmp_eq_compareLex :
    Symbol.cmp = compareLex (compareOn Symbol.kindRank) (compareOn Symbol.name) := rfl

instance : Std.TransCmp Symbol.cmp := by
  rw [Symbol.cmp_eq_compareLex]
  infer_instance

instance : Std.LawfulEqCmp Symbol.cmp where
  compare_self := by simp [Symbol.cmp]
  eq_of_compare {a b} h := by
    have hk : a.kindRank = b.kindRank ∧ a.name = b.name := by
      simpa [Symbol.cmp] using h
    cases a <;> cases b <;> simp_all [Symbol.kindRank, Symbol.name]

theorem Number.cmp_eq_compare : Number.cmp = (compare : Rat → Rat → Ordering) := by
  funext a b
  exact (LinearOrder.compare_eq_compareOfLessAndEq a b).symm

instance : Std.TransCmp Number.cmp := by
  rw [Number.cmp_eq_compare]
  infer_instance

instance : Std.LawfulEqCmp Number.cmp := by
  rw [Number.cmp_eq_compare]
  infer_instance

theorem Assoc.cmpEntries_eq_compareLex {κ ν : Type} (cmp : κ → κ → Ordering)
    (cmpValue : ν → ν → Ordering) :
    ∀ l r : List (κ × ν), cmpEntries cmp cmpValue l r =
      List.compareLex (fun p q => (cmp p.1 q.1).then (cmpValue p.2 q.2)) l r
  | [], [] => rfl
  | [], _ :: _ => rfl
  | _ :: _, [] => rfl
  | (k, v) :: l, (k', v') :: r => by
    rw [cmpEntries, List.compareLex_cons_cons, cmpEntries_eq_compareLex cmp cmpValue l r]

/-- The order of powers, entry by entry: by symbol and then by exponent. -/
def Monomial.cmpPowers : List (Symbol × Nat) → List (Symbol × Nat) → Ordering :=
  List.compareLex (compareLex (fun p q => Symbol.cmp p.1 q.1) (compareOn Prod.snd))

theorem Monomial.cmp_eq_compareLex :
    Monomial.cmp = compareLex (fun a b => cmpPowers a.powers b.powers)
      (fun a b => Number.cmp a.base b.base) := by
  funext a b
  rw [Monomial.cmp, Assoc.cmpEntries_eq_compareLex]
  rfl

instance : Std.TransCmp Monomial.cmpPowers := by
  have := transCmp_comap (α := Symbol × Nat) Prod.fst Symbol.cmp
  unfold Monomial.cmpPowers
  infer_instance

instance : Std.LawfulEqCmp Monomial.cmpPowers := by
  have : Std.LawfulEqCmp
      (compareLex (fun p q : Symbol × Nat => Symbol.cmp p.1 q.1) (compareOn Prod.snd)) :=
    { compare_self := by simp [compareLex, compareOn, Std.ReflCmp.compare_self]
      eq_of_compare := by
        intro p q h
        have h := compareLex_eq_eq.mp h
        exact Prod.ext (Std.LawfulEqCmp.eq_of_compare h.1) (by simpa [compareOn] using h.2) }
  unfold Monomial.cmpPowers
  infer_instance

instance : Std.TransCmp Monomial.cmp := by
  have := transCmp_comap Monomial.powers Monomial.cmpPowers
  have := transCmp_comap Monomial.base Number.cmp
  rw [Monomial.cmp_eq_compareLex]
  infer_instance

instance : Std.LawfulEqCmp Monomial.cmp where
  compare_self {a} := by
    rw [Monomial.cmp_eq_compareLex]
    exact compareLex_eq_eq.mpr ⟨Std.ReflCmp.compare_self, Std.ReflCmp.compare_self⟩
  eq_of_compare {a b} h := by
    rw [Monomial.cmp_eq_compareLex] at h
    obtain ⟨hp, hb⟩ := compareLex_eq_eq.mp h
    have hp := Std.LawfulEqCmp.eq_of_compare hp
    have hb := Std.LawfulEqCmp.eq_of_compare hb
    cases a
    cases b
    simp_all

end ProbLoop
