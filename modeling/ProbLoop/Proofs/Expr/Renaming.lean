import Mathlib.Logic.Equiv.Basic
import ProbLoop.Proofs.Expr.Uses

/-!
# Renaming symbols

A permutation of the symbols renames those of an expression. The renamed expression has the values that the
expression has when every symbol takes the value of its new name.
-/

set_option autoImplicit false

namespace ProbLoop

theorem Symbol.value_of_ne_counter {s : Symbol} (hs : s ≠ .counter) (n : Nat) (v : Valuation) :
    s.value n v = v s := by
  cases s with
  | counter => exact absurd rfl hs
  | _ => rfl

namespace Expr

variable {P : Symbol → Prop} {e : Expr} {ρ : Equiv.Perm Symbol}

/-- The expression with every symbol replaced by its image. -/
def rename (ρ : Equiv.Perm Symbol) (e : Expr) : Expr :=
  e.substAll fun s => if ρ s = s then none else some (ofSymbol (ρ s))

theorem value_rename (hcounter : ρ .counter = .counter) (e : Expr) (n : Nat) (v : Valuation) :
    (e.rename ρ).value n v = e.value n (v ∘ ρ) := by
  rw [rename, value_substAll _ _ (if_pos hcounter)]
  congr 1
  funext s
  by_cases hs : ρ s = s
  · simp [hs]
  · have hne : ρ s ≠ .counter := fun h => hs (h.trans (ρ.injective (h.trans hcounter.symm)).symm)
    simp [hs, Symbol.value_of_ne_counter hne]

theorem Canonical.rename (he : e.Canonical) (ρ : Equiv.Perm Symbol) : (e.rename ρ).Canonical := by
  apply he.substAll
  intro s value hvalue
  split at hvalue
  · cases hvalue
  · rw [← Option.some.inj hvalue]
    exact canonical_ofSymbol _

/-- The value of an expression depends on its symbols alone. -/
theorem Uses.value_congr (he : e.Uses P) {v w : Valuation} (h : ∀ s, P s → v s = w s) (n : Nat) :
    e.value n v = e.value n w := by
  rw [value_eq_sum, value_eq_sum]
  refine congrArg List.sum (List.map_congr_left fun t ht => ?_)
  have hpowers : Monomial.powerProduct (Symbol.value n v) t.1.powers =
      Monomial.powerProduct (Symbol.value n w) t.1.powers := by
    apply Monomial.powerProduct_congr
    intro q hq
    by_cases hcounter : q.1 = .counter
    · rw [hcounter]
      rfl
    · rw [Symbol.value_of_ne_counter hcounter, Symbol.value_of_ne_counter hcounter]
      exact h q.1 (he.symbols t ht q hq)
  rw [Monomial.value_eq, Monomial.value_eq, hpowers]

/-- Nothing is renamed if the names of all symbols stay. -/
theorem Uses.rename_eq (hcounter : ρ .counter = .counter) (he : e.Uses fun s => ρ s = s) :
    e.rename ρ = e := by
  refine (he.rename ρ).ext_value he.toCanonical (N := 0) fun n _ v _ => ?_
  rw [value_rename hcounter]
  exact he.value_congr (fun s hs => congrArg v hs) n

end Expr

end ProbLoop
