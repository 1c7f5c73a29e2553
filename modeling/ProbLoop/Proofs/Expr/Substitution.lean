import ProbLoop.Proofs.Expr.Built
import ProbLoop.Proofs.Expr.Over
import ProbLoop.Proofs.Expr.Powers

/-!
# Substitution and values

Replacing a symbol by an expression reads the expression in the old values and gives the symbol the
value that is found. Replacing several symbols at once reads all expressions in the old values, so
what is put in place of one symbol is not replaced again.
-/

set_option autoImplicit false

namespace ProbLoop

/-- All symbols that have an expression take its value; every expression is read in the old values. -/
def Valuation.setAll (v : Valuation) (n : Nat) (values : Symbol → Option Expr) : Valuation :=
  fun s => ((values s).map (Expr.value n v)).getD (v s)

namespace Expr

variable {vars more : List Symbol} {s : Symbol} {value e : Expr}

/-- Replacing a symbol that occurs leaves the other ones and those of the value. -/
theorem Over.subst_of_mentions (he : e.Over vars) (hm : e.mentions s = true)
    (h : ∀ r ∈ vars, r ≠ s → r ∈ more) (hvalue : value.Over more) : (e.subst s value).Over more := by
  rw [Expr.subst, if_pos hm]
  apply over_sum
  intro x hx
  obtain ⟨t, ht, rfl⟩ := List.mem_map.mp hx
  have hwithout := (he.monomials t ht).without s
  have hrest : (t.1.without s).Over more := by
    refine ⟨hwithout.toCanonical, hwithout.base_eq_one, fun q hq => ?_⟩
    have hne : q.1 ≠ s := by simpa using (List.mem_filter.mp hq).2
    exact h q.1 (hwithout.mem_vars q hq) hne
  unfold substTerm
  simp only
  split
  · exact over_term hrest t.2
  · exact (over_term hrest t.2).mul (hvalue.pow _)

theorem Over.subst (he : e.Over vars) (hvalue : value.Over vars) :
    (e.subst s value).Over vars := by
  by_cases hm : e.mentions s = true
  · exact he.subst_of_mentions hm (fun _ hr _ => hr) hvalue
  · rw [Expr.subst, if_neg hm]
    exact he

/-- Replacing a symbol is linear. -/
theorem lift_subst (φ : Monomial → Rat) (he : e.Canonical) (s : Symbol) (value : Expr) :
    (e.subst s value).lift φ = e.lift fun m =>
      if m.powerOf s = 0 then φ (m.without s)
      else (value.pow (m.powerOf s)).lift fun k => φ (m.without s * k) := by
  unfold subst
  split
  · rw [lift_sum, List.map_map, lift_eq_sum]
    refine congrArg List.sum (List.map_congr_left fun t _ => ?_)
    rw [Function.comp_apply, substTerm]
    split
    · rw [lift_term]
    · rw [lift_mul, lift_term]
  · next h =>
    refine lift_congr fun t ht => ?_
    have h0 := powerOf_eq_zero_of_not_mentions (by simpa using h) ht
    rw [if_pos h0, Monomial.without_of_powerOf_eq_zero (he.monomials t ht) h0]

/-- A symbol that is not mentioned may have any value. -/
theorem value_set_of_not_mentions (he : e.Canonical) (hs : s ≠ .counter)
    (h : e.mentions s = false) (n : Nat) (v : Valuation) (q : Rat) :
    e.value n (v.set s q) = e.value n v := by
  rw [value_eq_lift, value_eq_lift]
  refine lift_congr fun t ht => ?_
  have hzero := powerOf_eq_zero_of_not_mentions h ht
  rw [Monomial.value_set n v (he.monomials t ht) hs, hzero, pow_zero, one_mul,
    Monomial.without_of_powerOf_eq_zero (he.monomials t ht) hzero]

/-- Replacing a symbol by an expression gives it the value of the expression. -/
theorem value_subst (he : e.Canonical) (hs : s ≠ .counter) (n : Nat) (v : Valuation) :
    (e.subst s value).value n v = e.value n (v.set s (value.value n v)) := by
  rw [value_eq_lift, lift_subst _ he, value_eq_lift]
  refine lift_congr fun t ht => ?_
  rw [Monomial.value_set n v (he.monomials t ht) hs]
  split
  · next hzero => rw [hzero, pow_zero, one_mul]
  · simp only [Monomial.value_mul]
    rw [lift_const_mul, ← value_eq_lift, value_pow, mul_comm]

/-- The square of one variable times another and an exponential, less the first one. -/
def tangled : Expr :=
  (ofSymbol (.var "x")).pow 2 * ofSymbol (.var "y") * exponential 2 - ofSymbol (.var "x")

/-- Each of two variables takes the place of the other. -/
def exchange (s : Symbol) : Option Expr :=
  if s = .var "x" then some (ofSymbol (.var "y"))
  else if s = .var "y" then some (ofSymbol (.var "x"))
  else none

end Expr

end ProbLoop
