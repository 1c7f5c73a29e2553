import Mathlib.Algebra.BigOperators.Ring.List
import ProbLoop.Expr.Value
import ProbLoop.Proofs.Assoc
import ProbLoop.Proofs.Order
import ProbLoop.Proofs.Power

/-!
# Linear functions of expressions

A function on monomials extends linearly to expressions. Sums, multiples and products of expressions
are determined by these extensions; the value of an expression is one of them, and so is a
coefficient.
-/

set_option autoImplicit false

namespace ProbLoop.Expr

/-- The linear extension of a function on monomials. -/
def lift (φ : Monomial → Rat) (e : Expr) : Rat :=
  e.terms.foldr (fun t acc => t.2 * φ t.1 + acc) 0

theorem value_eq_lift (n : Nat) (v : Valuation) (e : Expr) :
    e.value n v = e.lift (Monomial.value n v) := rfl

variable (φ : Monomial → Rat)

theorem lift_eq_sum (e : Expr) : e.lift φ = (e.terms.map fun t => t.2 * φ t.1).sum := by
  simp only [lift, List.sum_eq_foldr, List.foldr_map]

theorem lift_cons (t : Monomial × Rat) (ts : List (Monomial × Rat)) :
    (⟨t :: ts⟩ : Expr).lift φ = t.2 * φ t.1 + (⟨ts⟩ : Expr).lift φ := rfl

@[simp] theorem lift_zero : zero.lift φ = 0 := rfl

theorem act_nonzero? (m : Monomial) (c x : Rat) :
    Assoc.act (fun (t : Monomial × Rat) acc => t.2 * φ t.1 + acc) m (nonzero? c) x =
      c * φ m + x := by
  unfold nonzero?
  split
  · next h => simp [Assoc.act, h]
  · rfl

@[simp] theorem lift_term (m : Monomial) (c : Rat) : (term m c).lift φ = c * φ m := by
  rw [term, lift, Assoc.foldr_consSome, act_nonzero?]
  simp

theorem lift_insertTerm (m : Monomial) (c : Rat) (ts : List (Monomial × Rat)) :
    (⟨insertTerm m c ts⟩ : Expr).lift φ = c * φ m + (⟨ts⟩ : Expr).lift φ := by
  refine Assoc.foldr_alter _ (fun x => c * φ m + x) m _ ?_ ?_ ?_ ts 0
  · intro x
    rw [act_nonzero?]
    simp
  · intro d x
    rw [act_nonzero?, Option.getD_some]
    ring
  · intro p x
    ring

theorem lift_ofTerms (ts : List (Monomial × Rat)) :
    (ofTerms ts).lift φ = (ts.map fun t => t.2 * φ t.1).sum := by
  induction ts with
  | nil => rfl
  | cons t ts ih =>
    rw [ofTerms, List.foldr_cons, lift_insertTerm, List.map_cons, List.sum_cons, ← ih]
    rfl

theorem foldr_terms (ts : List (Monomial × Rat)) (x : Rat) :
    ts.foldr (fun t acc => t.2 * φ t.1 + acc) x = (⟨ts⟩ : Expr).lift φ + x := by
  induction ts with
  | nil => exact (zero_add x).symm
  | cons t ts ih => rw [List.foldr_cons, ih, lift_cons, add_assoc]

@[simp] theorem lift_add (a b : Expr) : (a + b).lift φ = a.lift φ + b.lift φ := by
  have h : (a + b).lift φ = a.terms.foldr (fun t acc => t.2 * φ t.1 + acc) (b.lift φ) :=
    Assoc.foldr_merge _ _ (fun p q x => by ring) (fun m c d x => by rw [act_nonzero?]; ring)
      a.terms b.terms 0
  rw [h, foldr_terms]

@[simp] theorem lift_neg (a : Expr) : (-a).lift φ = -a.lift φ := by
  rw [lift_eq_sum, lift_eq_sum, ← neg_one_mul, ← List.sum_map_mul_left]
  change ((a.terms.map fun t => (t.1, -t.2)).map _).sum = _
  rw [List.map_map]
  exact congrArg List.sum (List.map_congr_left fun t _ => by simp)

@[simp] theorem lift_sub (a b : Expr) : (a - b).lift φ = a.lift φ - b.lift φ := by
  change (a + -b).lift φ = _
  rw [lift_add, lift_neg, sub_eq_add_neg]

@[simp] theorem lift_scale (a : Expr) (q : Rat) : (a.scale q).lift φ = a.lift φ * q := by
  unfold scale
  split
  · next h => simp [h]
  · simp only [lift_eq_sum, List.map_map, Function.comp_def, ← List.sum_map_mul_right]
    exact congrArg List.sum (List.map_congr_left fun t _ => by ring)

@[simp] theorem lift_sum (es : List Expr) :
    (sum es).lift φ = (es.map (lift φ)).sum := by
  induction es with
  | nil => rfl
  | cons e es ih =>
    change (e + sum es).lift φ = _
    rw [lift_add, ih, List.map_cons, List.sum_cons]

theorem lift_mulTerm (m : Monomial) (c : Rat) (b : Expr) :
    (mulTerm m c b).lift φ = c * b.lift fun k => φ (m * k) := by
  rw [mulTerm, lift_ofTerms, lift_eq_sum, ← List.sum_map_mul_left, List.map_map]
  exact congrArg List.sum (List.map_congr_left fun t _ => mul_assoc _ _ _)

/-- A product is read in its first factor and, for each monomial there, in its second. -/
theorem lift_mul (a b : Expr) :
    (a * b).lift φ = a.lift fun m => b.lift fun k => φ (m * k) := by
  change (mul a b).lift φ = _
  rw [mul, lift_sum, List.map_map, lift_eq_sum]
  exact congrArg List.sum (List.map_congr_left fun t _ => lift_mulTerm φ t.1 t.2 b)

theorem lift_congr {φ ψ : Monomial → Rat} {e : Expr} (h : ∀ t ∈ e.terms, φ t.1 = ψ t.1) :
    e.lift φ = e.lift ψ := by
  simp only [lift_eq_sum]
  exact congrArg List.sum (List.map_congr_left fun t ht => by rw [h t ht])

theorem lift_const_mul (q : Rat) (e : Expr) : (e.lift fun m => q * φ m) = q * e.lift φ := by
  simp only [lift_eq_sum, ← List.sum_map_mul_left]
  exact congrArg List.sum (List.map_congr_left fun t _ => by ring)

theorem lift_mul_const (q : Rat) (e : Expr) : (e.lift fun m => φ m * q) = e.lift φ * q := by
  simp only [mul_comm _ q, lift_const_mul]

theorem lift_fun_add (ψ : Monomial → Rat) (e : Expr) :
    (e.lift fun m => φ m + ψ m) = e.lift φ + e.lift ψ := by
  simp only [lift_eq_sum, mul_add, List.sum_map_add]

/-- A combination of functions on monomials extends to the combination of their extensions. -/
theorem lift_combination {ι : Type} (weight : ι → Rat) (ψ : ι → Monomial → Rat) (l : List ι)
    (e : Expr) :
    (e.lift fun m => (l.map fun i => weight i * ψ i m).sum) =
      (l.map fun i => weight i * e.lift (ψ i)).sum := by
  induction l with
  | nil => simp [lift_eq_sum]
  | cons i l ih => simp only [List.map_cons, List.sum_cons, lift_fun_add, lift_const_mul, ih]

/-- A function that respects products of monomials extends to one that respects products of
expressions. -/
theorem lift_mul_of_multiplicative {φ : Monomial → Rat} (hφ : ∀ m k, φ (m * k) = φ m * φ k)
    (a b : Expr) : (a * b).lift φ = a.lift φ * b.lift φ := by
  simp only [lift_mul, hφ, lift_const_mul, lift_mul_const]

theorem lift_pow_of_multiplicative {φ : Monomial → Rat} (hφ : ∀ m k, φ (m * k) = φ m * φ k)
    (h1 : φ Monomial.one = 1) (e : Expr) (k : Nat) : (e.pow k).lift φ = e.lift φ ^ k := by
  have hone : one.lift φ = 1 := by rw [one, const, lift_term, h1, one_mul]
  have h := powerInto_induction (· * ·) (fun i (x : Expr) => x.lift φ = e.lift φ ^ i)
    (fun i j x y hx hy => by rw [lift_mul_of_multiplicative hφ, hx, hy, pow_add]) k
    (hone.trans (pow_zero _).symm) (pow_one _).symm
  simpa [pow] using h

end ProbLoop.Expr
