import ProbLoop.Expr.Collect
import ProbLoop.Expr.Iteration
import ProbLoop.Expr.Substitution
import ProbLoop.Proofs.Assoc
import ProbLoop.Proofs.Order
import ProbLoop.Proofs.Power

/-!
# Monomials of an expression

No operation invents a monomial: those of a sum come from its parts, and those of a product are
products of monomials of its factors.
-/

set_option autoImplicit false

namespace ProbLoop.Expr

/-- All monomials of an expression have a property. -/
def All (P : Monomial → Prop) (e : Expr) : Prop :=
  ∀ t ∈ e.terms, P t.1

variable {P Q R : Monomial → Prop}

theorem All.mono {e : Expr} (h : e.All P) (hi : ∀ m, P m → Q m) : e.All Q :=
  fun t ht => hi t.1 (h t ht)

@[simp] theorem all_zero : zero.All P := by simp [All, zero]

theorem all_term {m : Monomial} {c : Rat} (h : P m) : (term m c).All P :=
  Assoc.forall_consSome (fun _ _ => h) (by simp)

theorem all_const {q : Rat} (h : P Monomial.one) : (const q).All P :=
  all_term h

theorem all_ofSymbol {s : Symbol} (h : P (Monomial.ofSymbol s 1)) : (ofSymbol s).All P :=
  all_term h

theorem all_exponential {base : Rat} (h : base ≠ 0 → P (Monomial.exponential base)) :
    (exponential base).All P := by
  unfold exponential
  split
  · exact all_zero
  · next hb => exact all_term (h hb)

theorem all_insertTerm {m : Monomial} {c : Rat} {ts : List (Monomial × Rat)} (hm : P m)
    (h : (⟨ts⟩ : Expr).All P) : (⟨insertTerm m c ts⟩ : Expr).All P :=
  Assoc.forall_alter (fun _ _ _ _ => hm) h

theorem all_ofTerms {ts : List (Monomial × Rat)} (h : ∀ t ∈ ts, P t.1) : (ofTerms ts).All P := by
  induction ts with
  | nil => exact all_zero
  | cons t ts ih =>
    have ht := List.forall_mem_cons.mp h
    exact all_insertTerm ht.1 (ih ht.2)

theorem all_add {a b : Expr} (ha : a.All P) (hb : b.All P) : (a + b).All P :=
  Assoc.forall_merge (fun _ _ _ _ h _ _ => h) ha hb

theorem all_neg {a : Expr} (ha : a.All P) : (-a).All P := by
  intro t ht
  obtain ⟨u, hu, rfl⟩ := List.mem_map.mp ht
  exact ha u hu

theorem all_sub {a b : Expr} (ha : a.All P) (hb : b.All P) : (a - b).All P :=
  all_add ha (all_neg hb)

theorem all_scale {a : Expr} {q : Rat} (ha : a.All P) : (a.scale q).All P := by
  unfold scale
  split
  · exact all_zero
  · intro t ht
    obtain ⟨u, hu, rfl⟩ := List.mem_map.mp ht
    exact ha u hu

theorem all_sum {es : List Expr} (h : ∀ e ∈ es, e.All P) : (sum es).All P := by
  induction es with
  | nil => exact all_zero
  | cons e es ih =>
    have he := List.forall_mem_cons.mp h
    exact all_add he.1 (ih he.2)

theorem all_mul {a b : Expr} (hm : ∀ m k, P m → Q k → R (m * k)) (ha : a.All P) (hb : b.All Q) :
    (a * b).All R := by
  refine all_sum fun e he => ?_
  obtain ⟨t, ht, rfl⟩ := List.mem_map.mp he
  refine all_ofTerms fun u hu => ?_
  obtain ⟨w, hw, rfl⟩ := List.mem_map.mp hu
  exact hm _ _ (ha t ht) (hb w hw)

/-- A property that is indexed by a degree and that products add up holds of a power at the degree of
the power. -/
theorem all_pow {P : Nat → Monomial → Prop} (hm : ∀ i j m k, P i m → P j k → P (i + j) (m * k))
    (h1 : P 0 Monomial.one) {e : Expr} {d : Nat} (he : e.All (P d)) (k : Nat) :
    (e.pow k).All (P (d * k)) := by
  have h := powerInto_induction (· * ·) (fun i (x : Expr) => x.All (P i))
    (fun i j x y hx hy => all_mul (hm i j) hx hy) k
    (show one.All (P 0) from all_const h1) he
  simpa [pow] using h

theorem all_pow_const (hm : ∀ m k, P m → P k → P (m * k)) (h1 : P Monomial.one) {e : Expr}
    (he : e.All P) (k : Nat) : (e.pow k).All P :=
  all_pow (P := fun _ => P) (d := 0) (fun _ _ => hm) h1 he k

end ProbLoop.Expr
