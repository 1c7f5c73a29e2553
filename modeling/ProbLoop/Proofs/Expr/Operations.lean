import ProbLoop.Proofs.Expr.Built

/-!
# Arithmetic and moving along the iterations

Sums, products and powers of expressions denote the sums, products and powers of their values, and what
they store is canonical. A canonical expression is determined by its values, so moving along the
iterations composes as adding integers does, and reading a moved expression at one iteration is reading
the expression at another.
-/

set_option autoImplicit false

namespace ProbLoop.Expr

variable {a b e : Expr}

/-- A canonical expression with the given value at every iteration, for all values of the symbols. -/
structure Denotes (e : Expr) (f : Nat → Valuation → Rat) : Prop extends Canonical e where
  value_eq : ∀ n v, e.value n v = f n v

/-- Two canonical expressions that denote the same function are equal. -/
theorem Denotes.unique {f : Nat → Valuation → Rat} (ha : a.Denotes f) (hb : b.Denotes f) : a = b :=
  ha.toCanonical.ext_value hb.toCanonical (N := 0) fun n _ v _ =>
    (ha.value_eq n v).trans (hb.value_eq n v).symm

/-- Arithmetic on expressions is that of their values, and it leaves no zero coefficient, no zero
exponent and no zero base behind. Squaring repeatedly is multiplying as often as the exponent says. -/
theorem Built.arithmetic_denotes (ha : a.Built) (hb : b.Built) (q : Rat) (k : Nat) :
    (a + b).Denotes (fun n v => a.value n v + b.value n v) ∧
      (a - b).Denotes (fun n v => a.value n v - b.value n v) ∧
      (a * b).Denotes (fun n v => a.value n v * b.value n v) ∧
      (-a).Denotes (fun n v => -a.value n v) ∧
      (a.scale q).Denotes (fun n v => q * a.value n v) ∧
      (a.pow k).Denotes (fun n v => (List.replicate k (a.value n v)).prod) := by
  have hca := ha.canonical
  have hcb := hb.canonical
  refine ⟨⟨hca.add hcb, fun n v => value_add n v a b⟩, ⟨hca.sub hcb, fun n v => value_sub n v a b⟩,
    ⟨hca.mul hcb, fun n v => value_mul n v a b⟩, ⟨hca.neg, fun n v => value_neg n v a⟩,
    ⟨hca.scale q, fun n v => ?_⟩, ⟨hca.pow k, fun n v => ?_⟩⟩
  · rw [value_scale, mul_comm]
  · rw [value_pow, List.prod_replicate]

/-- One more than a sign that alternates. Its square is twice itself, and one less than the sign takes it
to zero. -/
def alternating : Expr := one + exponential (-1)

/-- Products of bases that are one join terms without an exponential, and terms that cancel are not kept. -/
theorem alternating_denotes :
    alternating * (one - exponential (-1)) = zero ∧ alternating.pow 3 = alternating.scale 4 := by
  have hbuilt : alternating.Built := .add .one (.exponential (-1))
  have hvalue : ∀ n v, alternating.value n v = 1 + (-1) ^ n := fun n v => by
    simp [alternating, value_exponential]
  have hsquare : ∀ n : Nat, ((-1 : Rat) ^ n) * (-1) ^ n = 1 := fun n => by
    rw [← mul_pow, neg_one_mul, neg_neg, one_pow]
  obtain ⟨-, -, hmul, -, hscale, hpow⟩ :=
    hbuilt.arithmetic_denotes (.sub .one (.exponential (-1))) 4 3
  refine ⟨hmul.unique ⟨canonical_zero, fun n v => ?_⟩, hpow.unique ⟨hscale.toCanonical, fun n v => ?_⟩⟩
  · rw [value_sub, value_one, value_exponential _ _ (by norm_num), hvalue, value_zero]
    linear_combination hsquare n
  · rw [hscale.value_eq, hvalue]
    simp only [List.replicate, List.prod_cons, List.prod_nil]
    linear_combination -(3 + (-1) ^ n) * hsquare n

/-! ### Moving along the iterations -/

section Iterations

variable {j k : Int}

/-- A moved expression is read at the iteration to which it was moved. -/
theorem Canonical.atIteration_shift (he : e.Canonical) (hk : k.natAbs < 2 ^ 32) {m l : Nat}
    (hl : (l : Int) = m + k) : (e.shift k).atIteration m = e.atIteration l := by
  apply ((he.shift k).still_atIteration m).ext (he.still_atIteration l)
  intro v
  rw [value_atIteration 0 v (he.shift k), value_atIteration 0 v he, value_shift m v he hk hl]

/-- Moving twice is moving once by the sum. Both sides are compared where no iteration on the way is
negative. -/
theorem Canonical.shift_shift (he : e.Canonical) (hj : j.natAbs < 2 ^ 32) (hk : k.natAbs < 2 ^ 32)
    (hjk : (j + k).natAbs < 2 ^ 32) : (e.shift j).shift k = e.shift (j + k) := by
  apply ((he.shift j).shift k).ext_value (he.shift (j + k)) (N := j.natAbs + k.natAbs)
  intro n hn v _
  obtain ⟨m, hm⟩ := Int.eq_ofNat_of_zero_le (a := n + k) (by omega)
  obtain ⟨l, hl⟩ := Int.eq_ofNat_of_zero_le (a := m + j) (by omega)
  rw [value_shift n v (he.shift j) hk hm.symm, value_shift m v he hj hl.symm,
    value_shift n v he hjk (m := l) (by omega)]

/-- Reading an expression at an iteration gives its value there, a moved expression is read where it was
moved to, and moving twice is moving by the sum. -/
theorem Built.iterations (he : e.Built) :
    (∀ (m n : Nat) (v : Valuation), (e.atIteration m).value n v = e.value m v) ∧
      (∀ (k : Int) (m l : Nat), k.natAbs < 2 ^ 32 → (l : Int) = m + k →
        (e.shift k).atIteration m = e.atIteration l) ∧
      ∀ j k : Int, j.natAbs < 2 ^ 32 → k.natAbs < 2 ^ 32 → (j + k).natAbs < 2 ^ 32 →
        (e.shift j).shift k = e.shift (j + k) := by
  have hcanonical := he.canonical
  refine ⟨?_, ?_, ?_⟩
  · intro m n v
    exact value_atIteration n v hcanonical m
  · intro k m l hk hl
    exact hcanonical.atIteration_shift hk hl
  · intro j k hj hk hjk
    exact hcanonical.shift_shift hj hk hjk

/-- A variable times a polynomial and an exponential whose base is a negative fraction, beside another
variable and a growing exponential. -/
def swinging : Expr :=
  counter.pow 2 * exponential (-1 / 2) * ofSymbol (.var "x") + ofSymbol (.var "y") - exponential 3

/-- Moving back and forth, below zero too. -/
theorem swinging_iterations :
    (∀ v, (swinging.atIteration 2).value 0 v = v (.var "x") + v (.var "y") - 9) ∧
      (swinging.shift (-3)).atIteration 5 = swinging.atIteration 2 ∧
      (swinging.shift 7).shift (-9) = swinging.shift (-2) := by
  have hbuilt : swinging.Built :=
    .sub (.add (.mul (.mul (.pow (.ofSymbol _) 2) (.exponential _)) (.ofSymbol _)) (.ofSymbol _))
      (.exponential 3)
  obtain ⟨hvalue, hread, hmove⟩ := hbuilt.iterations
  refine ⟨fun v => ?_, hread (-3) 5 2 (by decide) (by decide),
    hmove 7 (-9) (by decide) (by decide) (by decide)⟩
  rw [hvalue]
  norm_num [swinging, value_exponential, Symbol.value]

end Iterations

end ProbLoop.Expr
