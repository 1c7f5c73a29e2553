import ProbLoop.Program.Execution
import ProbLoop.Proofs.Expr.Canonical
import ProbLoop.Proofs.Expr.Linear

/-!
# Values of expressions

The operations on expressions are those of the rationals on their values, at every iteration and for
all values of the symbols.
-/

set_option autoImplicit false

namespace ProbLoop

variable (n : Nat) (v : Valuation)

namespace Monomial

/-- The product of the given powers of the values of symbols. -/
def powerProduct (g : Symbol → Rat) (powers : List (Symbol × Nat)) : Rat :=
  powers.foldr (fun p acc => g p.1 ^ p.2 * acc) 1

theorem value_eq (m : Monomial) :
    m.value n v = powerProduct (Symbol.value n v) m.powers * m.base ^ n := rfl

theorem powerProduct_cons (g : Symbol → Rat) (p : Symbol × Nat) (l : List (Symbol × Nat)) :
    powerProduct g (p :: l) = g p.1 ^ p.2 * powerProduct g l := rfl

theorem foldr_powers (g : Symbol → Rat) (l : List (Symbol × Nat)) (x : Rat) :
    l.foldr (fun p acc => g p.1 ^ p.2 * acc) x = powerProduct g l * x := by
  induction l with
  | nil => exact (one_mul x).symm
  | cons p l ih => rw [List.foldr_cons, ih, powerProduct_cons, mul_assoc]

theorem powerProduct_mul (g : Symbol → Rat) (a b : Monomial) :
    powerProduct g (a * b).powers = powerProduct g a.powers * powerProduct g b.powers := by
  have h : powerProduct g (a * b).powers =
      a.powers.foldr (fun p acc => g p.1 ^ p.2 * acc) (powerProduct g b.powers) :=
    Assoc.foldr_merge _ _ (fun p q x => by ring) (fun s j k x => by simp only [Assoc.act]; ring)
      a.powers b.powers 1
  rw [h, foldr_powers]

theorem powerProduct_congr {g h : Symbol → Rat} {l : List (Symbol × Nat)}
    (hl : ∀ p ∈ l, g p.1 = h p.1) : powerProduct g l = powerProduct h l := by
  induction l with
  | nil => rfl
  | cons p l ih =>
    have hp := List.forall_mem_cons.mp hl
    rw [powerProduct_cons, powerProduct_cons, hp.1, ih hp.2]

@[simp] theorem value_one : one.value n v = 1 := by
  rw [value_eq, one, one_pow, mul_one]
  rfl

@[simp] theorem value_mul (a b : Monomial) : (a * b).value n v = a.value n v * b.value n v := by
  have hb : (a * b).base = a.base * b.base := rfl
  rw [value_eq, value_eq, value_eq, powerProduct_mul, hb, mul_pow]
  ring

@[simp] theorem value_ofSymbol (s : Symbol) (k : Nat) :
    (ofSymbol s k).value n v = s.value n v ^ k := by
  unfold ofSymbol
  split
  · next h => simp [value_eq, powerProduct, h]
  · simp [value_eq, powerProduct]

@[simp] theorem value_exponential (base : Rat) : (exponential base).value n v = base ^ n := by
  rw [value_eq, exponential]
  exact one_mul _

/-- Symbols without a value of their own do not count. -/
theorem powerProduct_getD {f : Symbol → Option Rat} {g : Symbol → Rat} (keep : Symbol → Bool)
    {l : List (Symbol × Nat)} (h : ∀ q ∈ l, f q.1 = if keep q.1 then some (g q.1) else none) :
    powerProduct (fun s => (f s).getD 1) l = powerProduct g (l.filter fun q => keep q.1) := by
  induction l with
  | nil => rfl
  | cons q l ih =>
    obtain ⟨hq, hl⟩ := List.forall_mem_cons.mp h
    rw [powerProduct_cons, ih hl, hq]
    by_cases hkeep : keep q.1 = true
    · rw [if_pos hkeep, List.filter_cons_of_pos (by simpa using hkeep), powerProduct_cons,
        Option.getD_some]
    · rw [if_neg hkeep, List.filter_cons_of_neg (by simpa using hkeep), Option.getD_none, one_pow,
        one_mul]

/-- A power splits off from the remaining factors. -/
theorem powerProduct_without (g : Symbol → Rat) (s : Symbol) {l : List (Symbol × Nat)}
    (hl : Assoc.Sorted Symbol.cmp l) :
    powerProduct g l = g s ^ (Assoc.find? s l).getD 0 * powerProduct g (l.filter (·.1 != s)) := by
  induction l with
  | nil => simp [powerProduct, Assoc.find?]
  | cons p l ih =>
    obtain ⟨t, k⟩ := p
    by_cases hs : t = s
    · subst hs
      have hne : ∀ q ∈ l, (q.1 != t) = true := by simpa using hl.ne_of_mem
      have hf : ((t, k) :: l).filter (·.1 != t) = l := by
        rw [List.filter_cons_of_neg (by simp), List.filter_eq_self.mpr hne]
      rw [hf, powerProduct_cons, Assoc.find?, if_pos rfl, Option.getD_some]
    · have hf : ((t, k) :: l).filter (·.1 != s) = (t, k) :: l.filter (·.1 != s) :=
        List.filter_cons_of_pos (by simpa using hs)
      rw [hf, powerProduct_cons, powerProduct_cons, ih (List.pairwise_cons.mp hl).2, Assoc.find?,
        if_neg hs]
      ring

theorem value_without {m : Monomial} (hm : m.Canonical) (s : Symbol) :
    m.value n v = s.value n v ^ m.powerOf s * (m.without s).value n v := by
  rw [value_eq, value_eq, powerProduct_without _ s hm.sorted, without, powerOf, mul_assoc]

theorem powerOf_eq_zero {m : Monomial} {s : Symbol} (h : m.mentions s = false) :
    m.powerOf s = 0 := by
  have hs : Assoc.find? s m.powers = none := by
    apply Assoc.find?_eq_none
    intro p hp hps
    exact absurd (List.any_eq_false.mp h p hp) (by simp [hps])
  rw [powerOf, hs, Option.getD_none]

theorem value_set_of_ne {s t : Symbol} (h : t ≠ s) (q : Rat) :
    t.value n (v.set s q) = t.value n v := by
  cases t <;> simp_all [Symbol.value, Valuation.set]

/-- Giving one symbol a new value changes the factor of its powers. -/
theorem value_set {m : Monomial} (hm : m.Canonical) {s : Symbol} (hs : s ≠ .counter) (q : Rat) :
    m.value n (v.set s q) = q ^ m.powerOf s * (m.without s).value n v := by
  have hself : s.value n (v.set s q) = q := by
    cases s <;> simp_all [Symbol.value, Valuation.set]
  have hrest : (m.without s).value n (v.set s q) = (m.without s).value n v := by
    rw [value_eq, value_eq]
    congr 1
    apply powerProduct_congr
    intro p hp
    exact value_set_of_ne n v (by simpa using (List.mem_filter.mp hp).2) q
  rw [value_without n _ hm s, hself, hrest]

/-- Without the counter and with the base one, a monomial has the same value in all iterations. -/
theorem value_still (m : Monomial) (k : Nat) :
    ((m.without .counter).withBase 1).value n v = ((m.without .counter).withBase 1).value k v := by
  have hp : powerProduct (Symbol.value n v) (m.without .counter).powers =
      powerProduct (Symbol.value k v) (m.without .counter).powers := by
    apply powerProduct_congr
    intro p hp
    have hs : p.1 ≠ .counter := by simpa using (List.mem_filter.mp hp).2
    cases h : p.1 <;> simp_all [Symbol.value]
  rw [value_eq, value_eq, withBase, hp, one_pow, one_pow]

/-- The counter and the exponential split off from the remaining factors. -/
theorem value_split {m : Monomial} (hm : m.Canonical) :
    m.value n v = (n : Rat) ^ m.counterDegree * m.base ^ n *
      ((m.without .counter).withBase 1).value n v := by
  rw [value_without n v hm .counter, value_eq, value_eq, withBase, one_pow, counterDegree]
  simp only [without, Symbol.value]
  ring

end Monomial

namespace Expr

@[simp] theorem value_zero : zero.value n v = 0 := rfl

@[simp] theorem value_term (m : Monomial) (c : Rat) :
    (term m c).value n v = c * m.value n v := lift_term _ m c

@[simp] theorem value_const (q : Rat) : (const q).value n v = q := by
  rw [const, value_term, Monomial.value_one, mul_one]

@[simp] theorem value_one : one.value n v = 1 := value_const n v 1

@[simp] theorem value_ofSymbol (s : Symbol) : (ofSymbol s).value n v = s.value n v := by
  rw [ofSymbol, value_term, Monomial.value_ofSymbol, pow_one, one_mul]

@[simp] theorem value_counter : counter.value n v = n := value_ofSymbol n v .counter

theorem value_exponential {base : Rat} (h : base ≠ 0) :
    (exponential base).value n v = base ^ n := by
  rw [exponential, if_neg h, value_term, Monomial.value_exponential, one_mul]

@[simp] theorem value_add (a b : Expr) : (a + b).value n v = a.value n v + b.value n v :=
  lift_add _ a b

@[simp] theorem value_neg (a : Expr) : (-a).value n v = -a.value n v := lift_neg _ a

@[simp] theorem value_sub (a b : Expr) : (a - b).value n v = a.value n v - b.value n v :=
  lift_sub _ a b

@[simp] theorem value_scale (a : Expr) (q : Rat) : (a.scale q).value n v = a.value n v * q :=
  lift_scale _ a q

@[simp] theorem value_mul (a b : Expr) : (a * b).value n v = a.value n v * b.value n v :=
  lift_mul_of_multiplicative (Monomial.value_mul n v) a b

@[simp] theorem value_pow (e : Expr) (k : Nat) : (e.pow k).value n v = e.value n v ^ k :=
  lift_pow_of_multiplicative (Monomial.value_mul n v) (Monomial.value_one n v) e k

theorem value_sum (es : List Expr) : (sum es).value n v = (es.map (value n v)).sum :=
  lift_sum _ es

theorem value_ofTerms (ts : List (Monomial × Rat)) :
    (ofTerms ts).value n v = (ts.map fun t => t.2 * t.1.value n v).sum :=
  lift_ofTerms _ ts

theorem value_eq_sum (e : Expr) :
    e.value n v = (e.terms.map fun t => t.2 * t.1.value n v).sum :=
  lift_eq_sum _ e

/-- The value at a fixed iteration is the same in all iterations. -/
theorem value_atIteration {e : Expr} (he : e.Canonical) (k : Nat) :
    (e.atIteration k).value n v = e.value k v := by
  rw [atIteration, value_ofTerms, value_eq_sum, List.map_map]
  refine congrArg List.sum (List.map_congr_left fun t ht => ?_)
  simp only [Function.comp_apply, termAtIteration, Number.pow_eq]
  rw [Monomial.value_split k v (he.monomials t ht), Monomial.value_still n v t.1 k]
  ring

theorem value_of_not_dependsOnCounter {e : Expr} (he : e.Canonical)
    (h : e.dependsOnCounter = false) (k : Nat) : e.value n v = e.value k v := by
  rw [value_eq_sum, value_eq_sum]
  refine congrArg List.sum (List.map_congr_left fun t ht => ?_)
  have ht' := List.any_eq_false.mp h t ht
  simp only [Monomial.isExponential, Bool.or_eq_true, bne_iff_ne, ne_eq, not_or, not_not] at ht'
  have hd : t.1.counterDegree = 0 := Monomial.powerOf_eq_zero (by simpa using ht'.2)
  have hm := he.monomials t ht
  rw [Monomial.value_split n v hm, Monomial.value_split k v hm, Monomial.value_still n v t.1 k, hd,
    ht'.1]
  simp

/-- Moving an expression along the iterations. -/
theorem value_shift {e : Expr} (he : e.Canonical) {k : Int} (hk : k.natAbs < 2 ^ 32) {m : Nat}
    (hm : (m : Int) = n + k) : (e.shift k).value n v = e.value m v := by
  unfold shift
  split
  · next h =>
    rcases Bool.or_eq_true _ _ |>.mp h with h0 | hstill
    · obtain rfl : m = n := by simp_all
      rfl
    · exact value_of_not_dependsOnCounter _ v he (by simpa using hstill) _
  · rw [value_sum, value_eq_sum, List.map_map]
    refine congrArg List.sum (List.map_congr_left fun t ht => ?_)
    have hmonomial := he.monomials t ht
    have hb := hmonomial.base_ne_zero
    have hn : (n : Rat) + (k : Rat) = m := by exact_mod_cast hm.symm
    have hpow : Number.powInt t.1.base k * t.1.base ^ n = t.1.base ^ m := by
      rw [Number.powInt_eq hk, ← zpow_natCast, ← zpow_natCast, ← zpow_add₀ hb, hm, add_comm]
    rw [Function.comp_apply, shiftTerm]
    simp only [value_mul, value_term, value_exponential _ _ hb, value_pow, value_add,
      value_counter, value_const, hn]
    rw [Monomial.value_split m v hmonomial, Monomial.value_still n v t.1 m, ← hpow]
    ring

end Expr

end ProbLoop
