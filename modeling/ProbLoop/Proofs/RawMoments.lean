import Mathlib.Algebra.Order.Field.Rat
import Mathlib.Tactic.FieldSimp
import Mathlib.Tactic.Positivity
import ProbLoop.Proofs.Eulerian
import ProbLoop.Proofs.Recurrence
import ProbLoop.Proofs.Source.Meaning

/-!
# Recurrences of raw moments

The moments of each distribution are determined by a recurrence: integration by parts for the
continuous ones, and for the number of trials up to the first success that it starts afresh after a
failure. The closed forms satisfy them, and none of them divides by zero.
-/

set_option autoImplicit false

namespace ProbLoop

namespace Number

open Finset

/-- The quotient of two rationals, if the second is not zero. -/
def quotient? (a b : Rat) : Option Rat :=
  if b = 0 then none else some (a / b)

theorem quotient?_eq {a b : Rat} (hb : b ≠ 0) : quotient? a b = some (a / b) :=
  if_neg hb

/-! ### Moments about a center -/

/-- The moments about zero from those about a center. -/
def aboutZero (center : Rat) (central : Nat → Rat) (k : Nat) : Rat :=
  ∑ j ∈ range (k + 1), (k.choose j : Rat) * center ^ (k - j) * central j

variable {center : Rat} {central : Nat → Rat}

/-- One factor of the power is split into the center and the deviation from it. -/
theorem aboutZero_succ (k : Nat) :
    aboutZero center central (k + 1) =
      center * aboutZero center central k + aboutZero center (fun j => central (j + 1)) k := by
  have hpascal : ∀ j ∈ range (k + 1), ((k + 1).choose (j + 1) : Rat) * center ^ (k + 1 - (j + 1)) *
      central (j + 1) = (k.choose j : Rat) * center ^ (k - j) * central (j + 1)
        + (k.choose (j + 1) : Rat) * center ^ (k - j) * central (j + 1) := fun j _ => by
    rw [Nat.choose_succ_succ, Nat.add_sub_add_right]
    push_cast
    ring
  have hcenter : center * aboutZero center central k =
      center ^ (k + 1) * central 0
        + ∑ j ∈ range (k + 1), (k.choose (j + 1) : Rat) * center ^ (k - j) * central (j + 1) := by
    rw [aboutZero, sum_range_succ', sum_range_succ, mul_add, mul_sum, Nat.choose_succ_self]
    have hpower : ∀ j ∈ range k, center *
        ((k.choose (j + 1) : Rat) * center ^ (k - (j + 1)) * central (j + 1)) =
          (k.choose (j + 1) : Rat) * center ^ (k - j) * central (j + 1) := fun j hj => by
      have hsplit : k - j = k - (j + 1) + 1 := by have := mem_range.mp hj; omega
      rw [hsplit]
      ring
    rw [sum_congr rfl hpower, Nat.choose_zero_right]
    simp
    ring
  rw [hcenter, aboutZero, sum_range_succ', sum_congr rfl hpascal, sum_add_distrib, aboutZero]
  simp
  ring

theorem absorb (k j : Nat) :
    ((k : Rat) + 1) * k.choose j = (k + 1).choose (j + 1) * (j + 1) := by
  exact_mod_cast Nat.add_one_mul_choose_eq k j

/-- The recurrence of a normal distribution. -/
theorem aboutZero_of_normal {variance : Rat} (hone : central 1 = 0)
    (h : ∀ j, central (j + 2) = variance * (j + 1) * central j) (k : Nat) :
    aboutZero center central (k + 2) =
      center * aboutZero center central (k + 1)
        + (k + 1) * variance * aboutZero center central k := by
  have hterm : ∀ j ∈ range (k + 1), ((k + 1).choose (j + 1) : Rat) * center ^ (k + 1 - (j + 1)) *
      central (j + 2) = (k + 1) * variance * ((k.choose j : Rat) * center ^ (k - j) * central j) :=
    fun j _ => by
      rw [h, Nat.add_sub_add_right]
      linear_combination -(center ^ (k - j) * variance * central j) * absorb k j
  have hshift : aboutZero center (fun j => central (j + 1)) (k + 1) =
      (k + 1) * variance * aboutZero center central k := by
    rw [aboutZero, sum_range_succ', sum_congr rfl hterm, ← mul_sum, aboutZero, hone]
    ring
  rw [aboutZero_succ, hshift]

/-- The recurrence of a Laplace distribution. -/
theorem aboutZero_of_laplace {scale : Rat} (hzero : central 0 = 1) (hone : central 1 = 0)
    (h : ∀ j, central (j + 2) = scale ^ 2 * (j + 2) * (j + 1) * central j) (k : Nat) :
    aboutZero center central (k + 2) =
      center ^ (k + 2) + scale ^ 2 * (k + 2) * (k + 1) * aboutZero center central k := by
  have hterm : ∀ j ∈ range (k + 1), ((k + 2).choose (j + 2) : Rat) * center ^ (k + 2 - (j + 2)) *
      central (j + 2) =
        scale ^ 2 * (k + 2) * (k + 1) * ((k.choose j : Rat) * center ^ (k - j) * central j) :=
    fun j _ => by
      have houter := absorb (k + 1) (j + 1)
      push_cast at houter
      rw [h, Nat.add_sub_add_right]
      linear_combination -(center ^ (k - j) * scale ^ 2 * central j) *
        ((j + 1) * houter + (k + 2) * absorb k j)
  rw [aboutZero, sum_range_succ', sum_range_succ', sum_congr rfl hterm, ← mul_sum, aboutZero, hone,
    hzero]
  simp
  ring

end Number

namespace Distribution

/-- A sum over the even numbers, with zeros in the place of the odd ones. -/
theorem sum_evensUpTo (f : Nat → Rat) (k : Nat) :
    Number.sum ((evensUpTo k).map f) =
      ∑ j ∈ Finset.range (k + 1), if Even j then f j else 0 := by
  rw [Number.sum_eq, evensUpTo, List.map_map]
  induction k with
  | zero => simp
  | succ k ih =>
    rw [Finset.sum_range_succ, ← ih]
    split
    · next heven =>
      have hhalf : (k + 1) / 2 = k / 2 + 1 := by grind
      have hlast : 2 * (k / 2 + 1) = k + 1 := by grind
      rw [hhalf, List.range_succ, List.map_append, List.sum_append, List.map_singleton,
        List.sum_singleton, Function.comp, hlast]
    · next hodd =>
      have hhalf : (k + 1) / 2 = k / 2 := by grind
      rw [hhalf, add_zero]

/-! ### The closed forms -/

/-- The number that the `k`-th moment is. The moments of an unknown value are no numbers. -/
def momentValue (d : Distribution) (k : Nat) : Rat :=
  if k = 0 then 1
  else
    match d with
    | uniform low high => uniformMoment low high k
    | bernoulli p => p
    | gauss mean variance => gaussMoment mean variance k
    | laplace location scale => laplaceMoment location scale k
    | exponential rate => (Number.factorial k : Rat) / Number.pow rate k
    | beta a b => betaMoment a b k
    | geometric p => geometricMoment p k
    | unknown _ => 0

/-- The product for a beta distribution, if none of its divisors is zero. -/
def betaMoment? (a b : Rat) : Nat → Option Rat
  | 0 => some 1
  | k + 1 => do
    let moment ← betaMoment? a b k
    let factor ← Number.quotient? (a + (k : Rat)) (a + b + (k : Rat))
    return moment * factor

/-- The mean of the `k`-th power of a draw, if computing it does not divide by zero. -/
def moment? (d : Distribution) (k : Nat) : Option Expr :=
  if k = 0 then some Expr.one
  else
    match d with
    | uniform low high =>
      if low = high then some (.const (Number.pow low k))
      else
        (Number.quotient? (Number.pow high (nextExponent k) - Number.pow low (nextExponent k))
          (((k + 1 : Nat) : Rat) * (high - low))).map .const
    | exponential rate =>
      (Number.quotient? (Number.factorial k : Rat) (Number.pow rate k)).map .const
    | beta a b => (betaMoment? a b k).map .const
    | geometric p =>
      (Number.quotient?
        (Number.sum ((Number.eulerianRow k).zipIdx.map fun a => (a.1 : Rat) * Number.pow (1 - p) a.2))
        (Number.pow p k)).map .const
    | _ => some (d.moment k)

/-- The relation that gives the `k`-th moment, or the one after it, from those before it. -/
def Recurs (M : Nat → Rat) (k : Nat) : Distribution → Prop
  | uniform low high => (k + 1) * M k = high ^ k + low * k * M (k - 1)
  | bernoulli p => M k = p
  | gauss mean variance => M 1 = mean ∧ M (k + 1) = mean * M k + k * variance * M (k - 1)
  | laplace location scale =>
    M 1 = location ∧ M (k + 1) = location ^ (k + 1) + scale ^ 2 * (k + 1) * k * M (k - 1)
  | exponential rate => rate * M k = k * M (k - 1)
  | beta a b => (a + b + k - 1) * M k = (a + k - 1) * M (k - 1)
  | geometric p => M k = p + (1 - p) * ∑ j ∈ Finset.range (k + 1), (k.choose j : Rat) * M j
  | unknown _ => True

theorem momentValue_of_zero (d : Distribution) : d.momentValue 0 = 1 :=
  if_pos rfl

theorem nextExponent_eq {k : Nat} (hk : k + 1 < 2 ^ 32) : nextExponent k = k + 1 :=
  Nat.mod_eq_of_lt hk

/-- The exponent after the largest one is lost. -/
theorem nextExponent_largest {k : Nat} (hk : k + 1 = 2 ^ 32) : nextExponent k = 0 := by
  rw [nextExponent, hk]
  decide

theorem uniformMoment_eq {low high : Rat} {k : Nat} (hk : k + 1 < 2 ^ 32) (hne : low ≠ high) :
    uniformMoment low high k = (high ^ (k + 1) - low ^ (k + 1)) / ((k + 1) * (high - low)) := by
  rw [uniformMoment, if_neg hne, nextExponent_eq hk, Number.pow_eq, Number.pow_eq, Nat.cast_succ]

theorem uniformMoment_largest {low high : Rat} {k : Nat} (hk : k + 1 = 2 ^ 32) (hne : low ≠ high) :
    uniformMoment low high k = 0 := by
  rw [uniformMoment, if_neg hne, nextExponent_largest hk, Number.pow_eq, Number.pow_eq, pow_zero,
    pow_zero, sub_self, zero_div]

theorem gaussMoment_eq (mean variance : Rat) (k : Nat) :
    gaussMoment mean variance k = Number.aboutZero mean
      (fun j => if Even j then variance ^ (j / 2) * oddFactorial (j / 2) else 0) k := by
  rw [gaussMoment, sum_evensUpTo, Number.aboutZero]
  refine Finset.sum_congr rfl fun j _ => ?_
  rw [Number.binomial_eq, Number.pow_eq, Number.pow_eq, mul_ite, mul_zero, mul_assoc]

theorem laplaceMoment_eq (location scale : Rat) (k : Nat) :
    laplaceMoment location scale k = Number.aboutZero location
      (fun j => if Even j then Number.factorial j * scale ^ j else 0) k := by
  rw [laplaceMoment, sum_evensUpTo, Number.aboutZero]
  refine Finset.sum_congr rfl fun j _ => ?_
  rw [Number.binomial_eq, Number.pow_eq, Number.pow_eq, mul_ite, mul_zero, mul_assoc]

theorem betaMoment_succ (a b : Rat) (k : Nat) :
    betaMoment a b (k + 1) = betaMoment a b k * ((a + k) / (a + b + k)) := by
  rw [betaMoment, List.range_succ, List.foldl_append]
  rfl

theorem geometricMoment_eq (p : Rat) (k : Nat) :
    geometricMoment p k = (Number.eulerianPolynomial k).eval (1 - p) / p ^ k := by
  rw [geometricMoment, Number.sum_eulerianRow, Number.pow_eq]

/-! ### The recurrences -/

variable {k : Nat}

theorem momentValue_uniform {low high : Rat} (hk : k + 1 < 2 ^ 32) (hne : low ≠ high) :
    (uniform low high).momentValue k =
      (high ^ (k + 1) - low ^ (k + 1)) / ((k + 1) * (high - low)) := by
  cases k with
  | zero => 
    have hwidth : high - low ≠ 0 := sub_ne_zero.mpr hne.symm
    simp [momentValue, hwidth]
  | succ k => exact uniformMoment_eq hk hne

theorem recurs_uniform_iff {low high : Rat} (hk : k + 1 < 2 ^ 32) :
    Recurs (uniform low high).momentValue (k + 1) (uniform low high) ↔
      k + 2 < 2 ^ 32 ∨ low = high ∨ low = -high := by
  by_cases heq : low = high
  · have hvalue : ∀ j, (uniform low high).momentValue j = low ^ j := by
      intro j
      cases j with
      | zero => simp [momentValue]
      | succ j => simp [momentValue, uniformMoment, heq, Number.pow_eq]
    refine iff_of_true ?_ (.inr (.inl heq))
    rw [Recurs, hvalue, hvalue, ← heq]
    push_cast
    ring
  have hwidth : high - low ≠ 0 := sub_ne_zero.mpr (Ne.symm heq)
  have hsucc : (k : Rat) + 1 ≠ 0 := by positivity
  rw [Recurs, Nat.add_sub_cancel, momentValue_uniform hk heq, Nat.cast_succ]
  rcases Nat.lt_or_ge (k + 2) (2 ^ 32) with hnext | hlast
  · refine iff_of_true ?_ (.inl hnext)
    have hsecond : (k : Rat) + 1 + 1 ≠ 0 := by positivity
    rw [momentValue_uniform hnext heq, Nat.cast_succ]
    field_simp
    ring
  · have hlargest : k + 1 + 1 = 2 ^ 32 := by omega
    have heven : Even (k + 2) := by rw [hlargest]; decide
    have hzero : (uniform low high).momentValue (k + 1) = 0 := uniformMoment_largest hlargest heq
    have hnext : high ^ (k + 1) + low * ((k : Rat) + 1) *
        ((high ^ (k + 1) - low ^ (k + 1)) / ((k + 1) * (high - low))) =
          (high ^ (k + 2) - low ^ (k + 2)) / (high - low) := by
      field_simp
      ring
    rw [hzero, mul_zero, hnext, eq_comm, div_eq_zero_iff, or_iff_left hwidth, sub_eq_zero, eq_comm,
      pow_eq_pow_iff_cases]
    exact ⟨fun h => .inr (.inr ((h.resolve_left (Nat.succ_ne_zero _)).resolve_left heq).1),
      fun h => .inr (.inr ⟨(h.resolve_left hlast.not_gt).resolve_left heq, heven⟩)⟩

theorem recurs_gauss (mean variance : Rat) :
    Recurs (gauss mean variance).momentValue (k + 1) (gauss mean variance) := by
  have hvalue : ∀ j, (gauss mean variance).momentValue j = gaussMoment mean variance j := by
    intro j
    cases j with
    | zero => simp [momentValue, gaussMoment_eq, Number.aboutZero, oddFactorial]
    | succ j => rfl
  have hcentral : ∀ j : Nat, (if Even (j + 2) then
      variance ^ ((j + 2) / 2) * (oddFactorial ((j + 2) / 2) : Rat) else 0) =
        variance * (j + 1) *
          if Even j then variance ^ (j / 2) * (oddFactorial (j / 2) : Rat) else 0 := by
    intro j
    by_cases heven : Even j
    · have hhalf : ((2 * (j / 2) : Nat) : Rat) = j := by rw [Nat.two_mul_div_two_of_even heven]
      rw [if_pos heven, if_pos (heven.add even_two), Nat.add_div_right _ two_pos, oddFactorial]
      push_cast at hhalf ⊢
      rw [hhalf]
      ring
    · rw [if_neg heven, if_neg fun h => heven ((Nat.even_add.mp h).mpr even_two), mul_zero]
  constructor
  · rw [hvalue, gaussMoment_eq]
    simp [Number.aboutZero, Finset.sum_range_succ, oddFactorial]
  · rw [Nat.add_sub_cancel, hvalue, hvalue, hvalue, gaussMoment_eq, gaussMoment_eq, gaussMoment_eq,
      Number.aboutZero_of_normal (if_neg (by decide)) hcentral, Nat.cast_succ]

theorem recurs_laplace (location scale : Rat) :
    Recurs (laplace location scale).momentValue (k + 1) (laplace location scale) := by
  have hvalue : ∀ j, (laplace location scale).momentValue j = laplaceMoment location scale j := by
    intro j
    cases j with
    | zero => simp [momentValue, laplaceMoment_eq, Number.aboutZero, Number.factorial]
    | succ j => rfl
  have hcentral : ∀ j : Nat, (if Even (j + 2) then
      (Number.factorial (j + 2) : Rat) * scale ^ (j + 2) else 0) =
        scale ^ 2 * (j + 2) * (j + 1) *
          if Even j then (Number.factorial j : Rat) * scale ^ j else 0 := by
    intro j
    by_cases heven : Even j
    · rw [if_pos heven, if_pos (heven.add even_two), Number.factorial, Number.factorial]
      push_cast
      ring
    · rw [if_neg heven, if_neg fun h => heven ((Nat.even_add.mp h).mpr even_two), mul_zero]
  constructor
  · rw [hvalue, laplaceMoment_eq]
    simp [Number.aboutZero, Finset.sum_range_succ, Number.factorial]
  · rw [Nat.add_sub_cancel, hvalue, hvalue, laplaceMoment_eq, laplaceMoment_eq,
      Number.aboutZero_of_laplace (by simp [Number.factorial]) (if_neg (by decide)) hcentral]
    push_cast
    ring

theorem recurs_exponential {rate : Rat} (hrate : rate ≠ 0) :
    Recurs (exponential rate).momentValue (k + 1) (exponential rate) := by
  have hvalue : ∀ j, (exponential rate).momentValue j = Number.factorial j / rate ^ j := by
    intro j
    cases j with
    | zero => simp [momentValue, Number.factorial]
    | succ j => simp [momentValue, Number.pow_eq]
  rw [Recurs, hvalue, hvalue, Nat.add_sub_cancel, Number.factorial]
  push_cast
  field_simp
  ring

theorem recurs_beta {a b : Rat} (ha : 0 < a) (hb : 0 < b) :
    Recurs (beta a b).momentValue (k + 1) (beta a b) := by
  have hvalue : ∀ j, (beta a b).momentValue j = betaMoment a b j := by
    intro j
    cases j <;> rfl
  have hdivisor : a + b + k ≠ 0 := by positivity
  rw [Recurs, hvalue, hvalue, Nat.add_sub_cancel, betaMoment_succ]
  push_cast
  field_simp
  ring

theorem recurs_geometric {p : Rat} (hp : p ≠ 0) :
    Recurs (geometric p).momentValue k (geometric p) := by
  have hvalue : ∀ j, (geometric p).momentValue j =
      (Number.eulerianPolynomial j).eval (1 - p) / p ^ j := by
    intro j
    cases j with
    | zero => simp [momentValue, Number.eulerianPolynomial_zero]
    | succ j => exact geometricMoment_eq p (j + 1)
  have hterm : ∀ j ∈ Finset.range (k + 1), (k.choose j : Rat) *
      (p ^ (k - j) * (Number.eulerianPolynomial j).eval (1 - p)) =
        p ^ k * ((k.choose j : Rat) * (geometric p).momentValue j) := fun j hj => by
    have hsplit : p ^ k = p ^ (k - j) * p ^ j := by
      rw [← pow_add, Nat.sub_add_cancel (Nat.lt_succ_iff.mp (Finset.mem_range.mp hj))]
    rw [hvalue, hsplit]
    field_simp
  rw [Recurs, hvalue, Number.eval_eulerianPolynomial, Finset.sum_congr rfl hterm, ← Finset.mul_sum]
  field_simp
  ring

/-! ### Accepted parameters -/

theorem betaMoment?_eq {a b : Rat} (ha : 0 < a) (hb : 0 < b) (k : Nat) :
    betaMoment? a b k = some (betaMoment a b k) := by
  induction k with
  | zero => rfl
  | succ k ih =>
    have hdivisor : a + b + k ≠ 0 := by positivity
    rw [betaMoment?, ih, Number.quotient?_eq hdivisor, betaMoment_succ]
    rfl

/-- No moment of a distribution with accepted parameters is a quotient by zero. -/
theorem moment?_eq {d : Distribution} (hd : d.Accepted) (k : Nat) :
    d.moment? k = some (.const (d.momentValue k)) := by
  unfold moment? momentValue
  split
  · rfl
  cases d with
  | uniform low high =>
    simp only [uniformMoment]
    split
    · rfl
    · next hne =>
      have hwidth : ((k + 1 : Nat) : Rat) * (high - low) ≠ 0 :=
        mul_ne_zero (Nat.cast_ne_zero.mpr (Nat.succ_ne_zero k)) (sub_ne_zero.mpr (Ne.symm hne))
      simp only [Number.quotient?_eq hwidth, Option.map_some]
  | exponential rate =>
    have hpower : Number.pow rate k ≠ 0 := by rw [Number.pow_eq]; exact pow_ne_zero k hd.ne'
    simp only [Number.quotient?_eq hpower, Option.map_some]
  | beta a b => simp only [betaMoment?_eq hd.1 hd.2, Option.map_some]
  | geometric p =>
    have hpower : Number.pow p k ≠ 0 := by rw [Number.pow_eq]; exact pow_ne_zero k hd.1.ne'
    simp only [Number.quotient?_eq hpower, Option.map_some, geometricMoment]
  | unknown s => exact hd.elim
  | _ => simp only [moment, if_neg ‹¬k = 0›]

theorem moment_eq {d : Distribution} (hd : d.Accepted) (k : Nat) :
    d.moment k = .const (d.momentValue k) := by
  unfold moment momentValue
  split
  · rfl
  · cases d with
    | unknown s => exact hd.elim
    | _ => rfl

theorem recurs_of_accepted {d : Distribution} (hd : d.Accepted) (huniform : ∀ low high, d ≠ uniform low high)
    (k : Nat) : Recurs d.momentValue (k + 1) d := by
  cases d with
  | uniform low high => exact absurd rfl (huniform low high)
  | bernoulli p => rfl
  | gauss mean variance => exact recurs_gauss mean variance
  | laplace location scale => exact recurs_laplace location scale
  | exponential rate => exact recurs_exponential hd.ne'
  | beta a b => exact recurs_beta hd.1 hd.2
  | geometric p => exact recurs_geometric hd.1.ne'
  | unknown s => exact hd.elim

/-- The moments of every distribution that can be named are numbers, no division by zero being met.
They satisfy the recurrence of the distribution as long as the exponents fit into 32 bits. At the
largest exponent, the closed form of a uniform distribution breaks the recurrence unless its interval is
a point or has its center at zero. -/
theorem recurs_iff {name : String} {parameters : List Rat} {d : Distribution}
    (h : ofName name parameters = .ok d) :
    (∀ k, d.moment? k = some (.const (d.momentValue k)) ∧
      d.moment k = .const (d.momentValue k)) ∧ d.momentValue 0 = 1 ∧
      ∀ k, 1 ≤ k → k < 2 ^ 32 → (Recurs d.momentValue k d ↔
        ∀ low high, d = uniform low high → k + 1 < 2 ^ 32 ∨ low = high ∨ low = -high) := by
  have hd := Source.accepted_of_ofName h
  refine ⟨fun k => ⟨moment?_eq hd k, moment_eq hd k⟩, momentValue_of_zero d, fun k hpos hk => ?_⟩
  obtain ⟨j, rfl⟩ := Nat.exists_eq_add_of_le' hpos
  by_cases huniform : ∃ low high, d = uniform low high
  · obtain ⟨low, high, rfl⟩ := huniform
    rw [recurs_uniform_iff hk]
    exact ⟨fun hcase l r heq => by cases heq; exact hcase, fun hall => hall low high rfl⟩
  · push Not at huniform
    exact iff_of_true (recurs_of_accepted hd huniform j) fun low high heq =>
      absurd heq (huniform low high)

/-- The moments of the number of trials of a fair coin up to its first head. -/
theorem recurs_fair_coin :
    ofName "geometric" [1 / 2] = .ok (geometric (1 / 2)) ∧
      (geometric (1 / 2)).moment 3 = .const 26 ∧
      Recurs (geometric (1 / 2)).momentValue 3 (geometric (1 / 2)) := by
  have hname : ofName "geometric" [1 / 2] = .ok (geometric (1 / 2)) := by decide +kernel
  obtain ⟨-, -, hrecurs⟩ := recurs_iff hname
  have hthird := (hrecurs 3 (by decide) (by decide)).mpr fun low high h => by cases h
  exact ⟨hname, by decide +kernel, hthird⟩

/-- The exponent after the largest one is lost, and with it that moment of the unit interval. -/
theorem moment_uniform_largest :
    ofName "uniform" [0, 1] = .ok (uniform 0 1) ∧
      (uniform 0 1).moment 4294967295 = .const 0 ∧
      ¬Recurs (uniform 0 1).momentValue 4294967295 (uniform 0 1) := by
  have hlargest : 4294967295 + 1 = 2 ^ 32 := by norm_num
  have hvalue : (uniform 0 1).momentValue 4294967295 = 0 :=
    (if_neg (by decide)).trans (uniformMoment_largest hlargest (by decide))
  refine ⟨by decide +kernel, congrArg Expr.const hvalue, fun h => ?_⟩
  rw [Recurs, hvalue, one_pow] at h
  simp at h

end Distribution

end ProbLoop
