import Mathlib
import ProbLoop.Proofs.Asymptotics.EventualSign
import ProbLoop.Proofs.Envelope.Counter
import ProbLoop.Proofs.Expr.Built
import ProbLoop.Proofs.Expr.Polarity

/-!
# Expressions in the counter that are at most zero

Whether an expression in the counter is at most zero in the long run is read off the sign of a polynomial
behind its roots, or off the dominant part if there is an exponential. The number behind the roots is kept
in 64 bits. So the answer is right for all expressions but the polynomials with a root that is too large
for that and with another sign at zero than in the long run.
-/

set_option autoImplicit false

namespace ProbLoop

open Filter

namespace Expr

variable {e : Expr} {p : Polynomial} {v : Valuation}

/-- What an answer says: that the values are at most zero from some counter on, that they are positive from
some counter on, or nothing. -/
def Supports (e : Expr) (v : Valuation) : Answer → Prop
  | .yes => ∃ N : Nat, ∀ n, N ≤ n → e.value n v ≤ 0
  | .no => ∃ N : Nat, ∀ n, N ≤ n → 0 < e.value n v
  | .unknown => True

/-! ### Polynomials -/

theorem isCounterPower_of_counting {m : Monomial} (hm : m.Counting) (h : m.isExponential = false) :
    Polynomial.isCounterPower m = true := by
  rw [Polynomial.isCounterPower, h, Bool.not_false, Bool.true_and, List.all_eq_true]
  intro s hs
  obtain ⟨q, hq, rfl⟩ := List.mem_map.mp hs
  exact hm q hq

/-- Without exponentials an expression in the counter is a polynomial. -/
theorem exists_ofExpr? (hcounting : e.All Monomial.Counting)
    (h : ∀ t ∈ e.terms, t.1.isExponential = false) : ∃ p, Polynomial.ofExpr? e = some p := by
  have hall : e.terms.all (fun t => Polynomial.isCounterPower t.1) = true :=
    List.all_eq_true.mpr fun t ht => isCounterPower_of_counting (hcounting t ht) (h t ht)
  rw [Polynomial.ofExpr?, if_pos hall]
  exact ⟨_, rfl⟩

theorem isEventuallyNonpositive_of_ofExpr? (h : Polynomial.ofExpr? e = some p) :
    e.isEventuallyNonpositive = if p.eventualSign.2 = .positive then .no else .yes := by
  rw [isEventuallyNonpositive, h]

/-- In the long run a polynomial is positive exactly if its leading coefficient is, and at most zero
otherwise. -/
theorem supports_of_ofExpr? (he : e.Canonical) (h : Polynomial.ofExpr? e = some p) (v : Valuation) :
    (e.Supports v .no ↔ 0 < p.leading) ∧ (e.Supports v .yes ↔ ¬0 < p.leading) := by
  obtain ⟨N, hN⟩ := (value_of_ofExpr? 0 v he h).1.eventually_sign_eval
  have hsign : ∀ n : Nat, N ≤ n → (0 < e.value n v ↔ 0 < p.leading) := by
    intro n hn
    rw [(value_of_ofExpr? n v he h).2, ← Sign.of_eq_positive, ← Sign.of_eq_positive, hN n hn]
  constructor
  · constructor
    · rintro ⟨M, hM⟩
      exact (hsign (max M N) (le_max_right M N)).mp (hM _ (le_max_left M N))
    · intro hpos
      exact ⟨N, fun n hn => (hsign n hn).mpr hpos⟩
  · constructor
    · rintro ⟨M, hM⟩ hpos
      exact absurd ((hsign (max M N) (le_max_right M N)).mpr hpos)
        (not_lt.mpr (hM _ (le_max_left M N)))
    · intro hpos
      exact ⟨N, fun n hn => not_lt.mp fun hlt => hpos ((hsign n hn).mp hlt)⟩

/-- An answer that is read off the sign of a number is right exactly if that number is positive where the
polynomial is so in the long run. -/
theorem supports_ite_iff (he : e.Canonical) (h : Polynomial.ofExpr? e = some p) (v : Valuation) (q : Rat) :
    e.Supports v (if Sign.of q = .positive then .no else .yes) ↔ (0 < q ↔ 0 < p.leading) := by
  obtain ⟨hno, hyes⟩ := supports_of_ofExpr? he h v
  by_cases hq : 0 < q
  · rw [if_pos (Sign.of_eq_positive.mpr hq), hno, iff_true_left hq]
  · rw [if_neg fun hs => hq (Sign.of_eq_positive.mp hs), hyes, iff_false_left hq]

/-- The answer for a polynomial is right, if the number behind its roots fits in 64 bits, and otherwise
exactly if it has the same sign at zero and in the long run. -/
theorem supports_polynomial_iff (he : e.Canonical) (h : Polynomial.ofExpr? e = some p) (v : Valuation) :
    e.Supports v e.isEventuallyNonpositive ↔
      p.rootCeiling + 1 < 2 ^ 64 ∨ (0 < e.value 0 v ↔ e.Supports v .no) := by
  have hvalue := (value_of_ofExpr? 0 v he h).2
  rw [Nat.cast_zero] at hvalue
  rw [isEventuallyNonpositive_of_ofExpr? h, (value_of_ofExpr? 0 v he h).1.eventualSign_eq,
    (supports_of_ofExpr? he h v).1, hvalue]
  by_cases hfits : p.rootCeiling + 1 < 2 ^ 64
  · rw [if_pos hfits, supports_ite_iff he h]
    exact ⟨fun _ => Or.inl hfits, fun _ => Iff.rfl⟩
  · rw [if_neg hfits, supports_ite_iff he h, or_iff_right hfits]

/-! ### Exponentials -/

/-- The values of an expression in the counter depend on nothing else. -/
theorem value_of_counting (hcounting : e.All Monomial.Counting) (n : Nat) (u v : Valuation) :
    e.value n u = e.value n v := by
  rw [value_eq_sum, value_eq_sum]
  refine congrArg List.sum (List.map_congr_left fun t ht => ?_)
  have hproduct : Monomial.powerProduct (Symbol.value n u) t.1.powers =
      Monomial.powerProduct (Symbol.value n v) t.1.powers := by
    apply Monomial.powerProduct_congr
    intro q hq
    have hcounter := hcounting t ht q hq
    cases hs : q.1 with
    | counter => rfl
    | _ => simp [hs, Symbol.isCounter] at hcounter
  rw [Monomial.value_eq, Monomial.value_eq, hproduct]

/-- The answer that is read off the dominant part is right. -/
theorem supports_dominant (he : e.Canonical) (hcounting : e.All Monomial.Counting)
    (h : Polynomial.ofExpr? e = none) (v : Valuation) : e.Supports v e.isEventuallyNonpositive := by
  rw [isEventuallyNonpositive, h]
  cases hs : e.eventualSign? with
  | none => trivial
  | some s =>
    obtain ⟨N, hN⟩ := eventually_atTop.mp
      (eventually_of_eventualSign? he (v := fun _ => 1) (fun _ => one_pos) hs)
    have hsign : ∀ n : Nat, N ≤ n → Sign.of (e.value n v) = s := by
      intro n hn
      rw [value_of_counting hcounting n v fun _ => 1]
      exact hN n hn
    cases s with
    | positive => exact ⟨N, fun n hn => Sign.of_eq_positive.mp (hsign n hn)⟩
    | negative => exact ⟨N, fun n hn => (Sign.of_eq_negative.mp (hsign n hn)).le⟩
    | zero => exact ⟨N, fun n hn => (Sign.of_eq_zero.mp (hsign n hn)).le⟩

/-! ### All expressions in the counter -/

/-- The answer for an expression in the counter is right, unless it is a polynomial with a root above the
second largest number of 64 bits and has another sign at zero than in the long run. The number behind the
roots of a polynomial fits in 64 bits exactly if there is no such root, and for expressions without an
exponential there is always an answer. -/
theorem Built.isEventuallyNonpositive_right_iff (he : e.Built) (hcounting : e.All Monomial.Counting)
    (v : Valuation) :
    (e.Supports v e.isEventuallyNonpositive ↔
        ∀ p, Polynomial.ofExpr? e = some p → (∀ z ∈ p.toReal.roots, z ≤ 2 ^ 64 - 2) ∨
          (0 < e.value 0 v ↔ ∃ N : Nat, ∀ n, N ≤ n → 0 < e.value n v)) ∧
      (∀ p, Polynomial.ofExpr? e = some p → (∀ n : Nat, e.value n v = p.eval n) ∧
        (p.rootCeiling + 1 < 2 ^ 64 ↔ ∀ z ∈ p.toReal.roots, z ≤ 2 ^ 64 - 2)) ∧
      ((∀ t ∈ e.terms, t.1.isExponential = false) →
        (Polynomial.ofExpr? e).isSome ∧ e.isEventuallyNonpositive ≠ .unknown) := by
  refine ⟨?_, fun p hp => ?_, fun hplain => ?_⟩
  · cases hp : Polynomial.ofExpr? e with
    | none => simp [supports_dominant he.canonical hcounting hp v]
    | some p =>
      rw [supports_polynomial_iff he.canonical hp,
        (value_of_ofExpr? 0 v he.canonical hp).1.rootCeiling_fits_iff]
      simp [Supports]
  · exact ⟨fun n => (value_of_ofExpr? n v he.canonical hp).2,
      (value_of_ofExpr? 0 v he.canonical hp).1.rootCeiling_fits_iff⟩
  · obtain ⟨p, hp⟩ := exists_ofExpr? hcounting hplain
    rw [isEventuallyNonpositive_of_ofExpr? hp, hp]
    refine ⟨rfl, ?_⟩
    split <;> simp

/-- With the second largest number of 64 bits as its root, the difference is found to be positive. -/
theorem isEventuallyNonpositive_largest_root :
    (counter - const (2 ^ 64 - 2)).isEventuallyNonpositive = .no ∧
      ∃ N : Nat, ∀ n, N ≤ n → 0 < (counter - const (2 ^ 64 - 2)).value n fun _ => 0 := by
  have hbuilt : (counter - const (2 ^ 64 - 2)).Built := .sub (.ofSymbol _) (.const _)
  have hcounting : (counter - const (2 ^ 64 - 2)).All Monomial.Counting := by
    unfold All Monomial.Counting
    decide +kernel
  have hpolynomial : Polynomial.ofExpr? (counter - const (2 ^ 64 - 2)) =
      some ⟨[-(2 ^ 64 - 2), 1]⟩ := by decide +kernel
  have hno : (counter - const (2 ^ 64 - 2)).isEventuallyNonpositive = .no := by decide +kernel
  have hright := (Built.isEventuallyNonpositive_right_iff hbuilt hcounting fun _ => 0).1.mpr
  rw [hno] at hright
  refine ⟨hno, hright fun p hp => Or.inl ?_⟩
  obtain rfl := Option.some.inj (hpolynomial.symm.trans hp)
  intro z hz
  have hroot : -(2 ^ 64 - 2) + z = 0 := by
    simpa [Polynomial.toReal, ofCoefficients] using (Polynomial.mem_roots'.mp hz).2
  linarith

/-- With the largest number of 64 bits as its root, the difference is found to be at most zero in the long
run, although it is positive behind the root. -/
theorem isEventuallyNonpositive_overflow :
    (counter - const (2 ^ 64 - 1)).isEventuallyNonpositive = .yes ∧
      ∀ n : Nat, 2 ^ 64 ≤ n → 0 < (counter - const (2 ^ 64 - 1)).value n fun _ => 0 := by
  have hyes : (counter - const (2 ^ 64 - 1)).isEventuallyNonpositive = .yes := by decide +kernel
  refine ⟨hyes, fun n hn => ?_⟩
  have hn' : ((2 ^ 64 : Nat) : Rat) ≤ n := by exact_mod_cast hn
  rw [value_sub, value_counter, value_const]
  norm_num at hn' ⊢
  linarith

end Expr

end ProbLoop
