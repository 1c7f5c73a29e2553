import Mathlib.Algebra.Order.BigOperators.Group.List
import ProbLoop.Proofs.Expr.Over
import ProbLoop.Proofs.Expr.Value

/-!
# Signs of expressions

A sign that is found for an expression is the one that it has for all values of its constants.
-/

set_option autoImplicit false

namespace ProbLoop

namespace Sign

variable {q r : Rat}

theorem of_eq_positive : Sign.of q = .positive ↔ 0 < q := by
  unfold Sign.of
  by_cases hp : 0 < q
  · simp [hp]
  · by_cases hn : q < 0 <;> simp [hp, hn]

theorem of_eq_negative : Sign.of q = .negative ↔ q < 0 := by
  unfold Sign.of
  by_cases hp : 0 < q
  · simp [hp, hp.le]
  · by_cases hn : q < 0 <;> simp [hp, hn]

theorem of_eq_zero : Sign.of q = .zero ↔ q = 0 := by
  unfold Sign.of
  by_cases hp : 0 < q
  · simp [hp, hp.ne']
  · by_cases hn : q < 0
    · simp [hp, hn, hn.ne]
    · have hq : q = 0 := le_antisymm (not_lt.mp hp) (not_lt.mp hn)
      simp [hq]

theorem of_add {s : Sign} (hq : Sign.of q = s) (hr : Sign.of r = s) : Sign.of (q + r) = s := by
  cases s with
  | negative => exact of_eq_negative.mpr (add_neg (of_eq_negative.mp hq) (of_eq_negative.mp hr))
  | zero => rw [of_eq_zero.mp hq, zero_add]; exact hr
  | positive => exact of_eq_positive.mpr (add_pos (of_eq_positive.mp hq) (of_eq_positive.mp hr))

theorem of_mul_pos (h : 0 < r) : Sign.of (q * r) = Sign.of q := by
  rcases lt_trichotomy q 0 with hq | hq | hq
  · rw [of_eq_negative.mpr hq, of_eq_negative.mpr (mul_neg_of_neg_of_pos hq h)]
  · rw [hq, zero_mul]
  · rw [of_eq_positive.mpr hq, of_eq_positive.mpr (mul_pos hq h)]

theorem of_sum {s : Sign} {x : Rat} {l : List Rat} (hx : Sign.of x = s)
    (h : ∀ y ∈ l, Sign.of y = s) : Sign.of (x + l.sum) = s := by
  induction l generalizing x with
  | nil => rw [List.sum_nil, add_zero]; exact hx
  | cons y l ih =>
    obtain ⟨hy, hl⟩ := List.forall_mem_cons.mp h
    rw [List.sum_cons, ← add_assoc]
    exact ih (of_add hx hy) hl

end Sign

theorem Valuation.Admissible.value_pos {v : Valuation} (hv : v.Admissible) (n : Nat) {s : Symbol}
    (hs : s.isPositive = true) : 0 < s.value n v := by
  cases s with
  | positive name => exact hv name
  | _ => simp [Symbol.isPositive] at hs

theorem Monomial.powerProduct_pos {g : Symbol → Rat} {l : List (Symbol × Nat)}
    (h : ∀ p ∈ l, 0 < g p.1) : 0 < powerProduct g l := by
  induction l with
  | nil => exact one_pos
  | cons p l ih =>
    obtain ⟨hp, hl⟩ := List.forall_mem_cons.mp h
    exact mul_pos (pow_pos hp p.2) (ih hl)

namespace Expr

variable {n : Nat} {v : Valuation}

theorem value_of_constant? {e : Expr} {q : Rat} (h : e.constant? = some q) : e.value n v = q := by
  obtain ⟨ts⟩ := e
  rw [constant?] at h
  split at h
  · next hts =>
    simp only at hts
    subst hts
    exact Option.some.inj h
  · next m c hts =>
    simp only at hts
    subst hts
    split at h
    · next hm =>
      rw [value_eq_sum, Monomial.eq_one_of_isOne hm]
      simpa using h
    · simp at h
  · simp at h

/-- The sign of a number is found, and so is the common sign of terms in positive constants. -/
theorem sign?_cases {e : Expr} {s : Sign} (h : e.sign? = some s) :
    (∃ q, e.constant? = some q ∧ Sign.of q = s) ∨ e.terms ≠ [] ∧
      ∀ t ∈ e.terms, t.1.base = 1 ∧ (∀ p ∈ t.1.powers, p.1.isPositive = true) ∧
        Sign.of t.2 = s := by
  rw [sign?] at h
  split at h
  · next q hq => exact Or.inl ⟨q, hq, Option.some.inj h⟩
  · split at h
    · simp at h
    · next hcounter =>
      right
      have hbase : ∀ t ∈ e.terms, t.1.base = 1 := by
        intro t ht
        have hfree := List.any_eq_false.mp (Bool.not_eq_true _ ▸ hcounter) t ht
        simp only [Monomial.isExponential, Bool.or_eq_true, bne_iff_ne, ne_eq, not_or, not_not] at hfree
        exact hfree.1
      have hsign : ∀ t ∈ e.terms, termSign? t = some s := by
        cases hts : e.terms with
        | nil => simp [hts] at h
        | cons t rest =>
          rw [hts] at h
          simp only at h
          cases ht : termSign? t with
          | none => simp [ht] at h
          | some r =>
            rw [ht] at h
            simp only at h
            split at h
            · next hrest =>
              obtain rfl := Option.some.inj h
              exact List.forall_mem_cons.mpr ⟨ht, fun u hu => by
                simpa using List.all_eq_true.mp hrest u hu⟩
            · simp at h
      refine ⟨fun hnil => ?_, fun t ht => ⟨hbase t ht, ?_⟩⟩
      · simp [hnil] at h
      · have hterm := hsign t ht
        rw [termSign?] at hterm
        split at hterm
        · next hall =>
          exact ⟨fun p hp => List.all_eq_true.mp hall p.1 (List.mem_map_of_mem hp),
            Option.some.inj hterm⟩
        · simp at hterm

/-- A sign that is found is right for all admissible values. -/
theorem sign?_sound (hv : v.Admissible) {e : Expr} {s : Sign} (h : e.sign? = some s) :
    Sign.of (e.value n v) = s := by
  rcases sign?_cases h with ⟨q, hq, hs⟩ | ⟨hne, hterms⟩
  · rw [value_of_constant? hq, hs]
  · have hsign : ∀ t ∈ e.terms, Sign.of (t.2 * t.1.value n v) = s := by
      intro t ht
      obtain ⟨hbase, hpositive, hs⟩ := hterms t ht
      have hpos : 0 < t.1.value n v := by
        rw [Monomial.value_eq, hbase, one_pow, mul_one]
        exact Monomial.powerProduct_pos fun p hp => hv.value_pos n (hpositive p hp)
      rw [Sign.of_mul_pos hpos, hs]
    obtain ⟨t, rest, hts⟩ := List.exists_cons_of_ne_nil hne
    rw [hts] at hsign
    obtain ⟨ht, hrest⟩ := List.forall_mem_cons.mp hsign
    rw [value_eq_sum, hts, List.map_cons, List.sum_cons]
    exact Sign.of_sum ht (List.forall_mem_map.mpr hrest)

end Expr

end ProbLoop
