import ProbLoop.Proofs.Expr.Over
import ProbLoop.Proofs.Expr.Powers

/-!
# Expressions that are affine in one symbol

Such an expression is a number times the symbol and a rest without it. This shows in its terms, and it
is what the degree in the symbol and the coefficient of the symbol tell.
-/

set_option autoImplicit false

namespace ProbLoop

namespace Monomial

variable {m : Monomial} {s : Symbol}

theorem kept_of_powerOf (hm : m.Canonical) (h : m.powerOf s = 1) :
    m.kept (· == s) = ofSymbol s 1 := by
  have hp : m.powers.filter (fun p => p.1 == s) = [(s, 1)] := by
    apply Assoc.Sorted.ext (hm.sorted.filter _) (List.pairwise_singleton _ _)
    rintro ⟨t, k⟩
    rw [List.mem_filter, mem_powers_iff hm, List.mem_singleton, beq_iff_eq, Prod.mk.injEq]
    constructor
    · rintro ⟨⟨hk, -⟩, rfl⟩
      exact ⟨rfl, hk.symm.trans h⟩
    · rintro ⟨rfl, rfl⟩
      exact ⟨⟨h, Nat.one_pos⟩, rfl⟩
  rw [kept, hp]
  rfl

theorem kept_ofSymbol (s : Symbol) : (ofSymbol s 1).kept (· == s) = ofSymbol s 1 := by
  simp [kept, ofSymbol]

theorem rest_ofSymbol (s : Symbol) : (ofSymbol s 1).rest (· == s) = one := by
  simp [rest, ofSymbol, one]

theorem eq_ofSymbol_of_rest_eq_one (hm : m.Canonical) (h : m.powerOf s = 1)
    (hr : m.rest (· == s) = one) : m = ofSymbol s 1 :=
  Expr.eq_of_kept_of_rest hm (canonical_ofSymbol s 1)
    ((kept_of_powerOf hm h).trans (kept_ofSymbol s).symm) (hr.trans (rest_ofSymbol s).symm)

theorem kept_ne_ofSymbol (h : m.powerOf s = 0) : m.kept (· == s) ≠ ofSymbol s 1 := by
  intro hkept
  have hpower := m.powerOf_kept (· == s) s
  rw [hkept, powerOf_ofSymbol, h, ite_self] at hpower
  exact one_ne_zero hpower

end Monomial

namespace Expr

variable {e : Expr} {s : Symbol}

/-- The term of one symbol splits off from the others. -/
theorem Canonical.scale_add_filter (he : e.Canonical) (s : Symbol) :
    (ofSymbol s).scale (e.coefficient (.ofSymbol s 1)) + ⟨e.terms.filter (·.1 != .ofSymbol s 1)⟩ =
      e := by
  refine (((canonical_ofSymbol s).scale _).add (he.filter _)).toOrdered.ext_lift he.toOrdered
    fun φ => ?_
  rw [lift_filter_ne he.toOrdered φ (.ofSymbol s 1), lift_add, lift_scale, ofSymbol, lift_term,
    one_mul, mul_comm]

/-- Every term in which the symbol occurs is a multiple of it. -/
def AffineIn (s : Symbol) (e : Expr) : Prop :=
  e.All fun m => m.powerOf s = 0 ∨ m = .ofSymbol s 1

theorem AffineIn.mentions_filter (h : e.AffineIn s) (he : e.Canonical) (hs : s ≠ .counter) :
    (⟨e.terms.filter (·.1 != .ofSymbol s 1)⟩ : Expr).mentions s = false := by
  refine mentions_eq_false_iff.mpr fun hmem => ?_
  obtain ⟨t, ht, hst⟩ := mem_freeSymbols_iff.mp hmem
  obtain ⟨hte, hne⟩ := List.mem_filter.mp ht
  have hpower := (h t hte).resolve_right (by simpa using hne)
  have hsymbol := (mem_monomialSymbols_iff.mp hst).resolve_left fun hcounter => hs hcounter.1
  obtain ⟨p, hp, rfl⟩ := List.mem_map.mp hsymbol
  exact (Monomial.powerOf_pos (he.monomials t hte) hp).ne' hpower

theorem affineIn_scale_add {q : Expr} (hq : q.mentions s = false) (a : Rat) :
    ((ofSymbol s).scale a + q).AffineIn s :=
  all_add (all_scale (all_ofSymbol (Or.inr rfl)))
    fun _ ht => Or.inl (powerOf_eq_zero_of_not_mentions hq ht)

/-- The coefficient of the symbol is a number. -/
theorem AffineIn.collected (h : e.AffineIn s) (he : e.Canonical) :
    e.collected (· == s) (.ofSymbol s 1) = const (e.coefficient (.ofSymbol s 1)) := by
  rw [collected_eq_group]
  refine (ordered_group _ _ _).ext_lift (ordered_term _ _) fun φ => ?_
  rw [lift_group, const, lift_term, coefficient_eq_lift he.toOrdered, ← lift_mul_const]
  refine lift_congr fun t ht => ?_
  rcases h t ht with hpower | hsymbol
  · have hne : t.1 ≠ .ofSymbol s 1 := fun hsymbol => by
      rw [hsymbol, Monomial.powerOf_ofSymbol] at hpower
      exact one_ne_zero hpower
    rw [if_neg (Monomial.kept_ne_ofSymbol hpower), if_neg hne, zero_mul]
  · rw [hsymbol, Monomial.kept_ofSymbol, Monomial.rest_ofSymbol, if_pos rfl, if_pos rfl, one_mul]

/-- An expression is affine if its degree is at most one and the coefficient of the symbol is a
number. -/
theorem affineIn_iff_check (he : e.Canonical) :
    e.AffineIn s ↔
      e.degreeIn s ≤ 1 ∧ ∃ q, (e.collected (· == s) (.ofSymbol s 1)).constant? = some q := by
  constructor
  · intro h
    refine ⟨degreeIn_le_iff.mpr fun t ht => ?_, _, by rw [h.collected he, constant?_const]⟩
    rcases h t ht with hpower | hsymbol
    · omega
    · rw [hsymbol, Monomial.powerOf_ofSymbol]
  · rintro ⟨hdegree, q, hq⟩ t ht
    have hm := he.monomials t ht
    have hle := degreeIn_le_iff.mp hdegree t ht
    by_cases hpower : t.1.powerOf s = 0
    · exact Or.inl hpower
    · have hone : t.1.powerOf s = 1 := by omega
      exact Or.inr (Monomial.eq_ofSymbol_of_rest_eq_one hm hone
        (rest_eq_one_of_constant? he hq t ht (Monomial.kept_of_powerOf hm hone)))

end Expr

end ProbLoop
