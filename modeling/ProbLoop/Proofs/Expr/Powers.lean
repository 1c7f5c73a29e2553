import ProbLoop.Proofs.Expr.Unique

/-!
# Powers of symbols in products

The exponents of a product add up. A canonical monomial is determined by its exponents and its base, so
the ways to take it apart and to put it together again can be compared exponent by exponent.
-/

set_option autoImplicit false

namespace ProbLoop.Monomial

theorem powerOf_pos {m : Monomial} (hm : m.Canonical) {q : Symbol × Nat} (hq : q ∈ m.powers) :
    0 < m.powerOf q.1 := by
  obtain ⟨hpower, hpos⟩ := (mem_powers_iff hm q.1 q.2).mp hq
  rwa [hpower]

/-- The exponent of a symbol is the sum over its entries, of which there is at most one. -/
theorem powerOf_eq_foldr {m : Monomial} (hm : m.Canonical) (s : Symbol) :
    m.powerOf s = m.powers.foldr (fun p acc => (if p.1 = s then p.2 else 0) + acc) 0 := by
  obtain ⟨powers, base⟩ := m
  have hs := hm.sorted
  clear hm
  unfold powerOf
  simp only at hs ⊢
  induction powers with
  | nil => rfl
  | cons p l ih =>
    obtain ⟨t, k⟩ := p
    rw [List.foldr_cons, ← ih (List.pairwise_cons.mp hs).2, Assoc.find?]
    by_cases ht : t = s
    · subst ht
      rw [Assoc.find?_eq_none hs.ne_of_mem]
      simp
    · simp [ht]

theorem foldr_powerOf (s : Symbol) (l : List (Symbol × Nat)) (x : Nat) :
    l.foldr (fun p acc => (if p.1 = s then p.2 else 0) + acc) x =
      l.foldr (fun p acc => (if p.1 = s then p.2 else 0) + acc) 0 + x := by
  induction l with
  | nil => exact (zero_add x).symm
  | cons p l ih => rw [List.foldr_cons, ih, List.foldr_cons, add_assoc]

theorem powerOf_mul {a b : Monomial} (ha : a.Canonical) (hb : b.Canonical) (s : Symbol) :
    (a * b).powerOf s = a.powerOf s + b.powerOf s := by
  rw [powerOf_eq_foldr (ha.mul hb), powerOf_eq_foldr ha, powerOf_eq_foldr hb, ← foldr_powerOf]
  refine Assoc.foldr_merge _ _ (fun p q x => ?_) (fun t j k x => ?_) a.powers b.powers 0
  · omega
  · simp only [Assoc.act]
    split <;> omega

theorem Canonical.mul_one {m : Monomial} (hm : m.Canonical) : m * one = m :=
  (hm.mul canonical_one).ext hm (fun s => powerOf_mul hm canonical_one s) (Rat.mul_one m.base)

theorem powerOf_ofSymbol (s : Symbol) (k : Nat) : (ofSymbol s k).powerOf s = k := by
  unfold ofSymbol powerOf
  split
  · next h => simp [Assoc.find?, h]
  · simp [Assoc.find?]

theorem powerOf_ofSymbol_of_ne {s t : Symbol} (h : t ≠ s) (k : Nat) :
    (ofSymbol s k).powerOf t = 0 := by
  unfold ofSymbol powerOf
  split
  · rfl
  · simp [Assoc.find?, Ne.symm h]

/-- Choosing symbols keeps their powers. -/
theorem powerOf_filter (m : Monomial) (keep : Symbol → Bool) (q : Rat) (s : Symbol) :
    (⟨m.powers.filter fun p => keep p.1, q⟩ : Monomial).powerOf s =
      if keep s then m.powerOf s else 0 := by
  rw [powerOf, Assoc.find?_filter, powerOf]
  split <;> rfl

theorem powerOf_kept (m : Monomial) (keep : Symbol → Bool) (s : Symbol) :
    (m.kept keep).powerOf s = if keep s then m.powerOf s else 0 :=
  m.powerOf_filter keep 1 s

theorem powerOf_rest (m : Monomial) (keep : Symbol → Bool) (s : Symbol) :
    (m.rest keep).powerOf s = if keep s then 0 else m.powerOf s := by
  refine (m.powerOf_filter (fun s => !keep s) m.base s).trans ?_
  cases keep s <;> rfl

theorem powerOf_without_self (m : Monomial) (s : Symbol) : (m.without s).powerOf s = 0 :=
  (m.powerOf_filter (· != s) m.base s).trans (if_neg (by simp))

theorem powerOf_without (m : Monomial) {s t : Symbol} (h : t ≠ s) :
    (m.without s).powerOf t = m.powerOf t :=
  (m.powerOf_filter (· != s) m.base t).trans (if_pos (by simpa using h))

theorem without_of_powerOf_eq_zero {m : Monomial} (hm : m.Canonical) {s : Symbol}
    (h : m.powerOf s = 0) : m.without s = m := by
  apply Canonical.ext (hm.without s) hm ?_ rfl
  intro t
  by_cases ht : t = s
  · rw [ht, powerOf_without_self, h]
  · exact powerOf_without m ht

theorem without_mul {a b : Monomial} (ha : a.Canonical) (hb : b.Canonical) (s : Symbol) :
    (a * b).without s = a.without s * b.without s := by
  apply Canonical.ext ((ha.mul hb).without s) ((ha.without s).mul (hb.without s)) ?_ rfl
  intro t
  rw [powerOf_mul (ha.without s) (hb.without s)]
  by_cases ht : t = s
  · rw [ht, powerOf_without_self, powerOf_without_self, powerOf_without_self]
  · rw [powerOf_without (a * b) ht, powerOf_without a ht, powerOf_without b ht,
      powerOf_mul ha hb]

theorem ofSymbol_mul (s : Symbol) (j k : Nat) :
    ofSymbol s j * ofSymbol s k = ofSymbol s (j + k) := by
  have hj := canonical_ofSymbol s j
  have hk := canonical_ofSymbol s k
  apply Canonical.ext (hj.mul hk) (canonical_ofSymbol s _) ?_ (one_mul 1)
  intro t
  rw [powerOf_mul hj hk]
  by_cases ht : t = s
  · rw [ht, powerOf_ofSymbol, powerOf_ofSymbol, powerOf_ofSymbol]
  · rw [powerOf_ofSymbol_of_ne ht, powerOf_ofSymbol_of_ne ht, powerOf_ofSymbol_of_ne ht]

theorem without_mul_ofSymbol {m : Monomial} (hm : m.Canonical) (s : Symbol) :
    m.without s * ofSymbol s (m.powerOf s) = m := by
  have hk := canonical_ofSymbol s (m.powerOf s)
  apply Canonical.ext ((hm.without s).mul hk) hm ?_ (mul_one m.base)
  intro t
  rw [powerOf_mul (hm.without s) hk]
  by_cases ht : t = s
  · rw [ht, powerOf_ofSymbol, powerOf_without_self, zero_add]
  · rw [powerOf_ofSymbol_of_ne ht, powerOf_without m ht, add_zero]

/-- The first power is a factor. -/
theorem cons_eq_mul {s : Symbol} {k : Nat} {l : List (Symbol × Nat)} {q : Rat}
    (h : (⟨(s, k) :: l, q⟩ : Monomial).Canonical) :
    (⟨(s, k) :: l, q⟩ : Monomial) = ofSymbol s k * ⟨l, q⟩ ∧ (⟨l, q⟩ : Monomial).Canonical := by
  have hl : (⟨l, q⟩ : Monomial).Canonical := ⟨(List.pairwise_cons.mp h.sorted).2,
    fun p hp => h.powers_pos p (List.mem_cons_of_mem _ hp), h.base_ne_zero⟩
  have hcons : ∀ t, (⟨(s, k) :: l, q⟩ : Monomial).powerOf t =
      (if s = t then some k else Assoc.find? t l).getD 0 := by
    intro t
    rw [powerOf, Assoc.find?]
  refine ⟨h.ext ((canonical_ofSymbol s k).mul hl) (fun t => ?_) (one_mul q).symm, hl⟩
  rw [hcons, powerOf_mul (canonical_ofSymbol s k) hl]
  by_cases ht : s = t
  · subst ht
    have hnone : (⟨l, q⟩ : Monomial).powerOf s = 0 := by
      rw [powerOf, Assoc.find?_eq_none h.sorted.ne_of_mem, Option.getD_none]
    rw [if_pos rfl, powerOf_ofSymbol, hnone]
    rfl
  · rw [if_neg ht, powerOf_ofSymbol_of_ne (Ne.symm ht), zero_add]
    rfl

theorem kept_mul_rest {m : Monomial} (hm : m.Canonical) (keep : Symbol → Bool) :
    m.kept keep * m.rest keep = m := by
  have hkept : (m.kept keep).Canonical := hm.filter _ one_ne_zero
  have hrest : (m.rest keep).Canonical := hm.filter _ hm.base_ne_zero
  apply (hkept.mul hrest).ext hm ?_ (one_mul m.base)
  intro s
  rw [powerOf_mul hkept hrest, powerOf_kept, powerOf_rest]
  cases keep s
  · exact zero_add _
  · exact add_zero _

/-- A product of powers that are kept and of others falls apart again. -/
theorem kept_rest_mul (keep : Symbol → Bool) {a b : Monomial} (ha : a.Canonical) (hb : b.Canonical)
    (hbase : a.base = 1) (hkeep : ∀ p ∈ a.powers, keep p.1 = true)
    (hdrop : ∀ p ∈ b.powers, keep p.1 = false) : (a * b).kept keep = a ∧ (a * b).rest keep = b := by
  have hab := ha.mul hb
  have ha0 : ∀ s, keep s = false → a.powerOf s = 0 := by
    intro s hs
    refine powerOf_eq_zero (List.any_eq_false.mpr fun p hp h => ?_)
    rw [← beq_iff_eq.mp h, hkeep p hp] at hs
    exact absurd hs (by decide)
  have hb0 : ∀ s, keep s = true → b.powerOf s = 0 := by
    intro s hs
    refine powerOf_eq_zero (List.any_eq_false.mpr fun p hp h => ?_)
    rw [← beq_iff_eq.mp h, hdrop p hp] at hs
    exact absurd hs (by decide)
  constructor
  · refine (hab.filter _ one_ne_zero).ext ha (fun s => ?_) hbase.symm
    refine (powerOf_kept (a * b) keep s).trans ?_
    rw [powerOf_mul ha hb]
    cases hs : keep s
    · exact (ha0 s hs).symm
    · rw [hb0 s hs]
      rfl
  · refine (hab.filter _ hab.base_ne_zero).ext hb (fun s => ?_) ?_
    · refine (powerOf_rest (a * b) keep s).trans ?_
      rw [powerOf_mul ha hb]
      cases hs : keep s
      · rw [ha0 s hs]
        exact zero_add _
      · exact (hb0 s hs).symm
    · change a.base * b.base = b.base
      rw [hbase, one_mul]

end ProbLoop.Monomial
