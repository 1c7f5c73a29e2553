import ProbLoop.Proofs.Expr.Collect

/-!
# Polynomials over given symbols

Sums, products and powers of polynomials over a list of symbols are again polynomials over it.
-/

set_option autoImplicit false

namespace ProbLoop

variable {vars : List Symbol}

/-- A product of powers of the given symbols. -/
structure Monomial.Over (vars : List Symbol) (m : Monomial) : Prop extends Canonical m where
  base_eq_one : m.base = 1
  mem_vars : ∀ p ∈ m.powers, p.1 ∈ vars

namespace Monomial

theorem over_one : one.Over vars :=
  ⟨canonical_one, rfl, by simp [one]⟩

theorem over_ofSymbol {s : Symbol} (hs : s ∈ vars) (k : Nat) : (ofSymbol s k).Over vars := by
  refine ⟨canonical_ofSymbol s k, rfl, ?_⟩
  unfold ofSymbol
  split
  · simp
  · simpa using hs

theorem Over.mul {a b : Monomial} (ha : a.Over vars) (hb : b.Over vars) : (a * b).Over vars where
  toCanonical := ha.toCanonical.mul hb.toCanonical
  base_eq_one := by
    change a.base * b.base = 1
    rw [ha.base_eq_one, hb.base_eq_one, one_mul]
  mem_vars := Assoc.forall_merge (fun _ _ _ _ h _ _ => h) ha.mem_vars hb.mem_vars

theorem Over.without {m : Monomial} (hm : m.Over vars) (s : Symbol) : (m.without s).Over vars :=
  ⟨hm.toCanonical.without s, hm.base_eq_one,
    fun p hp => hm.mem_vars p (List.mem_filter.mp hp).1⟩

theorem Over.mono {m : Monomial} (hm : m.Over vars) {more : List Symbol}
    (h : ∀ s ∈ vars, s ∈ more) : m.Over more :=
  ⟨hm.toCanonical, hm.base_eq_one, fun p hp => h _ (hm.mem_vars p hp)⟩

theorem Over.filter {m : Monomial} (hm : m.Over vars) (keep : Symbol × Nat → Bool) {q : Rat}
    (hq : q = 1) : (⟨m.powers.filter keep, q⟩ : Monomial).Over vars :=
  ⟨hm.toCanonical.filter keep (hq ▸ one_ne_zero), hq,
    fun p hp => hm.mem_vars p (List.mem_filter.mp hp).1⟩

theorem powerGcd_dvd {m : Monomial} : ∀ p ∈ m.powers, m.powerGcd ∣ p.2 := by
  have hfold : ∀ (l : List (Symbol × Nat)) (k : Nat),
      l.foldl (fun acc p => Nat.gcd acc p.2) k ∣ k ∧
        ∀ p ∈ l, l.foldl (fun acc p => Nat.gcd acc p.2) k ∣ p.2 := by
    intro l
    induction l with
    | nil => exact fun k => ⟨dvd_rfl, by simp⟩
    | cons q l ih =>
      intro k
      obtain ⟨hk, hl⟩ := ih (Nat.gcd k q.2)
      refine ⟨hk.trans (Nat.gcd_dvd_left k q.2), List.forall_mem_cons.mpr ⟨?_, hl⟩⟩
      exact hk.trans (Nat.gcd_dvd_right k q.2)
  exact (hfold m.powers 0).2

theorem Over.root {m : Monomial} (hm : m.Over vars) {k : Nat} (h : ∀ p ∈ m.powers, k ∣ p.2) :
    (m.root k).Over vars where
  toCanonical := hm.toCanonical.root h
  base_eq_one := hm.base_eq_one
  mem_vars := by
    intro p hp
    obtain ⟨q, hq, rfl⟩ := List.mem_map.mp hp
    exact hm.mem_vars q hq

theorem Over.isPlain {m : Monomial} (hm : m.Over vars) (hv : ∀ s ∈ vars, s.isVar = true) :
    m.isPlain = true :=
  isPlain_iff.mpr ⟨hm.base_eq_one, fun p hp => hv _ (hm.mem_vars p hp)⟩

theorem Over.isStill {m : Monomial} (hm : m.Over vars) (hv : Symbol.counter ∉ vars) :
    m.IsStill := by
  refine ⟨hm.base_eq_one, List.any_eq_false.mpr fun p hp hc => hv ?_⟩
  rw [← beq_iff_eq.mp hc]
  exact hm.mem_vars p hp

theorem Over.powerOf_eq_zero {m : Monomial} (hm : m.Over vars) {s : Symbol} (hs : s ∉ vars) :
    m.powerOf s = 0 := by
  apply Monomial.powerOf_eq_zero
  refine List.any_eq_false.mpr fun p hp hps => hs ?_
  rw [← beq_iff_eq.mp hps]
  exact hm.mem_vars p hp

end Monomial

namespace Expr

/-- A polynomial over the given symbols with rational coefficients. -/
structure Over (vars : List Symbol) (e : Expr) : Prop extends Ordered e where
  monomials : e.All (Monomial.Over vars)

theorem Over.canonical {e : Expr} (he : e.Over vars) : e.Canonical :=
  ⟨he.toOrdered, he.monomials.mono fun _ h => h.toCanonical⟩

theorem Over.isPlain {e : Expr} (he : e.Over vars) (hv : ∀ s ∈ vars, s.isVar = true) :
    e.IsPlain :=
  ⟨he.canonical, he.monomials.mono fun _ h => h.isPlain hv⟩

theorem Over.isStill {e : Expr} (he : e.Over vars) (hv : Symbol.counter ∉ vars) :
    e.All Monomial.IsStill :=
  he.monomials.mono fun _ h => h.isStill hv

theorem Over.mono {e : Expr} (he : e.Over vars) {more : List Symbol} (h : ∀ s ∈ vars, s ∈ more) :
    e.Over more :=
  ⟨he.toOrdered, he.monomials.mono fun _ hm => hm.mono h⟩

theorem over_zero : zero.Over vars := ⟨ordered_zero, all_zero⟩

theorem over_term {m : Monomial} (hm : m.Over vars) (c : Rat) : (term m c).Over vars :=
  ⟨ordered_term m c, all_term hm⟩

theorem over_const (q : Rat) : (const q).Over vars := over_term Monomial.over_one q

theorem over_one : one.Over vars := over_const 1

theorem over_ofSymbol {s : Symbol} (hs : s ∈ vars) : (ofSymbol s).Over vars :=
  over_term (Monomial.over_ofSymbol hs 1) 1

theorem Over.add {a b : Expr} (ha : a.Over vars) (hb : b.Over vars) : (a + b).Over vars :=
  ⟨ha.toOrdered.add hb.toOrdered, all_add ha.monomials hb.monomials⟩

theorem Over.neg {a : Expr} (ha : a.Over vars) : (-a).Over vars :=
  ⟨ha.toOrdered.neg, all_neg ha.monomials⟩

theorem Over.sub {a b : Expr} (ha : a.Over vars) (hb : b.Over vars) : (a - b).Over vars :=
  ha.add hb.neg

theorem Over.scale {a : Expr} (ha : a.Over vars) (q : Rat) : (a.scale q).Over vars :=
  ⟨ha.toOrdered.scale q, all_scale ha.monomials⟩

theorem over_sum {es : List Expr} (h : ∀ e ∈ es, e.Over vars) : (sum es).Over vars :=
  ⟨ordered_sum fun e he => (h e he).toOrdered, all_sum fun e he => (h e he).monomials⟩

theorem Over.mul {a b : Expr} (ha : a.Over vars) (hb : b.Over vars) : (a * b).Over vars :=
  ⟨ordered_mul a b, all_mul (fun _ _ hm hk => hm.mul hk) ha.monomials hb.monomials⟩

theorem Over.pow {e : Expr} (he : e.Over vars) (k : Nat) : (e.pow k).Over vars :=
  ⟨ordered_pow e he.toOrdered k,
    all_pow_const (fun _ _ hm hk => hm.mul hk) Monomial.over_one he.monomials k⟩

theorem find?_addSymbols (symbols : List Symbol) {acc : List (Symbol × Unit)}
    (ha : Assoc.Sorted Symbol.cmp acc) (s : Symbol) :
    Assoc.find? s (symbols.foldl (fun acc s => addSymbol s acc) acc) =
      if s ∈ symbols then some () else Assoc.find? s acc := by
  induction symbols generalizing acc with
  | nil => simp
  | cons t symbols ih =>
    have hs : Assoc.Sorted Symbol.cmp (addSymbol t acc) := Assoc.sorted_alter _ _ ha
    rw [List.foldl_cons, ih hs, addSymbol, Assoc.find?_alter _ _ ha]
    by_cases hs : s ∈ symbols
    · rw [if_pos hs, if_pos (List.mem_cons_of_mem t hs)]
    · rw [if_neg hs]
      by_cases ht : t = s
      · simp [ht]
      · simp [ht, hs, Ne.symm ht]

theorem sorted_addSymbols (symbols : List Symbol) {acc : List (Symbol × Unit)}
    (ha : Assoc.Sorted Symbol.cmp acc) :
    Assoc.Sorted Symbol.cmp (symbols.foldl (fun acc s => addSymbol s acc) acc) := by
  induction symbols generalizing acc with
  | nil => exact ha
  | cons t symbols ih => exact ih (Assoc.sorted_alter _ _ ha)

theorem mem_freeSymbols_iff {e : Expr} {s : Symbol} :
    s ∈ e.freeSymbols ↔ ∃ t ∈ e.terms, s ∈ monomialSymbols t.1 := by
  have hfind := find?_addSymbols (e.terms.flatMap fun t => monomialSymbols t.1) Assoc.sorted_nil s
  constructor
  · intro hs
    obtain ⟨q, hq, rfl⟩ := List.mem_map.mp hs
    rw [Assoc.find?_of_mem (sorted_addSymbols _ Assoc.sorted_nil) hq] at hfind
    split at hfind
    · next hmem => exact List.mem_flatMap.mp hmem
    · simp [Assoc.find?] at hfind
  · rintro ⟨t, ht, hs⟩
    rw [if_pos (List.mem_flatMap.mpr ⟨t, ht, hs⟩)] at hfind
    exact List.mem_map_of_mem (Assoc.mem_of_find? hfind)

theorem mem_monomialSymbols_iff {m : Monomial} {s : Symbol} :
    s ∈ monomialSymbols m ↔ s = .counter ∧ m.isExponential = true ∨ s ∈ m.symbols := by
  unfold monomialSymbols
  split
  · next h => rw [List.mem_cons, and_iff_left h]
  · next h => rw [or_iff_right fun hs => h hs.2]

theorem mem_freeSymbols {e : Expr} {t : Monomial × Rat} (ht : t ∈ e.terms) {p : Symbol × Nat}
    (hp : p ∈ t.1.powers) : p.1 ∈ e.freeSymbols :=
  mem_freeSymbols_iff.mpr
    ⟨t, ht, mem_monomialSymbols_iff.mpr (Or.inr (List.mem_map_of_mem hp))⟩

/-- A variable on which an expression depends occurs in one of its monomials. -/
theorem exists_of_mem_freeSymbols {e : Expr} {s : Symbol} (hs : s ∈ e.freeSymbols)
    (hvar : s.isVar = true) : ∃ t ∈ e.terms, ∃ q ∈ t.1.powers, q.1 = s := by
  obtain ⟨t, ht, hs⟩ := mem_freeSymbols_iff.mp hs
  refine ⟨t, ht, ?_⟩
  rcases mem_monomialSymbols_iff.mp hs with ⟨rfl, -⟩ | hs
  · cases hvar
  · exact List.mem_map.mp hs

/-- An expression mentions the symbols on which it depends. -/
theorem mentions_iff {e : Expr} {s : Symbol} : e.mentions s = true ↔ s ∈ e.freeSymbols := by
  have hmentions : ∀ m : Monomial, m.mentions s = true ↔ s ∈ m.symbols := fun m => by
    simp [Monomial.mentions, Monomial.symbols]
  rw [mem_freeSymbols_iff, mentions]
  simp only [mem_monomialSymbols_iff, ← hmentions]
  split
  · next hs =>
    obtain rfl : s = .counter := by cases s <;> first | rfl | cases hs
    simp only [dependsOnCounter, List.any_eq_true, Bool.or_eq_true, true_and]
  · next hs =>
    have hne : s ≠ .counter := fun h => hs (h ▸ rfl)
    simp only [List.any_eq_true, hne, false_and, false_or]

theorem mentions_of_mem {e : Expr} {t : Monomial × Rat} (ht : t ∈ e.terms) {q : Symbol × Nat}
    (hq : q ∈ t.1.powers) : e.mentions q.1 = true :=
  mentions_iff.mpr (mem_freeSymbols ht hq)

theorem mentions_eq_false_iff {e : Expr} {s : Symbol} :
    e.mentions s = false ↔ s ∉ e.freeSymbols := by
  rw [← mentions_iff, Bool.not_eq_true]

theorem powerOf_eq_zero_of_not_mentions {e : Expr} {s : Symbol} (h : e.mentions s = false)
    {t : Monomial × Rat} (ht : t ∈ e.terms) : t.1.powerOf s = 0 := by
  refine Monomial.powerOf_eq_zero (List.any_eq_false.mpr fun p hp hps => ?_)
  rw [← beq_iff_eq.mp hps, mentions_of_mem ht hp] at h
  cases h

/-- A polynomial over variables is one over those variables that occur in it. -/
theorem Over.of_freeSymbols {e : Expr} (he : e.Over vars) (hv : ∀ s ∈ vars, s.isVar = true)
    {more : List Symbol} (h : ∀ s, .var s ∈ e.freeSymbols → .var s ∈ more) : e.Over more := by
  refine ⟨he.toOrdered, fun t ht => ?_⟩
  have hm := he.monomials t ht
  refine ⟨hm.toCanonical, hm.base_eq_one, fun p hp => ?_⟩
  have hvar := hv _ (hm.mem_vars p hp)
  have hfree := mem_freeSymbols ht hp
  cases hps : p.1 with
  | var s =>
    rw [hps] at hfree
    exact h s hfree
  | _ => simp [hps, Symbol.isVar] at hvar

theorem Over.mentions_eq_false {e : Expr} (he : e.Over vars) {s : Symbol} (hs : s ∉ vars)
    (hc : s ≠ .counter) : e.mentions s = false := by
  have hcounter : s.isCounter = false := by cases s <;> simp_all [Symbol.isCounter]
  rw [mentions, hcounter, if_neg (by decide)]
  refine List.any_eq_false.mpr fun t ht hmem => ?_
  obtain ⟨q, hq, heq⟩ := List.any_eq_true.mp hmem
  exact hs (beq_iff_eq.mp heq ▸ (he.monomials t ht).mem_vars q hq)

theorem degreeIn_le_iff {e : Expr} {s : Symbol} {d : Nat} :
    e.degreeIn s ≤ d ↔ ∀ t ∈ e.terms, t.1.powerOf s ≤ d := by
  have hfold : ∀ (ts : List (Monomial × Rat)) (c : Nat),
      ts.foldl (fun acc t => max acc (t.1.powerOf s)) c ≤ d ↔
        c ≤ d ∧ ∀ t ∈ ts, t.1.powerOf s ≤ d := by
    intro ts
    induction ts with
    | nil => simp
    | cons u ts ih =>
      intro c
      rw [List.foldl_cons, ih, max_le_iff, List.forall_mem_cons, and_assoc]
  rw [degreeIn, hfold, and_iff_right (Nat.zero_le d)]

theorem eq_const_of_constant? {e : Expr} (he : e.Ordered) {q : Rat} (h : e.constant? = some q) :
    e = const q := by
  have hq : (const q).Ordered := ordered_term _ _
  have hone : (const q).coefficient Monomial.one = q := by
    rw [coefficient_eq_lift hq, const, lift_term, if_pos rfl, mul_one]
  apply he.ext hq
  intro m
  by_cases hm : m = Monomial.one
  · subst hm
    rw [hone]
    obtain ⟨ts⟩ := e
    rw [constant?] at h
    split at h
    · next ht => rw [coefficient, ht]; exact Option.some.inj h
    · next k c ht =>
      split at h
      · next hk => rw [coefficient, ht, Assoc.find?, if_pos (Monomial.eq_one_of_isOne hk),
          Option.getD_some, Option.some.inj h]
      · simp at h
    · simp at h
  · rw [coefficient_of_constant? h hm, coefficient_of_constant? (constant?_const q) hm]

end Expr

end ProbLoop
