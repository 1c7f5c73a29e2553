import ProbLoop.Proofs.Envelope.Within

/-!
# What an envelope asks for comes before

The monomials in the cases of a monomial come before it in the descent, but for the monomial itself. So
do its factors and its roots.
-/

set_option autoImplicit false

namespace ProbLoop

/-- Lists of exponents are compared at the first place where they differ. -/
theorem LexLt.map_of_le {f g : Symbol → Nat} {ss : List Symbol} (hle : ∀ s ∈ ss, f s ≤ g s)
    (hlt : ∃ s ∈ ss, f s < g s) : LexLt (ss.map f) (ss.map g) := by
  induction ss with
  | nil =>
    obtain ⟨s, hs, -⟩ := hlt
    exact absurd hs List.not_mem_nil
  | cons s ss ih =>
    obtain ⟨hs, hss⟩ := List.forall_mem_cons.mp hle
    rcases hs.lt_or_eq with hlt' | heq
    · exact Or.inl ⟨hlt', by simp⟩
    · refine Or.inr ⟨heq, ih hss ?_⟩
      obtain ⟨t, ht, hlt⟩ := hlt
      rcases List.mem_cons.mp ht with rfl | ht
      · exact absurd heq hlt.ne
      · exact ⟨t, ht, hlt⟩

/-- Substituting what may be assigned to a variable keeps every monomial from rising. -/
theorem Expr.descendsTo_subst {s : Symbol} {earlier ss : List Symbol} {value e : Expr}
    (hvalue : value.Assignable s earlier) (hs : ∀ t ∈ ss, t ∉ s :: earlier) (he : e.Canonical)
    {m : Monomial} (hm : e.All (Monomial.DescendsTo · ss m)) :
    (e.subst s value).All (Monomial.DescendsTo · (ss ++ [s]) m) := by
  unfold Expr.subst
  split
  · apply all_sum
    intro x hx
    obtain ⟨t, ht, rfl⟩ := List.mem_map.mp hx
    have hc := he.monomials t ht
    unfold substTerm
    simp only
    split
    · next h0 =>
      rw [Monomial.without_of_powerOf_eq_zero hc h0]
      exact all_term ((hm t ht).keep s)
    · refine all_mul (P := fun k => k = t.1.without s) ?_ (all_term rfl)
        (Q := fun k => k.PowerBelow s (t.1.powerOf s) ∧ k.Over (s :: earlier)) fun u hu =>
          ⟨hvalue.powerBelow_pow _ u hu, (hvalue.reads.pow _).monomials u hu⟩
      rintro k q rfl ⟨hq, hover⟩
      exact (hm t ht).step hc hq fun t ht' => ⟨hover.powerOf_eq_zero (hs t ht'),
        fun h => hs t ht' (h ▸ List.mem_cons_self)⟩
  · exact hm.mono fun k hk => hk.keep s

namespace Program

/-- Unfolding variables into cases keeps every monomial from rising. -/
theorem descendsTo_casesFrom {ds : List Declaration} {earlier : List Symbol}
    (hs : SolvableFrom earlier ds) (hn : (ds.map Declaration.symbol).Nodup)
    (hnew : ∀ s ∈ earlier, s ∉ ds.map Declaration.symbol) {m : Monomial} (hm : m.Canonical) :
    ∀ c ∈ casesFrom ds (.term m 1), 0 < c.probability ∧ c.value.Canonical ∧
      c.value.All (Monomial.DescendsTo · (ds.map Declaration.symbol).reverse m) := by
  induction ds generalizing earlier with
  | nil =>
    intro c hc
    rw [List.mem_singleton.mp hc]
    exact ⟨one_pos, Expr.canonical_term hm 1, Expr.all_term (Or.inl rfl)⟩
  | cons d ds ih =>
    rw [List.map_cons, List.nodup_cons] at hn
    have hnew' : ∀ s ∈ d.symbol :: earlier, s ∉ ds.map Declaration.symbol :=
      List.forall_mem_cons.mpr ⟨hn.1, fun s hs' hmem => hnew s hs' (List.mem_cons_of_mem _ hmem)⟩
    have hlater : ∀ t ∈ (ds.map Declaration.symbol).reverse, t ∉ d.symbol :: earlier :=
      fun t ht hmem => hnew' t hmem (List.mem_reverse.mp ht)
    rw [casesFrom_cons, List.map_cons, List.reverse_cons]
    apply forall_unfoldVar (P := fun e => e.Canonical ∧
        e.All (Monomial.DescendsTo · (ds.map Declaration.symbol).reverse m))
      (Q := fun e => e.Canonical ∧
        e.All (Monomial.DescendsTo · ((ds.map Declaration.symbol).reverse ++ [d.symbol]) m))
    · exact fun e he => ⟨he.1, he.2.mono fun k hk => hk.keep d.symbol⟩
    · intro bs hu b hb
      have hsolvable := hs.1
      rw [hu] at hsolvable
      have hassign := hsolvable.2 b hb
      exact ⟨hsolvable.1.1 b hb, fun e he => ⟨he.1.subst hassign.reads.canonical,
        Expr.descendsTo_subst hassign hlater he.1 he.2⟩⟩
    · exact ih hs.2 hn.2 hnew'

variable {p : Program} {m : Monomial}

/-- In the cases of a monomial there are multiples of it and monomials below it. -/
theorem WellFormed.below_cases (hp : p.WellFormed) (hm : m.Over p.vars) {c : Case}
    (hc : c ∈ p.cases (.term m 1)) :
    c.value.All fun k => k = m ∨ (p.rank k).Below (p.rank m) := by
  have hover := (hp.proper_cases (Expr.over_term hm 1) c hc).2
  obtain ⟨-, -, hdescends⟩ := descendsTo_casesFrom hp.solvable hp.nodup
    (fun _ h => absurd h List.not_mem_nil) hm.toCanonical c hc
  exact fun t ht => below_of_descendsTo (hover.monomials t ht) hm (hdescends t ht)

/-- A monomial with smaller exponents comes before. -/
theorem below_of_le (hm : m.Over p.vars) {k : Monomial} (hk : k.Over p.vars)
    (hle : ∀ s, k.powerOf s ≤ m.powerOf s) (hne : k ≠ m) : (p.rank k).Below (p.rank m) := by
  refine (below_of_descendsTo hk hm (Or.inr ?_)).resolve_left hne
  refine LexLt.map_of_le (fun s _ => hle s) ?_
  by_contra hnone
  push Not at hnone
  refine hne (hk.toCanonical.ext hm.toCanonical (fun s => ?_) (hk.base_eq_one.trans hm.base_eq_one.symm))
  by_cases hs : s ∈ p.vars
  · exact le_antisymm (hle s) (hnone s (List.mem_reverse.mpr hs))
  · rw [hk.powerOf_eq_zero hs, hm.powerOf_eq_zero hs]

/-- A monomial without some of its factors comes before it. -/
theorem below_rest (hm : m.Over p.vars) {keep : Symbol → Bool} (h : (m.kept keep).isOne = false) :
    (m.rest keep).Over p.vars ∧ (p.rank (m.rest keep)).Below (p.rank m) := by
  have hover : (m.rest keep).Over p.vars := hm.filter (fun q => !keep q.1) hm.base_eq_one
  refine ⟨hover, below_of_le hm hover (fun s => ?_) fun heq => ?_⟩
  · rw [Monomial.powerOf_rest]
    split
    · exact Nat.zero_le _
    · exact le_rfl
  · have hkept : m.kept keep = .one := by
      refine (hm.toCanonical.filter _ one_ne_zero).ext Monomial.canonical_one (fun s => ?_) rfl
      refine (Monomial.powerOf_kept m keep s).trans ?_
      split
      · next hs =>
        have hzero := Monomial.powerOf_rest m keep s
        rw [if_pos hs, heq] at hzero
        exact hzero
      · rfl
    rw [hkept] at h
    exact absurd h (by decide)

theorem powerOf_root (m : Monomial) (k : Nat) (s : Symbol) :
    (m.root k).powerOf s = m.powerOf s / k := by
  unfold Monomial.powerOf Monomial.root
  simp only
  induction m.powers with
  | nil => simp [Assoc.find?]
  | cons q l ih =>
    rw [List.map_cons, Assoc.find?, Assoc.find?]
    split
    · rfl
    · exact ih

/-- A root of a monomial comes before it. -/
theorem below_root (hm : m.Over p.vars) (h : 1 < oddPart m.powerGcd) :
    (m.root (oddPart m.powerGcd)).Over p.vars ∧
      (p.rank (m.root (oddPart m.powerGcd))).Below (p.rank m) := by
  set k := oddPart m.powerGcd
  have hdvd : ∀ q ∈ m.powers, k ∣ q.2 :=
    fun q hq => (oddPart_dvd _).trans (Monomial.powerGcd_dvd q hq)
  have hover := hm.root hdvd
  refine ⟨hover, below_of_le hm hover (fun s => ?_) fun heq => ?_⟩
  · rw [powerOf_root]
    exact Nat.div_le_self _ _
  · -- A monomial that is its own root has no factors, so no greatest common divisor either.
    have hzero : ∀ s, m.powerOf s = 0 := by
      intro s
      have hroot := powerOf_root m k s
      rw [heq] at hroot
      by_contra hne
      exact absurd hroot.symm (Nat.div_lt_self (Nat.pos_of_ne_zero hne) h).ne
    have hone : m = .one := hm.toCanonical.ext Monomial.canonical_one (fun s => hzero s)
      hm.base_eq_one
    have hk : k = 0 := by
      change oddPart m.powerGcd = 0
      rw [hone, show Monomial.one.powerGcd = 0 from rfl, oddPart, if_pos rfl]
    omega

end Program

end ProbLoop
