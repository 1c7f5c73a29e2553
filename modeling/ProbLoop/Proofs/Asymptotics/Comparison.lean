import ProbLoop.Proofs.Asymptotics.EventualSign

/-!
# When one expression dominates another

There are four cases: the two expressions are the same, their limits lie apart on the extended line,
both limits are finite, or both expressions tend to the same infinity and their growths decide. In each
direction this is a preorder, which the other direction turns over.
-/

set_option autoImplicit false

namespace ProbLoop

/-! ### The two sides of zero -/

namespace Direction

def opposite : Direction → Direction
  | up => down
  | down => up

/-- The sign of the numbers on the outer side of zero. -/
def sign : Direction → Sign
  | up => .positive
  | down => .negative

variable (direction : Direction)

theorem factor_opposite : direction.opposite.factor = -direction.factor := by
  cases direction <;> simp [opposite, factor]

theorem opposite_opposite : direction.opposite.opposite = direction := by
  cases direction <;> rfl

theorem opposite_ne : direction.opposite ≠ direction := by
  cases direction <;> simp [opposite]

theorem factor_ne_zero : direction.factor ≠ 0 := by
  cases direction <;> simp [factor]

theorem factor_mul_self : direction.factor * direction.factor = 1 := by
  cases direction <;> simp [factor]

theorem eq_or_eq_opposite (side : Direction) : side = direction ∨ side = direction.opposite := by
  cases direction <;> cases side <;> simp [opposite]

theorem sign_opposite_ne : direction.opposite.sign ≠ direction.sign := by
  cases direction <;> simp [opposite, sign]

theorem orient_eq_positive (s : Sign) : direction.orient s = .positive ↔ s = direction.sign := by
  cases direction <;> cases s <;> simp [orient, sign, Sign.flip]

theorem orient_eq_negative (s : Sign) :
    direction.orient s = .negative ↔ s = direction.opposite.sign := by
  cases direction <;> cases s <;> simp [orient, opposite, sign, Sign.flip]

theorem orient_eq_zero (s : Sign) : direction.orient s = .zero ↔ s = .zero := by
  cases direction <;> cases s <;> simp [orient, Sign.flip]

theorem of_eq_sign {q : Rat} : Sign.of q = direction.sign ↔ 0 < direction.factor * q := by
  cases direction with
  | up => rw [sign, factor, one_mul, Sign.of_eq_positive]
  | down => rw [sign, factor, neg_one_mul, Left.neg_pos_iff, Sign.of_eq_negative]

end Direction

namespace Expr

variable {direction : Direction} {a b c : Expr}

/-! ### Signs of sums -/

theorem terms_const {q : Rat} (hq : q ≠ 0) : (const q).terms = [(.one, q)] := by
  rw [const, term, nonzero?, if_neg hq]
  rfl

/-- A multiple of a product of positive constants, on the given side of zero. -/
def OnSide (direction : Direction) (t : Monomial × Rat) : Prop :=
  t.1.base = 1 ∧ (∀ q ∈ t.1.powers, q.1.isPositive = true) ∧ 0 < direction.factor * t.2

theorem OnSide.termSign? {t : Monomial × Rat} (h : OnSide direction t) :
    Expr.termSign? t = some direction.sign := by
  have hall : t.1.symbols.all Symbol.isPositive = true :=
    List.all_eq_true.mpr (List.forall_mem_map.mpr h.2.1)
  rw [Expr.termSign?, if_pos hall, direction.of_eq_sign.mpr h.2.2]

theorem not_dependsOnCounter_of_onSide (h : ∀ t ∈ a.terms, OnSide direction t) :
    a.dependsOnCounter = false := by
  refine List.any_eq_false.mpr fun t ht => ?_
  obtain ⟨hbase, hpositive, -⟩ := h t ht
  have hmentions : t.1.mentions .counter = false := by
    refine List.any_eq_false.mpr fun q hq hcounter => ?_
    have hq' := hpositive q hq
    rw [beq_iff_eq.mp hcounter] at hq'
    simp [Symbol.isPositive] at hq'
  simp [Monomial.isExponential, hbase, hmentions]

theorem onSide_of_sign? (ha : a.Ordered) (h : a.sign? = some direction.sign) :
    a.terms ≠ [] ∧ ∀ t ∈ a.terms, OnSide direction t := by
  rcases sign?_cases h with ⟨q, hq, hs⟩ | ⟨hne, hterms⟩
  · have hpos := direction.of_eq_sign.mp hs
    have hq0 : q ≠ 0 := by
      rintro rfl
      simp at hpos
    rw [eq_const_of_constant? ha hq, terms_const hq0]
    simpa [OnSide, Monomial.one] using hpos
  · exact ⟨hne, fun t ht => ⟨(hterms t ht).1, (hterms t ht).2.1,
      direction.of_eq_sign.mp (hterms t ht).2.2⟩⟩

theorem sign?_of_onSide (ha : a.Ordered) (hne : a.terms ≠ [])
    (h : ∀ t ∈ a.terms, OnSide direction t) : a.sign? = some direction.sign := by
  rw [sign?]
  split
  · next q hq =>
    have hconst := eq_const_of_constant? ha hq
    have hq0 : q ≠ 0 := by
      rintro rfl
      exact hne (hconst ▸ rfl)
    have hterm : (Monomial.one, q) ∈ a.terms := by
      rw [hconst, terms_const hq0]
      exact List.mem_singleton_self _
    rw [direction.of_eq_sign.mpr (h _ hterm).2.2]
  · obtain ⟨t, rest, hts⟩ := List.exists_cons_of_ne_nil hne
    rw [not_dependsOnCounter_of_onSide h, if_neg Bool.false_ne_true, hts]
    rw [hts] at h
    obtain ⟨ht, hrest⟩ := List.forall_mem_cons.mp h
    simp only [ht.termSign?]
    rw [if_pos (List.all_eq_true.mpr fun u hu => by simp [(hrest u hu).termSign?])]

/-- A sign other than zero is known if the terms are multiples of positive constants, all of them on
the same side of zero. -/
theorem sign?_eq_sign_iff (ha : a.Ordered) : a.sign? = some direction.sign ↔
    a.terms ≠ [] ∧ ∀ t ∈ a.terms, OnSide direction t :=
  ⟨onSide_of_sign? ha, fun h => sign?_of_onSide ha h.1 h.2⟩

theorem sign?_eq_zero_iff (ha : a.Ordered) : a.sign? = some .zero ↔ a = zero := by
  constructor
  · exact fun h => eq_zero_of_isZero (isZero_of_sign? ha h)
  · rintro rfl
    exact sign?_const 0

theorem sign?_neg (ha : a.Ordered) (h : a.sign? = some direction.sign) :
    (-a).sign? = some direction.opposite.sign := by
  obtain ⟨hne, hterms⟩ := (sign?_eq_sign_iff ha).mp h
  refine (sign?_eq_sign_iff ha.neg).mpr ⟨by simpa [Neg.neg, neg] using hne, ?_⟩
  intro t ht
  obtain ⟨u, hu, rfl⟩ := List.mem_map.mp ht
  obtain ⟨hbase, hpositive, hcoefficient⟩ := hterms u hu
  refine ⟨hbase, hpositive, ?_⟩
  rw [direction.factor_opposite, neg_mul_neg]
  exact hcoefficient

theorem sign?_add (ha : a.Ordered) (hb : b.Ordered) (h : a.sign? = some direction.sign)
    (h' : b.sign? = some direction.sign) : (a + b).sign? = some direction.sign := by
  obtain ⟨-, hterms⟩ := (sign?_eq_sign_iff ha).mp h
  obtain ⟨-, hterms'⟩ := (sign?_eq_sign_iff hb).mp h'
  refine (sign?_eq_sign_iff (ha.add hb)).mpr ⟨fun hnil => ?_, ?_⟩
  · -- Nothing cancels, since the sum has a value other than zero.
    have hone : Valuation.Admissible fun _ => 1 := fun _ => one_pos
    have hpos := direction.of_eq_sign.mp (sign?_sound (n := 0) hone h)
    have hpos' := direction.of_eq_sign.mp (sign?_sound (n := 0) hone h')
    have hvalue : (a + b).value 0 (fun _ => 1) = 0 := by rw [value_eq_sum, hnil]; rfl
    rw [value_add] at hvalue
    have hsum := add_pos hpos hpos'
    rw [← mul_add, hvalue, mul_zero] at hsum
    exact lt_irrefl 0 hsum
  · refine Assoc.forall_merge (Q := fun t : Monomial × Rat => t.1.base = 1 ∧
      (∀ q ∈ t.1.powers, q.1.isPositive = true) ∧ 0 < direction.factor * t.2) ?_ hterms hterms'
    rintro m c d r ⟨hbase, hpositive, hc⟩ ⟨-, -, hd⟩ hr
    have hr' : c + d = r := by
      unfold nonzero? at hr
      split at hr
      · simp at hr
      · exact Option.some.inj hr
    refine ⟨hbase, hpositive, ?_⟩
    rw [← hr', mul_add]
    exact add_pos hc hd

/-! ### Finite limits -/

theorem outer_eq_iff {s t : Sign} (h : ∀ r, direction.orient r = t ↔ r = s) (e : Expr) :
    e.sign?.map direction.orient = some t ↔ e.sign? = some s := by
  simp only [Option.map_eq_some_iff, h, exists_eq_right]

theorem Ordered.sub (ha : a.Ordered) (hb : b.Ordered) : (a - b).Ordered := ha.add hb.neg

theorem sub_eq_zero_iff (ha : a.Ordered) (hb : b.Ordered) : a - b = zero ↔ a = b := by
  constructor
  · intro h
    refine ha.ext_lift hb fun φ => ?_
    have hlift : (a - b).lift φ = 0 := by rw [h, lift_zero]
    rw [lift_sub] at hlift
    exact sub_eq_zero.mp hlift
  · rintro rfl
    exact (ha.sub ha).ext_lift ordered_zero fun φ => by rw [lift_sub, sub_self, lift_zero]

/-- A limit dominates another one if they are equal, if zero lies between them, or if their difference
has a known sign. -/
theorem dominatesFinite_iff (ha : a.Ordered) (hb : b.Ordered) :
    dominatesFinite a b direction = true ↔ a = b ∨ a.sign? = some direction.sign ∨
      b.sign? = some direction.opposite.sign ∨ (a - b).sign? = some direction.sign := by
  simp only [dominatesFinite, Bool.or_eq_true, Bool.and_eq_true, beq_iff_eq,
    outer_eq_iff direction.orient_eq_positive, outer_eq_iff direction.orient_eq_negative,
    outer_eq_iff direction.orient_eq_zero, sign?_eq_zero_iff (ha.sub hb), sub_eq_zero_iff ha hb]
  constructor
  · rintro ((((⟨hza, hzb⟩ | h) | h) | h) | h)
    · exact Or.inl ((eq_zero_of_isZero hza).trans (eq_zero_of_isZero hzb).symm)
    · exact Or.inr (Or.inl h)
    · exact Or.inr (Or.inr (Or.inl h))
    · exact Or.inr (Or.inr (Or.inr h))
    · exact Or.inl h
  · rintro (h | h | h | h)
    · exact Or.inr h
    · exact Or.inl (Or.inl (Or.inl (Or.inr h)))
    · exact Or.inl (Or.inl (Or.inr h))
    · exact Or.inl (Or.inr h)

/-- What lies beyond an expression on the outer side is on the outer side. -/
theorem sign?_of_sub (ha : a.Ordered) (hb : b.Ordered) (h : (a - b).sign? = some direction.sign)
    (hsign : b.sign? = some direction.sign) : a.sign? = some direction.sign := by
  have hsum : a - b + b = a := ((ha.sub hb).add hb).ext_lift ha fun φ => by
    rw [lift_add, lift_sub, sub_add_cancel]
  rw [← hsum]
  exact sign?_add (ha.sub hb) hb h hsign

/-- What lies before an expression on the inner side is on the inner side. -/
theorem sign?_of_sub_opposite (ha : a.Ordered) (hb : b.Ordered)
    (h : (a - b).sign? = some direction.sign) (hsign : a.sign? = some direction.opposite.sign) :
    b.sign? = some direction.opposite.sign := by
  have hsum : -(a - b) + a = b := ((ha.sub hb).neg.add ha).ext_lift hb fun φ => by
    rw [lift_add, lift_neg, lift_sub]
    ring
  rw [← hsum]
  exact sign?_add (ha.sub hb).neg ha (sign?_neg (ha.sub hb) h) hsign

theorem dominatesFinite_opposite (ha : a.Ordered) (hb : b.Ordered)
    (h : dominatesFinite a b direction = true) : dominatesFinite b a direction.opposite = true := by
  rw [dominatesFinite_iff ha hb] at h
  rw [dominatesFinite_iff hb ha, direction.opposite_opposite]
  rcases h with rfl | h | h | h
  · exact Or.inl rfl
  · exact Or.inr (Or.inr (Or.inl h))
  · exact Or.inr (Or.inl h)
  · have hdifference : -(a - b) = b - a := (ha.sub hb).neg.ext_lift (hb.sub ha) fun φ => by
      rw [lift_neg, lift_sub, lift_sub, neg_sub]
    exact Or.inr (Or.inr (Or.inr (hdifference ▸ sign?_neg (ha.sub hb) h)))

theorem dominatesFinite_trans (ha : a.Ordered) (hb : b.Ordered) (hc : c.Ordered)
    (hab : dominatesFinite a b direction = true) (hbc : dominatesFinite b c direction = true) :
    dominatesFinite a c direction = true := by
  rw [dominatesFinite_iff ha hb] at hab
  rw [dominatesFinite_iff hb hc] at hbc
  rw [dominatesFinite_iff ha hc]
  rcases hab with rfl | h | h | h
  · exact hbc
  · exact Or.inr (Or.inl h)
  · rcases hbc with rfl | h' | h' | h'
    · exact Or.inr (Or.inr (Or.inl h))
    · exact absurd (Option.some.inj (h.symm.trans h')) direction.sign_opposite_ne
    · exact Or.inr (Or.inr (Or.inl h'))
    · exact Or.inr (Or.inr (Or.inl (sign?_of_sub_opposite hb hc h' h)))
  · rcases hbc with rfl | h' | h' | h'
    · exact Or.inr (Or.inr (Or.inr h))
    · exact Or.inr (Or.inl (sign?_of_sub ha hb h h'))
    · exact Or.inr (Or.inr (Or.inl h'))
    · have hsum : a - b + (b - c) = a - c :=
        ((ha.sub hb).add (hb.sub hc)).ext_lift (ha.sub hc) fun φ => by
          rw [lift_add, lift_sub, lift_sub, lift_sub, sub_add_sub_cancel]
      refine Or.inr (Or.inr (Or.inr ?_))
      rw [← hsum]
      exact sign?_add (ha.sub hb) (hb.sub hc) h h'

end Expr

/-! ### Infinite limits -/

/-- The infinity at the end of a direction. -/
def Limit.infinite : Direction → Limit
  | .up => posInf
  | .down => negInf

theorem Limit.infinite_injective {side other : Direction} (h : infinite side = infinite other) :
    side = other := by
  cases side <;> cases other <;> simp_all [infinite]

theorem Limit.infinite_ne_finite (side : Direction) (a : Expr) : infinite side ≠ .finite a := by
  cases side <;> simp [infinite]

/-- Limits at the same place are both finite, or the same infinity. -/
theorem Limit.cases_of_rank? {l m : Limit} {i : Int} (hl : l.rank? = some i)
    (hm : m.rank? = some i) :
    (∃ a b, l = .finite a ∧ m = .finite b) ∨ ∃ side, l = infinite side ∧ m = infinite side := by
  have hsame : l.rank? = m.rank? := hl.trans hm.symm
  cases l <;> cases m <;> simp [rank?] at hl hsame ⊢
  · exact ⟨.up, rfl⟩
  · exact ⟨.down, rfl⟩

/-- Of limits that are apart, one is infinite: the first one on the outer side, or the second one on the
inner side. -/
theorem Limit.cases_of_apart {direction : Direction} {l m : Limit} {i j : Int}
    (hl : l.rank? = some i) (hm : m.rank? = some j)
    (h : direction.factor * j < direction.factor * i) :
    (l = infinite direction ∧ ((∃ b, m = .finite b) ∨ m = infinite direction.opposite)) ∨
      ((∃ a, l = .finite a) ∧ m = infinite direction.opposite) := by
  cases direction <;> cases l <;> cases m <;>
    simp_all [rank?, infinite, Direction.opposite, Direction.factor] <;> omega

theorem Growth.LE.antisymm {a b : Growth} (hab : a.LE b) (hba : b.LE a) : a = b := by
  obtain ⟨m, k⟩ := a
  obtain ⟨m', k'⟩ := b
  rcases hab with h | ⟨h, hk⟩ <;> rcases hba with h' | ⟨h', hk'⟩ <;> simp only at *
  · exact absurd h h'.not_gt
  · exact absurd h'.symm h.ne
  · exact absurd h.symm h'.ne
  · rw [h, le_antisymm hk hk']

theorem Growth.cmp_isGE {a b : Growth} : (a.cmp b).isGE = true ↔ b.LE a := by
  rw [cmp, LE, Number.cmp_eq_compare]
  rcases lt_trichotomy a.magnitude b.magnitude with h | h | h
  · simp [compare_lt_iff_lt.mpr h, h.not_gt, h.ne']
  · simp [h, Nat.isGE_compare]
  · simp [compare_gt_iff_gt.mpr h, h]

namespace Expr

variable {direction side : Direction} {a e f g h : Expr} {k l : Growth}

/-- The dominant part does not oscillate, it has the given growth, and its coefficient is known to be on
the given side of zero. -/
def Leads (side : Direction) (k : Growth) (e : Expr) : Prop :=
  ∃ d, e.dominant? = some d ∧ d.oscillates = false ∧ d.growth = k ∧
    d.coefficient.sign? = some side.sign

/-- The expression tends to the infinity of a side, with the given growth of its dominant part. -/
structure Diverges (side : Direction) (k : Growth) (e : Expr) : Prop where
  limit : e.limit = .infinite side
  leads : e.Leads side k

theorem dependsOnCounter_of_limit (h : e.limit = .infinite side) : e.dependsOnCounter = true := by
  cases hdep : e.dependsOnCounter with
  | true => rfl
  | false =>
    rw [limit_of_not_dependsOnCounter hdep] at h
    cases side <;> simp [Limit.infinite] at h

/-- Where the sign of an infinite limit is left open, the dominant part is unbounded and its coefficient
has no known sign. -/
theorem dominant_of_limit_signedInf {c : Expr} (h : e.limit = .signedInf c) :
    ∃ d, e.dominant? = some d ∧ d.oscillates = false ∧ d.coefficient = c ∧
      1 ≤ d.growth.magnitude ∧ d.growth ≠ ⟨1, 0⟩ ∧ ∀ side : Direction, c.sign? ≠ some side.sign := by
  cases hdep : e.dependsOnCounter with
  | false => simp [limit_of_not_dependsOnCounter hdep] at h
  | true =>
    obtain ⟨d, hd, hlimit⟩ := limit_of_dependsOnCounter hdep
    rw [hlimit, dominantLimit] at h
    split at h
    · simp at h
    · next hone =>
      split at h
      · simp at h
      · next hosc =>
        split at h
        · simp at h
        · next hunit =>
          split at h
          · simp at h
          · simp at h
          · next hpositive hnegative =>
            obtain rfl := Limit.signedInf.inj h
            refine ⟨d, hd, by simpa using hosc, rfl, not_lt.mp hone, fun hgrowth => hunit ?_,
              fun side hside => ?_⟩
            · rw [hgrowth]
              exact ⟨rfl, rfl⟩
            · cases side with
              | up => exact hpositive hside
              | down => exact hnegative hside

theorem exists_diverges (h : e.limit = .infinite side) : ∃ k, e.Diverges side k := by
  cases side with
  | up =>
    have hlimit : e.limit = .posInf := h
    cases hlimit ▸ limitCase e with
    | rising hd hosc _ hsign => exact ⟨_, h, _, hd, hosc, rfl, hsign⟩
  | down =>
    have hlimit : e.limit = .negInf := h
    cases hlimit ▸ limitCase e with
    | falling hd hosc _ hsign => exact ⟨_, h, _, hd, hosc, rfl, hsign⟩

theorem Leads.eventualSign? (he : e.Leads side k) (hdep : e.dependsOnCounter = true) :
    e.eventualSign? = some side.sign := by
  obtain ⟨d, hd, hosc, -, hsign⟩ := he
  rw [Expr.eventualSign?, if_pos hdep, hd]
  simp only [hosc, hsign, Bool.false_eq_true, if_false]

theorem Leads.growth_eq {other : Direction} (he : e.Leads side k) (he' : e.Leads other l) : k = l := by
  obtain ⟨d, hd, -, rfl, -⟩ := he
  obtain ⟨d', hd', -, rfl, -⟩ := he'
  rw [Option.some.inj (hd.symm.trans hd')]

theorem Leads.magnitude_pos (he : e.Canonical) (h : e.Leads side k) : 0 < k.magnitude := by
  obtain ⟨d, hd, -, rfl, -⟩ := h
  exact Expr.magnitude_pos he hd

theorem Diverges.eventualSign? (he : e.Diverges side k) : e.eventualSign? = some side.sign :=
  he.leads.eventualSign? (dependsOnCounter_of_limit he.limit)

/-- On the outer side the faster growth dominates, and on the inner side the slower one. -/
theorem dominatesByGrowth_iff (hf : f.Diverges side k) (hg : g.Diverges side l) :
    dominatesByGrowth f g direction = true ↔ if side = direction then l.LE k else k.LE l := by
  have hcmp : f.cmpGrowth? g = some (k.cmp l) := by
    obtain ⟨d, hd, -, rfl, -⟩ := hf.leads
    obtain ⟨d', hd', -, rfl, -⟩ := hg.leads
    rw [cmpGrowth?, hd, hd']
  rw [dominatesByGrowth, hf.eventualSign?, hg.eventualSign?, hcmp]
  cases direction <;> cases side <;>
    simp [Direction.sign, Direction.orient, Sign.flip, Growth.cmp_isGE, Growth.cmp_isLE]

/-- The cases in which one expression dominates another. -/
inductive Prevails (direction : Direction) (f g : Expr) : Prop
  | same (h : f = g)
  | finite {a b : Expr} (hf : f.limit = .finite a) (hg : g.limit = .finite b)
      (h : dominatesFinite a b direction = true)
  | apart {i j : Int} (hf : f.limit.rank? = some i) (hg : g.limit.rank? = some j)
      (h : direction.factor * j < direction.factor * i)
  | infinite {side : Direction} {k l : Growth} (hf : f.Diverges side k) (hg : g.Diverges side l)
      (h : if side = direction then l.LE k else k.LE l)

theorem dominates_of_finite {a b : Expr} (hfg : f ≠ g) (hf : f.limit = .finite a)
    (hg : g.limit = .finite b) : f.dominates g direction = dominatesFinite a b direction := by
  rw [dominates, if_neg hfg, hf, hg]

theorem dominates_of_infinite (hfg : f ≠ g) (hf : f.limit = .infinite side)
    (hg : g.limit = .infinite side) :
    f.dominates g direction = dominatesByGrowth f g direction := by
  rw [dominates, if_neg hfg, hf, hg]
  cases side <;> simp [Limit.infinite, Limit.rank?]

theorem dominates_of_rank {i j : Int} (hf : f.limit.rank? = some i) (hg : g.limit.rank? = some j)
    (hne : i ≠ j) :
    f.dominates g direction = true ↔ direction.factor * j < direction.factor * i := by
  have hfg : f ≠ g := by
    rintro rfl
    exact hne (Option.some.inj (hf.symm.trans hg))
  rw [dominates, if_neg hfg]
  split
  · next a b ha hb =>
    rw [ha] at hf
    rw [hb] at hg
    exact absurd ((Option.some.inj hf).symm.trans (Option.some.inj hg)) hne
  · rw [hf, hg]
    simp only [if_neg hne]
    cases direction <;> simp [Direction.factor]

/-- Without a place on the extended line, nothing but the same expression is dominated. -/
theorem rank?_of_dominates (hfg : f ≠ g) (h : f.dominates g direction = true) :
    ∃ i j, f.limit.rank? = some i ∧ g.limit.rank? = some j := by
  rw [dominates, if_neg hfg] at h
  split at h
  · next a b ha hb =>
    rw [ha, hb]
    exact ⟨0, 0, rfl, rfl⟩
  · split at h
    · next i j hi hj => exact ⟨i, j, hi, hj⟩
    · simp at h

theorem dominates_iff : f.dominates g direction = true ↔ Prevails direction f g := by
  by_cases hfg : f = g
  · exact ⟨fun _ => .same hfg, fun _ => by rw [dominates, if_pos hfg]⟩
  constructor
  · intro h
    obtain ⟨i, j, hi, hj⟩ := rank?_of_dominates hfg h
    by_cases hij : i = j
    · subst hij
      rcases Limit.cases_of_rank? hi hj with ⟨a, b, ha, hb⟩ | ⟨side, hf, hg⟩
      · rw [dominates_of_finite hfg ha hb] at h
        exact .finite ha hb h
      · obtain ⟨k, hk⟩ := exists_diverges hf
        obtain ⟨l, hl⟩ := exists_diverges hg
        rw [dominates_of_infinite hfg hf hg, dominatesByGrowth_iff hk hl] at h
        exact .infinite hk hl h
    · exact .apart hi hj ((dominates_of_rank hi hj hij).mp h)
  · rintro (h | ⟨ha, hb, h⟩ | ⟨hi, hj, h⟩ | ⟨hk, hl, h⟩)
    · exact absurd h hfg
    · rw [dominates_of_finite hfg ha hb, h]
    · refine (dominates_of_rank hi hj ?_).mpr h
      rintro rfl
      exact lt_irrefl _ h
    · rw [dominates_of_infinite hfg hk.limit hl.limit, dominatesByGrowth_iff hk hl]
      exact h

/-! ### The preorder -/

theorem dominates_refl (f : Expr) (direction : Direction) : f.dominates f direction = true :=
  dominates_iff.mpr (.same rfl)

/-- What dominates in one direction is dominated in the other one. -/
theorem dominates_opposite (hf : f.Canonical) (hg : g.Canonical)
    (h : f.dominates g direction = true) : g.dominates f direction.opposite = true := by
  rw [dominates_iff] at h ⊢
  cases h with
  | same heq => exact .same heq.symm
  | finite ha hb hab =>
    exact .finite hb ha (dominatesFinite_opposite (ordered_of_limit_finite hf ha)
      (ordered_of_limit_finite hg hb) hab)
  | apart hi hj hlt =>
    refine .apart hj hi ?_
    rw [direction.factor_opposite, neg_mul, neg_mul, neg_lt_neg_iff]
    exact hlt
  | @infinite side k l hk hl hkl =>
    refine .infinite hl hk ?_
    rcases direction.eq_or_eq_opposite side with rfl | rfl
    · rw [if_pos rfl] at hkl
      rw [if_neg (Ne.symm (Direction.opposite_ne _))]
      exact hkl
    · rw [if_neg direction.opposite_ne] at hkl
      rw [if_pos rfl]
      exact hkl

theorem rank?_of_diverges (hf : f.Diverges side k) (hg : g.Diverges side l) :
    f.limit.rank? = g.limit.rank? := by
  rw [hf.limit, hg.limit]

/-- In each direction, what dominates a dominating expression dominates. -/
theorem dominates_trans (hf : f.Canonical) (hg : g.Canonical) (hh : h.Canonical)
    (hfg : f.dominates g direction = true) (hgh : g.dominates h direction = true) :
    f.dominates h direction = true := by
  rw [dominates_iff] at hfg hgh ⊢
  cases hfg with
  | same heq => exact heq ▸ hgh
  | finite ha hb hab =>
    cases hgh with
    | same heq => exact heq ▸ .finite ha hb hab
    | finite hb' hc hbc =>
      obtain rfl := Limit.finite.inj (hb.symm.trans hb')
      exact .finite ha hc (dominatesFinite_trans (ordered_of_limit_finite hf ha)
        (ordered_of_limit_finite hg hb) (ordered_of_limit_finite hh hc) hab hbc)
    | apart hi hj hlt => exact .apart (by rw [ha, ← hi, hb]; rfl) hj hlt
    | infinite hk _ _ => exact absurd (hk.limit.symm.trans hb) (Limit.infinite_ne_finite _ _)
  | apart hi hj hlt =>
    cases hgh with
    | same heq => exact heq ▸ .apart hi hj hlt
    | finite hb hc _ => exact .apart hi (by rw [hc, ← hj, hb]; rfl) hlt
    | apart hj' hm hlt' =>
      obtain rfl := Option.some.inj (hj.symm.trans hj')
      exact .apart hi hm (hlt'.trans hlt)
    | infinite hk hl _ => exact .apart hi ((rank?_of_diverges hk hl).symm.trans hj) hlt
  | infinite hk hl hkl =>
    cases hgh with
    | same heq => exact heq ▸ .infinite hk hl hkl
    | finite hb _ _ => exact absurd (hl.limit.symm.trans hb) (Limit.infinite_ne_finite _ _)
    | apart hj hm hlt => exact .apart ((rank?_of_diverges hk hl).trans hj) hm hlt
    | infinite hl' hm hlm =>
      obtain rfl := Limit.infinite_injective (hl.limit.symm.trans hl'.limit)
      obtain rfl := hl.leads.growth_eq hl'.leads
      refine .infinite hk hm ?_
      split at hkl
      · next hside =>
        rw [if_pos hside] at hlm ⊢
        exact hlm.trans hkl
      · next hside =>
        rw [if_neg hside] at hlm ⊢
        exact hkl.trans hlm

end Expr

end ProbLoop
