import ProbLoop.Proofs.Envelope.Counter

/-!
# Negated expressions

Negating an expression negates the coefficient of every term and leaves the monomials as they are. Whatever
is read off the terms is mirrored: signs are flipped, groups and solutions are negated, and the polarity has
its two sides exchanged.
-/

set_option autoImplicit false

namespace ProbLoop

section Assoc

variable {κ ν μ : Type}

/-- Changing the value of a key commutes with a function on the values. -/
theorem Assoc.alter_map {cmp : κ → κ → Ordering} {key : κ} {f : ν → μ}
    {change : Option ν → Option ν} {change' : Option μ → Option μ}
    (h : ∀ o, change' (o.map f) = (change o).map f) (l : List (κ × ν)) :
    Assoc.alter cmp key change' (l.map fun p => (p.1, f p.2)) =
      (Assoc.alter cmp key change l).map fun p => (p.1, f p.2) := by
  have hcons : ∀ (k : κ) (o : Option ν) (rest : List (κ × ν)),
      Assoc.consSome k (o.map f) (rest.map fun p => (p.1, f p.2)) =
        (Assoc.consSome k o rest).map fun p => (p.1, f p.2) := by
    intro k o rest
    cases o <;> rfl
  have hnone : change' none = (change none).map f := h none
  induction l with
  | nil =>
    rw [List.map_nil, Assoc.alter, Assoc.alter, hnone]
    exact hcons key (change none) []
  | cons p l ih =>
    have hsome : change' (some (f p.2)) = (change (some p.2)).map f := h (some p.2)
    rw [List.map_cons, Assoc.alter, Assoc.alter]
    cases cmp key p.1 with
    | lt => exact (congrArg (Assoc.consSome key · _) hnone).trans (hcons key _ (p :: l))
    | eq => exact (congrArg (Assoc.consSome p.1 · _) hsome).trans (hcons p.1 _ l)
    | gt => exact congrArg ((p.1, f p.2) :: ·) ih

theorem Assoc.find?_map [DecidableEq κ] (f : ν → μ) (key : κ) (l : List (κ × ν)) :
    Assoc.find? key (l.map fun p => (p.1, f p.2)) = (Assoc.find? key l).map f := by
  induction l with
  | nil => rfl
  | cons p l ih =>
    rw [List.map_cons, Assoc.find?, Assoc.find?]
    split
    · rfl
    · exact ih

end Assoc

theorem Sign.of_neg (q : Rat) : Sign.of (-q) = (Sign.of q).flip := by
  rcases lt_trichotomy q 0 with h | rfl | h
  · rw [Sign.of_eq_negative.mpr h, Sign.of_eq_positive.mpr (neg_pos.mpr h)]
    rfl
  · decide
  · rw [Sign.of_eq_positive.mpr h, Sign.of_eq_negative.mpr (neg_neg_of_pos h)]
    rfl

theorem Sign.flip_injective : Function.Injective Sign.flip := by
  intro s t h
  cases s <;> cases t <;> simp_all [flip]

theorem Polarity.of_neg (q : Rat) : Polarity.of (-q) = (Polarity.of q).flip := by
  simp [Polarity.of, Polarity.flip]

/-- A polynomial and its negation have the same positive roots. -/
theorem Polynomial.rootCeiling_pos_neg {p q : ProbLoop.Polynomial} (hp : p.Normal) (hq : q.Normal)
    (h : q.toReal = -p.toReal) : 0 < q.rootCeiling ↔ 0 < p.rootCeiling := by
  have hzero : p.isZero = true ↔ q.isZero = true := by
    have hiff : ∀ {r : ProbLoop.Polynomial}, r.Normal → (r.isZero = true ↔ r.toReal = 0) := by
      intro r hr
      refine ⟨Polynomial.toReal_of_isZero, fun htoReal => ?_⟩
      rcases hr.proper_or_isZero with hproper | hzero
      · exact absurd htoReal hproper.toReal_ne_zero
      · exact hzero
    rw [hiff hp, hiff hq, h, neg_eq_zero]
  rcases hp.proper_or_isZero with hproper | hpzero
  · rcases hq.proper_or_isZero with hproper' | hqzero
    · rw [Nat.pos_iff_ne_zero, Nat.pos_iff_ne_zero, not_iff_not, hproper.rootCeiling_eq_zero_iff,
        hproper'.rootCeiling_eq_zero_iff, h]
      simp only [Polynomial.eval_neg, ne_eq, neg_eq_zero]
    · exact absurd (hzero.mpr hqzero) (by simp [hproper.nonzero])
  · rw [Polynomial.rootCeiling_of_isZero hpzero,
      Polynomial.rootCeiling_of_isZero (hzero.mp hpzero)]

namespace Expr

variable {a b e : Expr} {p : ProbLoop.Polynomial}

theorem terms_neg (e : Expr) : (-e).terms = e.terms.map fun t => (t.1, -t.2) := rfl

@[simp] theorem isZero_neg (e : Expr) : (-e).isZero = e.isZero := by
  simp [isZero, terms_neg]

theorem neg_inj_of_ordered (ha : a.Ordered) (hb : b.Ordered) : -a = -b ↔ a = b :=
  ⟨fun h => by rw [← neg_neg_of_ordered ha, h, neg_neg_of_ordered hb], congrArg _⟩

/-! ### Arithmetic -/

theorem neg_add (ha : a.Ordered) (hb : b.Ordered) : -(a + b) = -a + -b :=
  (ha.add hb).neg.ext_lift (ha.neg.add hb.neg) fun φ => by
    simp only [lift_neg, lift_add]
    ring

theorem neg_mul (a b : Expr) : -a * b = -(a * b) :=
  (ordered_mul _ _).ext_lift (ordered_mul _ _).neg fun φ => by
    rw [lift_neg, lift_mul, lift_mul, lift_neg]

/-! ### What is read off the terms -/

theorem constant?_neg (e : Expr) : (-e).constant? = e.constant?.map (-·) := by
  obtain ⟨ts⟩ := e
  rw [constant?, terms_neg, constant?]
  rcases ts with _ | ⟨⟨m, c⟩, _ | ⟨t, ts⟩⟩
  · exact congrArg some Rat.neg_zero.symm
  · simp only [List.map_cons, List.map_nil]
    split <;> rfl
  · rfl

theorem any_terms_neg (e : Expr) (P : Monomial → Bool) :
    ((-e).terms.any fun t => P t.1) = e.terms.any fun t => P t.1 := by
  rw [terms_neg, List.any_map]
  rfl

@[simp] theorem dependsOnCounter_neg (e : Expr) : (-e).dependsOnCounter = e.dependsOnCounter :=
  any_terms_neg e fun m => m.isExponential || m.mentions .counter

@[simp] theorem freeSymbols_neg (e : Expr) : (-e).freeSymbols = e.freeSymbols := by
  rw [freeSymbols, terms_neg, List.flatMap_map]
  rfl

theorem termSign?_neg (t : Monomial × Rat) :
    termSign? (t.1, -t.2) = (termSign? t).map Sign.flip := by
  unfold termSign?
  split
  · exact congrArg some (Sign.of_neg t.2)
  · rfl

/-- The sign of the negation, known or not. -/
theorem flip_sign? (e : Expr) : (-e).sign? = e.sign?.map Sign.flip := by
  have hall : ∀ (s : Sign) (ts : List (Monomial × Rat)),
      ((ts.map fun t => (t.1, -t.2)).all fun u => termSign? u == some s.flip) =
        ts.all fun u => termSign? u == some s := by
    intro s ts
    rw [List.all_map]
    refine congrArg (fun f => ts.all f) (funext fun u => ?_)
    rw [Function.comp_apply, termSign?_neg, Bool.eq_iff_iff, beq_iff_eq, beq_iff_eq,
      ← Option.map_some, (Option.map_injective Sign.flip_injective).eq_iff]
  rw [sign?, constant?_neg, sign?, dependsOnCounter_neg, terms_neg]
  cases e.constant? with
  | some q => exact congrArg some (Sign.of_neg q)
  | none =>
    rw [Option.map_none]
    dsimp only
    split
    · rfl
    · cases e.terms with
      | nil => rfl
      | cons t ts =>
        rw [List.map_cons]
        dsimp only
        rw [termSign?_neg]
        cases termSign? t with
        | none => rfl
        | some s =>
          rw [Option.map_some]
          dsimp only
          rw [hall]
          split <;> rfl

theorem linearIn?_neg (e : Expr) (s : Symbol) :
    (-e).linearIn? s = (e.linearIn? s).map fun p => (-p.1, -p.2) := by
  have hrest : (-e).terms.filter (fun t => t.1 != Monomial.ofSymbol s 1) =
      (-(⟨e.terms.filter fun t => t.1 != Monomial.ofSymbol s 1⟩ : Expr)).terms := by
    rw [terms_neg, List.filter_map]
    rfl
  unfold linearIn?
  dsimp only
  rw [hrest, any_terms_neg _ fun m => m.mentions s, terms_neg e,
    Assoc.find?_map (fun c : Rat => -c)]
  split
  · rfl
  · rw [Option.map_map, Option.map_map]
    rfl

theorem solvable?_neg (c : Expr) :
    (-c).solvable? = c.solvable?.map fun s => ⟨s.symbol, -s.factor, -s.rest⟩ := by
  unfold solvable?
  dsimp only
  rw [freeSymbols_neg]
  generalize List.filter _ _ ++ List.filter _ _ = symbols
  induction symbols with
  | nil => rfl
  | cons s symbols ih =>
    rw [List.findSome?_cons, List.findSome?_cons, linearIn?_neg, Option.map_map, ih]
    cases c.linearIn? s <;> rfl

/-! ### Groups -/

theorem insertTerm_neg (m : Monomial) (c : Rat) (ts : List (Monomial × Rat)) :
    insertTerm m (-c) (ts.map fun t => (t.1, -t.2)) =
      (insertTerm m c ts).map fun t => (t.1, -t.2) := by
  apply Assoc.alter_map (f := fun q : Rat => -q)
  intro o
  have hsum : (o.map fun q : Rat => -q).getD 0 + -c = -(o.getD 0 + c) := by
    cases o <;> simp [add_comm]
  rw [hsum]
  unfold nonzero?
  by_cases h : o.getD 0 + c = 0
  · rw [h, if_pos rfl, if_pos Rat.neg_zero, Option.map_none]
  · rw [if_neg h, if_neg (neg_ne_zero.mpr h), Option.map_some]

theorem ofTerms_neg (ts : List (Monomial × Rat)) :
    ofTerms (ts.map fun t => (t.1, -t.2)) = -ofTerms ts := by
  induction ts with
  | nil => rfl
  | cons t ts ih =>
    have hterms := congrArg Expr.terms ih
    rw [ofTerms, List.map_cons, List.foldr_cons]
    exact congrArg Expr.mk ((congrArg (insertTerm t.1 (-t.2) ·) hterms).trans
      (insertTerm_neg t.1 t.2 _))

theorem collect_neg (keep : Symbol → Bool) (e : Expr) :
    (-e).collect keep = (e.collect keep).map fun g => (g.1, -g.2) := by
  have hgroups : ∀ ts : List (Monomial × Rat),
      (ts.map fun t => (t.1, -t.2)).foldr (collectTerm keep) [] =
        (ts.foldr (collectTerm keep) []).map fun g => (g.1, -g.2) := by
    intro ts
    induction ts with
    | nil => rfl
    | cons t ts ih =>
      rw [List.map_cons, List.foldr_cons, List.foldr_cons, ih]
      apply Assoc.alter_map (f := fun c : Expr => -c)
      intro o
      refine congrArg some (congrArg Expr.mk ?_)
      cases o with
      | none => exact insertTerm_neg _ _ []
      | some c => exact insertTerm_neg _ _ c.terms
  rw [collect, terms_neg, hgroups, List.filter_map, collect]
  congr 2
  funext g
  rw [Function.comp_apply, isZero_neg]

/-- The terms without any of the symbols that are collected. -/
theorem constantGroup_neg (keep : Symbol → Bool) (e : Expr) :
    (Assoc.find? Monomial.one ((-e).collect keep)).getD zero =
      -(Assoc.find? Monomial.one (e.collect keep)).getD zero := by
  rw [collect_neg, Assoc.find?_map (fun c : Expr => -c)]
  cases Assoc.find? Monomial.one (e.collect keep) <;> rfl

/-! ### Polarities -/

theorem ofExpr?_neg (h : Polynomial.ofExpr? e = some p) :
    p.Normal ∧ ∃ q, Polynomial.ofExpr? (-e) = some q ∧ q.Normal ∧ q.toReal = -p.toReal := by
  unfold Polynomial.ofExpr? at h ⊢
  rw [terms_neg, List.all_map]
  split at h
  · next hall =>
    obtain rfl := Option.some.inj h
    refine ⟨Polynomial.normal_ofList _, _, if_pos hall, Polynomial.normal_ofList _,
      Polynomial.funext fun x => ?_⟩
    rw [Polynomial.toReal_ofList, Polynomial.toReal_ofList, Polynomial.eval_neg,
      Polynomial.eval_ofCoefficients_addAll, Polynomial.eval_ofCoefficients_addAll, List.map_map]
    have hzero : (ofCoefficients []).eval x = 0 := Polynomial.eval_zero
    rw [hzero, zero_add, zero_add, List.sum_neg, List.map_map]
    refine congrArg List.sum (List.map_congr_left fun t _ => ?_)
    simp
  · cases h

theorem ofExpr?_neg_eq_none (h : Polynomial.ofExpr? e = none) :
    Polynomial.ofExpr? (-e) = none := by
  unfold Polynomial.ofExpr? at h ⊢
  rw [terms_neg, List.all_map]
  split at h
  · cases h
  · next hall => exact if_neg hall

theorem isDefinite_neg (he : e.Ordered) (positive : Bool) :
    (-e).isDefinite positive = e.isDefinite !positive := by
  unfold isDefinite
  rw [terms_neg, List.all_map, List.all_eq, List.all_eq]
  refine decide_eq_decide.mpr (forall₂_congr fun t ht => ?_)
  have hne := he.coefficient_ne_zero t ht
  have hsides : decide (0 < -t.2) = !decide (0 < t.2) := by
    rw [← decide_not, decide_eq_decide, neg_pos, not_lt, le_iff_lt_or_eq, or_iff_left hne]
  rw [Function.comp_apply, hsides]
  cases decide (0 < t.2) <;> cases positive <;> rfl

theorem not_isDefinite_both (hc : e.constant? = none) (h : e.isDefinite true = true) :
    e.isDefinite false = false := by
  obtain ⟨ts⟩ := e
  cases ts with
  | nil => cases hc
  | cons t ts =>
    have hpositive := List.all_eq_true.mp h t List.mem_cons_self
    rw [isDefinite, List.all_cons]
    simp_all

/-- The polarity of the negation has its two sides exchanged. -/
theorem polarity_neg (he : e.Ordered) : (-e).polarity = e.polarity.flip := by
  unfold polarity
  rw [constant?_neg]
  cases hc : e.constant? with
  | some c => exact Polarity.of_neg c
  | none =>
    rw [Option.map_none]
    dsimp only
    cases hp : Polynomial.ofExpr? e with
    | some p =>
      obtain ⟨hnormal, q, hq, hnormal', htoReal⟩ := ofExpr?_neg hp
      have heval : q.eval 1 = -p.eval 1 := by
        have hreal := congrArg (fun f => f.eval ((1 : Rat) : ℝ)) htoReal
        simp only [Polynomial.eval_neg, Polynomial.eval_toReal] at hreal
        exact_mod_cast hreal
      rw [hq]
      dsimp only
      rw [heval, if_congr (Polynomial.rootCeiling_pos_neg hnormal hnormal' htoReal) rfl rfl, Polarity.of_neg]
      split <;> rfl
    | none =>
      rw [ofExpr?_neg_eq_none hp]
      dsimp only
      rw [isDefinite_neg he, isDefinite_neg he]
      rw [Bool.not_true, Bool.not_false]
      cases hpositive : e.isDefinite true with
      | true =>
        rw [not_isDefinite_both hc hpositive]
        rfl
      | false => cases e.isDefinite false <;> rfl

end Expr

end ProbLoop
