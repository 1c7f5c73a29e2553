import Mathlib.Algebra.BigOperators.Group.Finset.Piecewise
import ProbLoop.Proofs.ClosedForm
import ProbLoop.Proofs.Expr.Exponential
import ProbLoop.Proofs.Program.Determined

/-!
# Closed forms of products

A determined variable is a function of the number of iterations, so the mean of a product is the product
of the means if one factor is over determined variables. Closed forms share this: both sides satisfy the
recurrence of the product, and they start alike unless that recurrence forgets the start.
-/

set_option autoImplicit false

namespace ProbLoop

namespace LexLt

theorem zipWith_add {as bs cs : List Nat} (h : LexLt as bs) (hl : as.length = cs.length) :
    LexLt (List.zipWith (· + ·) as cs) (List.zipWith (· + ·) bs cs) := by
  induction as generalizing bs cs with
  | nil => exact absurd h (by simp [LexLt])
  | cons a as ih =>
    cases bs with
    | nil => exact absurd h (by simp [LexLt])
    | cons b bs =>
      cases cs with
      | nil => simp at hl
      | cons c cs =>
        simp only [List.length_cons, Nat.add_right_cancel_iff] at hl
        rcases h with ⟨hab, hlen⟩ | ⟨rfl, h⟩
        · exact Or.inl ⟨by simpa using hab, by simp [hl, ← hlen]⟩
        · exact Or.inr ⟨rfl, ih h hl⟩

end LexLt

namespace Program

variable {p : Program} {a b d x : Monomial}

section Rank

theorem exponents_rank (hd : d.Over p.vars) :
    (p.rank d).exponents = p.vars.reverse.map d.powerOf ++ [0] := by
  rw [rank, hd.isPlain isVar_of_mem_vars]
  rfl

/-- In the descent a product stands where the exponents of its factors add up. -/
theorem exponents_rank_mul (hd : d.Over p.vars) (hx : x.Over p.vars) :
    (p.rank (d * x)).exponents =
      List.zipWith (· + ·) (p.rank d).exponents (p.rank x).exponents := by
  rw [exponents_rank (hd.mul hx), exponents_rank hd, exponents_rank hx,
    List.zipWith_append (by simp), List.zipWith_map, List.zipWith_self]
  congr 1
  exact List.map_congr_left fun s _ => Monomial.powerOf_mul hd.toCanonical hx.toCanonical s

theorem below_mul_right (ha : a.Over p.vars) (hd : d.Over p.vars) (hx : x.Over p.vars)
    (h : (p.rank a).Below (p.rank d)) : (p.rank (a * x)).Below (p.rank (d * x)) := by
  rw [Rank.Below, exponents_rank_mul ha hx, exponents_rank_mul hd hx]
  exact LexLt.zipWith_add h (by rw [exponents_rank ha, exponents_rank hx]; simp)

theorem below_mul_left (hd : d.Over p.vars) (hb : b.Over p.vars) (hx : x.Over p.vars)
    (h : (p.rank b).Below (p.rank x)) : (p.rank (d * b)).Below (p.rank (d * x)) := by
  have hcomm : ∀ {j : Monomial}, j.Over p.vars →
      (p.rank (d * j)).exponents = (p.rank (j * d)).exponents := by
    intro j hj
    rw [exponents_rank_mul hd hj, exponents_rank_mul hj hd]
    exact List.zipWith_comm_of_comm Nat.add_comm
  rw [Rank.Below, hcomm hb, hcomm hx]
  exact below_mul_right hb hx hd h

/-- A product of monomials that come no later than two others, one of them before it, comes before
their product. -/
theorem below_mul (ha : a.Over p.vars) (hb : b.Over p.vars) (hd : d.Over p.vars)
    (hx : x.Over p.vars) (had : a = d ∨ (p.rank a).Below (p.rank d))
    (hbx : b = x ∨ (p.rank b).Below (p.rank x)) (hne : ¬(a = d ∧ b = x)) :
    (p.rank (a * b)).Below (p.rank (d * x)) := by
  rcases had with rfl | had
  · rcases hbx with rfl | hbx
    · exact absurd ⟨rfl, rfl⟩ hne
    · exact below_mul_left hd hb hx hbx
  · have hleft := below_mul_right ha hd hb had
    rcases hbx with rfl | hbx
    · exact hleft
    · exact Rank.below_trans hleft (below_mul_left hd hb hx hbx)

end Rank

section Initial

/-- A product over the powers of a monomial is one over all symbols. -/
theorem prod_powers_eq_prod_vars {vars : List Symbol} {m : Monomial} (hm : m.Over vars)
    (f : Symbol → Nat → Rat) (h0 : ∀ s ∈ vars, f s 0 = 1) :
    (m.powers.map fun q => f q.1 q.2).prod = ∏ s ∈ vars.toFinset, f s (m.powerOf s) := by
  obtain ⟨powers, base⟩ := m
  have hsorted := hm.sorted
  have hmem := hm.mem_vars
  clear hm
  simp only [Monomial.powerOf] at hsorted hmem ⊢
  induction powers with
  | nil => exact (Finset.prod_eq_one fun s hs => h0 s (List.mem_toFinset.mp hs)).symm
  | cons q l ih =>
    obtain ⟨t, k⟩ := q
    obtain ⟨ht, hl⟩ := List.forall_mem_cons.mp hmem
    have ht' : t ∈ vars.toFinset := List.mem_toFinset.mpr ht
    have hnone : Assoc.find? t l = none := Assoc.find?_eq_none hsorted.ne_of_mem
    have hrest : ∏ s ∈ vars.toFinset.erase t, f s ((Assoc.find? s ((t, k) :: l)).getD 0) =
        ∏ s ∈ vars.toFinset.erase t, f s ((Assoc.find? s l).getD 0) := by
      refine Finset.prod_congr rfl fun s hs => ?_
      rw [Assoc.find?, if_neg (Finset.ne_of_mem_erase hs).symm]
    rw [List.map_cons, List.prod_cons, ih (List.pairwise_cons.mp hsorted).2 hl,
      ← Finset.mul_prod_erase _ _ ht', ← Finset.mul_prod_erase _ _ ht', hrest, hnone,
      Option.getD_none, h0 t ht, one_mul, Assoc.find?, if_pos rfl, Option.getD_some]

variable (n : Nat) (v : Valuation)

/-- The mean of a power of a variable before the first iteration. -/
def startPower (p : Program) (s : Symbol) (k : Nat) : Expr :=
  match p.initial? s with
  | some u => u.moment k
  | none => (Expr.ofSymbol s).pow k

theorem initialMoment_eq (m : Monomial) :
    p.initialMoment m = m.powers.foldl (fun acc q => acc * p.startPower q.1 q.2) .one := by
  rw [initialMoment]
  apply List.foldl_ext
  intro acc q _
  rw [startPower]
  cases p.initial? q.1 <;> rfl

theorem value_initialMoment (m : Monomial) :
    (p.initialMoment m).value n v = (m.powers.map fun q => (p.startPower q.1 q.2).value n v).prod := by
  have hfold : ∀ (l : List (Symbol × Nat)) (acc : Expr),
      (l.foldl (fun acc q => acc * p.startPower q.1 q.2) acc).value n v =
        acc.value n v * (l.map fun q => (p.startPower q.1 q.2).value n v).prod := by
    intro l
    induction l with
    | nil => exact fun acc => (mul_one _).symm
    | cons q l ih =>
      intro acc
      rw [List.foldl_cons, ih, List.map_cons, List.prod_cons, ← mul_assoc, Expr.value_mul]
  rw [initialMoment_eq, hfold, Expr.value_one, one_mul]

theorem WellFormed.value_startPower_zero (hp : p.WellFormed) {s : Symbol} (hs : s ∈ p.vars) :
    (p.startPower s 0).value n v = 1 := by
  obtain ⟨e, he, rfl⟩ := List.mem_map.mp hs
  have hstarts := hp.starts e he
  rw [startPower, hp.initial?_eq he]
  cases hu : e.initial with
  | random r => simp [Update.moment, Distribution.moment]
  | branches bs =>
    rw [hu] at hstarts
    change ((Update.branches bs).moment 0).value n v = 1
    rw [Update.moment, Expr.value_sum, List.map_map, ← hstarts.1.2]
    exact congrArg List.sum (List.map_congr_left fun b _ => by simp)

/-- A determined variable starts in one way, so its powers are those of its start. -/
theorem WellFormed.value_startPower (hp : p.WellFormed) {s : Symbol} (hs : s ∈ p.determined)
    (k : Nat) : (p.startPower s k).value n v = (p.startPower s 1).value n v ^ k := by
  obtain ⟨e, he, rfl⟩ := List.mem_map.mp (mem_vars_of_mem_determined hs)
  have hstarts := hp.starts e he
  have hfixed := (hp.exists_determined he hs).1
  rw [startPower, startPower, hp.initial?_eq he]
  cases hu : e.initial with
  | random r =>
    rw [hu] at hfixed
    cases r with
    | unknown x =>
      by_cases hk : k = 0
      · simp [Update.moment, Distribution.moment, hk]
      · simp [Update.moment, Distribution.moment, hk]
    | _ => simp [Update.isFixed] at hfixed
  | branches bs =>
    rw [hu] at hstarts hfixed
    obtain ⟨b, rfl⟩ := List.length_eq_one_iff.mp (beq_iff_eq.mp hfixed)
    have hb : b.2 = 1 := by simpa using hstarts.1.2
    simp [Update.moment, Expr.value_sum, hb]

/-- The initial moment of a product is the product of the initial moments. -/
theorem WellFormed.value_initialMoment_mul (hp : p.WellFormed) (hd : d.Over p.determined)
    (hx : x.Over p.vars) : (p.initialMoment (d * x)).value n v =
      (p.initialMoment d).value n v * (p.initialMoment x).value n v := by
  have hd' : d.Over p.vars := hd.mono fun s hs => mem_vars_of_mem_determined hs
  have h0 : ∀ s ∈ p.vars, (p.startPower s 0).value n v = 1 :=
    fun s hs => hp.value_startPower_zero n v hs
  rw [value_initialMoment, value_initialMoment, value_initialMoment,
    prod_powers_eq_prod_vars (hd'.mul hx) (fun s k => (p.startPower s k).value n v) h0,
    prod_powers_eq_prod_vars hd' (fun s k => (p.startPower s k).value n v) h0,
    prod_powers_eq_prod_vars hx (fun s k => (p.startPower s k).value n v) h0, ← Finset.prod_mul_distrib]
  refine Finset.prod_congr rfl fun s hs => ?_
  rw [Monomial.powerOf_mul hd.toCanonical hx.toCanonical]
  by_cases hdet : s ∈ p.determined
  · rw [hp.value_startPower n v hdet (_ + _), pow_add, ← hp.value_startPower n v hdet,
      ← hp.value_startPower n v hdet]
  · rw [hd.powerOf_eq_zero hdet, zero_add, h0 s (List.mem_toFinset.mp hs), one_mul]

end Initial

section Mean

theorem term_mul (d x : Monomial) : Expr.term (d * x) 1 = Expr.term d 1 * Expr.term x 1 := by
  apply (Expr.ordered_term _ 1).ext_lift (Expr.ordered_mul _ _)
  intro φ
  rw [Expr.lift_mul, Expr.lift_term, Expr.lift_term, Expr.lift_term, one_mul, one_mul]

/-- The mean of a product, term by term. -/
theorem WellFormed.lift_expectedNext_mul (hp : p.WellFormed) (hd : d.Over p.determined)
    (hx : x.Over p.vars) (φ : Monomial → Rat) :
    (p.expectedNext (.term (d * x) 1)).lift φ =
      (p.expectedNext (.term d 1)).lift fun a => (p.expectedNext (.term x 1)).lift fun b => φ (a * b) := by
  rw [term_mul, (hp.expectedNext_mul (Expr.over_term hd 1) (Expr.over_term hx 1)).2, Expr.lift_mul]

/-- The terms of the mean of a product are products, and all but one come before the product. -/
theorem WellFormed.below_expectedNext_mul (hp : p.WellFormed) (hd : d.Over p.determined)
    (hx : x.Over p.vars) {t u : Monomial × Rat} (ht : t ∈ (p.expectedNext (.term d 1)).terms)
    (hu : u ∈ (p.expectedNext (.term x 1)).terms) :
    t.1.Over p.determined ∧ u.1.Over p.vars ∧
      (¬(t.1 = d ∧ u.1 = x) → (p.rank (t.1 * u.1)).Below (p.rank (d * x))) := by
  have hmono : ∀ {m : Monomial}, m.Over p.determined → m.Over p.vars :=
    fun hm => hm.mono fun s hs => mem_vars_of_mem_determined hs
  have ht' := (hp.expectedNext_mul (Expr.over_term hd 1) (Expr.over_term hx 1)).1.monomials t ht
  have hu' := (hp.over_expectedNext (Expr.over_term hx 1)).monomials u hu
  refine ⟨ht', hu', fun hne => ?_⟩
  exact below_mul (hmono ht') hu' (hmono hd) hx (hp.below_expectedNext (hmono hd) t ht)
    (hp.below_expectedNext hx u hu) hne

theorem WellFormed.coefficient_expectedNext_mul (hp : p.WellFormed) (hd : d.Over p.determined)
    (hx : x.Over p.vars) : (p.expectedNext (.term (d * x) 1)).coefficient (d * x) =
      (p.expectedNext (.term d 1)).coefficient d * (p.expectedNext (.term x 1)).coefficient x := by
  have hd' : d.Over p.vars := hd.mono fun s hs => mem_vars_of_mem_determined hs
  have hordered : ∀ {m : Monomial}, m.Over p.vars → (p.expectedNext (.term m 1)).Ordered :=
    fun hm => (hp.over_expectedNext (Expr.over_term hm 1)).toOrdered
  rw [Expr.coefficient_eq_lift (hordered (hd'.mul hx)), Expr.coefficient_eq_lift (hordered hd'),
    Expr.coefficient_eq_lift (hordered hx), hp.lift_expectedNext_mul hd hx, ← Expr.lift_mul_const]
  apply Expr.lift_congr
  intro t ht
  rw [← Expr.lift_const_mul]
  apply Expr.lift_congr
  intro u hu
  by_cases hboth : t.1 = d ∧ u.1 = x
  · rw [hboth.1, hboth.2]
    simp
  · have hbelow := (hp.below_expectedNext_mul hd hx ht hu).2.2 hboth
    have hne : t.1 * u.1 ≠ d * x := fun h => Rank.below_irrefl _ (h ▸ hbelow)
    rw [if_neg hne]
    split_ifs with h h' <;> simp_all

end Mean

section Closed

variable (n : Nat) (v : Valuation)

/-- How far the closed form of a product is from the product of the closed forms. -/
def productGap (p : Program) (d x : Monomial) (n : Nat) (v : Valuation) : Rat :=
  (p.closed (d * x)).value n v - (p.closed d).value n v * (p.closed x).value n v

/-- If the products below have no gap, one more iteration multiplies the gap by a number. -/
theorem WellFormed.productGap_succ (hp : p.WellFormed) (hd : d.Over p.determined)
    (hx : x.Over p.vars) (h : ∀ a b : Monomial, a.Over p.determined → b.Over p.vars →
      (p.rank (a * b)).Below (p.rank (d * x)) → p.productGap a b n v = 0) :
    p.productGap d x (n + 1) v =
      (p.expectedNext (.term (d * x) 1)).coefficient (d * x) * p.productGap d x n v := by
  have hd' : d.Over p.vars := hd.mono fun s hs => mem_vars_of_mem_determined hs
  have hordered : ∀ {m : Monomial}, m.Over p.vars → (p.expectedNext (.term m 1)).Ordered :=
    fun hm => (hp.over_expectedNext (Expr.over_term hm 1)).toOrdered
  set meanD := p.expectedNext (.term d 1)
  set meanX := p.expectedNext (.term x 1)
  -- The gap shows in one pair of terms only, the two monomials themselves.
  have hpair : ∀ t ∈ meanD.terms, ∀ u ∈ meanX.terms, (p.closed (t.1 * u.1)).value n v =
      (p.closed t.1).value n v * (p.closed u.1).value n v +
        (if t.1 = d then 1 else 0) * ((if u.1 = x then 1 else 0) * p.productGap d x n v) := by
    intro t ht u hu
    obtain ⟨hover, hover', hbelow⟩ := hp.below_expectedNext_mul hd hx ht hu
    by_cases hboth : t.1 = d ∧ u.1 = x
    · rw [hboth.1, hboth.2, if_pos rfl, if_pos rfl, productGap]
      ring
    · have hzero := h t.1 u.1 hover hover' (hbelow hboth)
      rw [productGap, sub_eq_zero] at hzero
      rw [hzero]
      split_ifs with htd hux
      · exact absurd ⟨htd, hux⟩ hboth
      · ring
      · ring
      · ring
  have hinner : ∀ t ∈ meanD.terms, (meanX.lift fun b => (p.closed (t.1 * b)).value n v) =
      (p.closed t.1).value n v * (meanX.lift fun b => (p.closed b).value n v) +
        (if t.1 = d then 1 else 0) * (meanX.coefficient x * p.productGap d x n v) := by
    intro t ht
    rw [Expr.lift_congr (ψ := fun b => (p.closed t.1).value n v * (p.closed b).value n v +
        (if t.1 = d then 1 else 0) * ((if b = x then 1 else 0) * p.productGap d x n v))
        (hpair t ht), Expr.lift_fun_add, Expr.lift_const_mul, Expr.lift_const_mul,
      Expr.lift_mul_const, ← Expr.coefficient_eq_lift (hordered hx)]
  have hsum : (meanD.lift fun a => meanX.lift fun b => (p.closed (a * b)).value n v) =
      (meanD.lift fun a => (p.closed a).value n v) * (meanX.lift fun b => (p.closed b).value n v) +
        meanD.coefficient d * (meanX.coefficient x * p.productGap d x n v) := by
    rw [Expr.lift_congr (ψ := fun a => (p.closed a).value n v *
        (meanX.lift fun b => (p.closed b).value n v) +
        (if a = d then 1 else 0) * (meanX.coefficient x * p.productGap d x n v)) hinner,
      Expr.lift_fun_add, Expr.lift_mul_const, Expr.lift_mul_const,
      ← Expr.coefficient_eq_lift (hordered hd')]
  rw [productGap, hp.value_closed_succ n v (hd'.mul hx), hp.value_closed_succ n v hd',
    hp.value_closed_succ n v hx, hp.lift_expectedNext_mul hd hx, hsum,
    hp.coefficient_expectedNext_mul hd hx]
  ring

/-- The closed form of a product is the product of the closed forms if one factor is over determined
variables. -/
theorem WellFormed.closed_mul (hp : p.WellFormed) (hd : d.Over p.determined) (hx : x.Over p.vars) :
    p.closed (d * x) = p.closed d * p.closed x := by
  have hmono : ∀ {m : Monomial}, m.Over p.determined → m.Over p.vars :=
    fun hm => hm.mono fun s hs => mem_vars_of_mem_determined hs
  generalize hm : d * x = m
  induction m using (InvImage.wf p.rank Rank.below_wf).induction generalizing d x with
  | h m ih =>
    subst hm
    have hbelow : ∀ (n : Nat) (v : Valuation) (a b : Monomial), a.Over p.determined →
        b.Over p.vars → (p.rank (a * b)).Below (p.rank (d * x)) → p.productGap a b n v = 0 := by
      intro n v a b ha hb hrank
      rw [productGap, ih (a * b) hrank ha hb rfl, Expr.value_mul, sub_self]
    have hstep : ∀ (n : Nat) (v : Valuation), p.productGap d x (n + 1) v =
        (p.expectedNext (.term (d * x) 1)).coefficient (d * x) * p.productGap d x n v :=
      fun n v => hp.productGap_succ n v hd hx (hbelow n v)
    have hzero : ∀ (n : Nat), 1 ≤ n → ∀ v, p.productGap d x n v = 0 := by
      by_cases hf : p.Forgets (d * x)
      · intro n hn v
        obtain ⟨k, rfl⟩ := Nat.exists_eq_add_of_le' hn
        rw [hstep, hf, zero_mul]
      · -- Neither factor forgets its start, and the initial moments multiply.
        have hfactors := hf
        rw [Forgets, hp.coefficient_expectedNext_mul hd hx, mul_eq_zero, not_or] at hfactors
        have hstart : ∀ v, p.productGap d x 0 v = 0 := by
          intro v
          rw [productGap, hp.value_closed_zero v ((hmono hd).mul hx) hf,
            hp.value_closed_zero v (hmono hd) hfactors.1, hp.value_closed_zero v hx hfactors.2,
            hp.value_initialMoment_mul 0 v hd hx, sub_self]
        have hall : ∀ (n : Nat) (v : Valuation), p.productGap d x n v = 0 := by
          intro n v
          induction n with
          | zero => exact hstart v
          | succ n ih => rw [hstep, ih, mul_zero]
        exact fun n _ v => hall n v
    have hcanonical := hp.canonical_closed (hmono hd)
    apply (hp.canonical_closed ((hmono hd).mul hx)).ext_value
      (hcanonical.mul (hp.canonical_closed hx))
    intro n hn v _
    rw [Expr.value_mul]
    exact sub_eq_zero.mp (hzero n hn v)

theorem WellFormed.closed_one (hp : p.WellFormed) : p.closed .one = .one := by
  obtain ⟨-, hsolved, -⟩ := hp.keeps_closedForm .one Monomial.over_one
  rw [hsolved, solved, if_pos (by decide)]

/-- The closed form of a product of determined variables is made of those of the variables. -/
theorem WellFormed.value_closed_of_determined (hp : p.WellFormed) (hd : d.Over p.determined) :
    (p.closed d).value n v =
      Monomial.powerProduct (fun s => (p.closed (.ofSymbol s 1)).value n v) d.powers := by
  have hpower : ∀ s ∈ p.determined, ∀ k, (p.closed (.ofSymbol s k)).value n v =
      (p.closed (.ofSymbol s 1)).value n v ^ k := by
    intro s hs k
    induction k with
    | zero =>
      rw [pow_zero, ← Expr.value_one n v, ← hp.closed_one]
      rfl
    | succ k ih =>
      have hvar := Monomial.over_ofSymbol (mem_vars_of_mem_determined hs) 1
      rw [← Monomial.ofSymbol_mul s k 1, hp.closed_mul (Monomial.over_ofSymbol hs k) hvar,
        Expr.value_mul, ih, pow_succ]
  obtain ⟨powers, base⟩ := d
  obtain rfl : base = 1 := hd.base_eq_one
  induction powers with
  | nil => exact (congrArg (Expr.value n v) hp.closed_one).trans (Expr.value_one n v)
  | cons q l ih =>
    obtain ⟨s, k⟩ := q
    have hs : s ∈ p.determined := hd.mem_vars _ List.mem_cons_self
    obtain ⟨hsplit, hcanonical⟩ := Monomial.cons_eq_mul hd.toCanonical
    have hl : (⟨l, 1⟩ : Monomial).Over p.determined :=
      ⟨hcanonical, rfl, fun q hq => hd.mem_vars q (List.mem_cons_of_mem _ hq)⟩
    have hl' : (⟨l, 1⟩ : Monomial).Over p.vars := hl.mono fun s hs => mem_vars_of_mem_determined hs
    calc (p.closed ⟨(s, k) :: l, 1⟩).value n v
        = (p.closed (.ofSymbol s k)).value n v * (p.closed ⟨l, 1⟩).value n v := by
          rw [hsplit, hp.closed_mul (Monomial.over_ofSymbol hs k) hl', Expr.value_mul]
      _ = _ := by rw [hpower s hs k, ih hl, Monomial.powerProduct_cons]

end Closed

end Program

end ProbLoop
