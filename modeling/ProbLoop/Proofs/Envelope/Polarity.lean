import ProbLoop.Proofs.Asymptotics.Dominance
import ProbLoop.Proofs.Envelope.Within
import ProbLoop.Proofs.Expr.Polarity
import ProbLoop.Proofs.Follows
import ProbLoop.Proofs.Program.Initial

/-!
# Polarities of envelopes

The polarity of an envelope holds from the first iteration on, not only in the long run. What an iteration
reads has this polarity before the first iteration as well, and this is what the induction over the
iterations starts from: the value of a monomial after an iteration is a multiple of its value before it and
an expression in what the iteration reads.
-/

set_option autoImplicit false

namespace ProbLoop

/-! ### Products of numbers and of powers -/

section Products

variable {x y low high l h : Rat}

/-- A product lies between the products of the ends. -/
theorem mul_mem_corners (hx : low ≤ x ∧ x ≤ high) (hy : l ≤ y ∧ y ≤ h) {a b : Rat}
    (ha : Number.minimum? [low * l, low * h, high * l, high * h] = some a)
    (hb : Number.maximum? [low * l, low * h, high * l, high * h] = some b) :
    a ≤ x * y ∧ x * y ≤ b := by
  have hside : ∀ {c d e z : Rat}, c ≤ z ∧ z ≤ d →
      (c * e ≤ z * e ∧ z * e ≤ d * e) ∨ (d * e ≤ z * e ∧ z * e ≤ c * e) := by
    intro c d e z hz
    rcases le_total 0 e with he | he
    · exact Or.inl ⟨mul_le_mul_of_nonneg_right hz.1 he, mul_le_mul_of_nonneg_right hz.2 he⟩
    · exact Or.inr ⟨mul_le_mul_of_nonpos_right hz.2 he, mul_le_mul_of_nonpos_right hz.1 he⟩
  have hends : ∀ c ∈ [low, high], a ≤ c * y ∧ c * y ≤ b := by
    intro c hc
    have hmem : c * l ∈ [low * l, low * h, high * l, high * h] ∧
        c * h ∈ [low * l, low * h, high * l, high * h] := by
      simp only [List.mem_cons, List.not_mem_nil, or_false] at hc
      rcases hc with rfl | rfl <;> simp
    have hal := Number.minimum?_le ha _ hmem.1
    have hah := Number.minimum?_le ha _ hmem.2
    have hbl := Number.le_maximum? hb _ hmem.1
    have hbh := Number.le_maximum? hb _ hmem.2
    rcases hside (e := c) hy with hc | hc
    · constructor <;> linarith [mul_comm c y, mul_comm c l, mul_comm c h]
    · constructor <;> linarith [mul_comm c y, mul_comm c l, mul_comm c h]
  have hlow := hends low (by simp)
  have hhigh := hends high (by simp)
  rcases hside (e := y) hx with h | h
  · exact ⟨hlow.1.trans h.1, h.2.trans hhigh.2⟩
  · exact ⟨hhigh.1.trans h.1, h.2.trans hlow.2⟩

variable (n : Nat) (v : Valuation)

/-- A monomial is the power of its root. -/
theorem Monomial.value_root {m : Monomial} (hbase : m.base = 1) {k : Nat}
    (h : ∀ q ∈ m.powers, k ∣ q.2) : m.value n v = (m.root k).value n v ^ k := by
  have hproduct : ∀ l : List (Symbol × Nat), (∀ q ∈ l, k ∣ q.2) →
      powerProduct (Symbol.value n v) l =
        powerProduct (Symbol.value n v) (l.map fun q => (q.1, q.2 / k)) ^ k := by
    intro l
    induction l with
    | nil => exact fun _ => (one_pow k).symm
    | cons q l ih =>
      intro hl
      obtain ⟨hq, hl⟩ := List.forall_mem_cons.mp hl
      rw [List.map_cons, powerProduct_cons, powerProduct_cons, mul_pow, ← ih hl, ← pow_mul,
        Nat.div_mul_cancel hq]
  rw [value_eq, value_eq, hproduct m.powers h, root, hbase, one_pow, mul_one, mul_one]

theorem Monomial.powerProduct_nonneg_of_even {g : Symbol → Rat} {l : List (Symbol × Nat)}
    (hl : ∀ q ∈ l, Even q.2) : 0 ≤ powerProduct g l := by
  induction l with
  | nil => exact zero_le_one
  | cons q l ih =>
    obtain ⟨hq, hl⟩ := List.forall_mem_cons.mp hl
    rw [powerProduct_cons]
    exact mul_nonneg (hq.pow_nonneg _) (ih hl)

theorem Monomial.value_nonneg_of_even {m : Monomial} (hbase : m.base = 1)
    (h : (m.powers.all fun q => q.2 % 2 == 0) = true) : 0 ≤ m.value n v := by
  rw [value_eq, hbase, one_pow, mul_one]
  refine powerProduct_nonneg_of_even fun q hq => Nat.even_iff.mpr ?_
  simpa using List.all_eq_true.mp h q hq

end Products

variable {p : Program}

/-- The coefficients of an expression have the signs that they have in the end. -/
def Expr.Settles (e : Expr) (n : Nat) (u : Valuation) : Prop :=
  ∀ g ∈ e.collect Symbol.isVar, ∀ s, g.2.eventualSign? = some s → Sign.of (g.2.value n u) = s

/-- Coefficients that are numbers do not change their signs. -/
theorem Expr.IsPlain.settles {e : Expr} (he : e.IsPlain) (n : Nat) (u : Valuation) :
    e.Settles n u := by
  intro g hg s hs
  rw [he.collect] at hg
  obtain ⟨t, -, rfl⟩ := List.mem_map.mp hg
  rw [Expr.eventualSign?_const] at hs
  rw [value_const]
  exact Option.some.inj hs

/-! ### States that an iteration may find -/

namespace Program

/-- Values that an iteration may draw. -/
def Draws (p : Program) (draws : Valuation) : Prop :=
  ∀ d ∈ p.declarations, ∀ r, d.update = .random r → r.range.Contains (draws d.symbol)

/-- What the iteration after the `n`-th may work on. -/
def Finds (p : Program) (n : Nat) (u : Valuation) : Prop :=
  ∃ v draws, p.Reaches n v ∧ v.Admissible ∧ p.Draws draws ∧ u = p.drawn draws v

/-- The polarity allows the monomial after every iteration, and before the first one if the iteration
reads what occurs in it. -/
def MonomialSigns (p : Program) (polarity : Polarity) (m : Monomial) : Prop :=
  ∀ n u, p.Finds n u → (1 ≤ n ∨ m.Over p.inputs) → polarity.Allows (m.value n u)

/-- The polarity allows the expression after every iteration, and before the first one if the iteration
reads what occurs in it, wherever the coefficients have the signs that they have in the end. -/
def Signs (p : Program) (polarity : Polarity) (e : Expr) : Prop :=
  ∀ n u, p.Finds n u → (1 ≤ n ∨ ∀ g ∈ e.collect Symbol.isVar, g.1.Over p.inputs) →
    e.Settles n u → polarity.Allows (e.value n u)

theorem draws_of_assignments (hn : p.vars.Nodup) {v w : Valuation}
    (h : Assignments p.declarations v w) : p.Draws w := by
  intro d hd r hr
  obtain ⟨u, hu⟩ := h.exists_assigns hn d hd
  rw [hr] at hu
  exact Update.contains_range hu

/-- After an iteration its result is among what the next one may work on. -/
theorem Reaches.finds {n : Nat} {v : Valuation} (h : p.Reaches (n + 1) v) (hn : p.vars.Nodup)
    (hv : v.Admissible) : p.Finds (n + 1) v := by
  refine ⟨v, v, h, hv, ?_, (p.drawn_self v).symm⟩
  cases h with
  | next _ iteration => exact draws_of_assignments hn iteration

/-- An iteration keeps the constants. -/
theorem admissible_of_assignments {v w : Valuation} (h : Assignments p.declarations v w)
    (hw : w.Admissible) : v.Admissible := by
  intro name
  have hnot : Symbol.positive name ∉ p.vars := fun hmem => by
    simpa [Symbol.isVar] using isVar_of_mem_vars _ hmem
  rw [← eq_of_assignments h hnot]
  exact hw name

section Drawn

variable {n : Nat} {u draws v : Valuation} {m : Monomial}

theorem drawn_of_not_isRandom {s : Symbol} (hs : p.isRandom s = false) :
    p.drawn draws v s = v s := by
  rw [drawn, hs, if_neg Bool.false_ne_true]

theorem Finds.admissible (h : p.Finds n u) : u.Admissible := by
  obtain ⟨v, draws, -, hv, -, rfl⟩ := h
  intro name
  rw [drawn_of_not_isRandom (by rw [isRandom, update?, declaration?_eq_none rfl]; rfl)]
  exact hv name

/-- The value of a monomial over variables is a product of powers of their values. -/
theorem value_eq_powerProduct (hm : m.Over p.vars) (n : Nat) (u : Valuation) :
    m.value n u = Monomial.powerProduct u m.powers := by
  rw [Monomial.value_eq, hm.base_eq_one, one_pow, mul_one]
  apply Monomial.powerProduct_congr
  intro q hq
  obtain ⟨d, -, heq⟩ := List.mem_map.mp (hm.mem_vars q hq)
  rw [← heq]
  rfl

/-- Draws do not change a monomial without random factors. -/
theorem value_drawn (hm : m.Over p.vars) (h : ∀ q ∈ m.powers, p.isRandom q.1 = false) (n : Nat) :
    m.value n (p.drawn draws v) = m.value n v := by
  rw [value_eq_powerProduct hm, value_eq_powerProduct hm]
  exact Monomial.powerProduct_congr fun q hq => drawn_of_not_isRandom (h q hq)

end Drawn

end Program

/-! ### What an analysis keeps -/

/-- An analysis that is coherent, with envelopes whose polarities are right. -/
abbrev Analysis.Signed (p : Program) (pending : List Monomial) (a : Analysis) : Prop :=
  a.Knows p (fun m => p.WellFormed ∧ m.Over p.vars) (fun m b => p.MonomialSigns b.polarity m) pending

variable {pending : List Monomial}

namespace Program

open Analysis

section Bounds

variable {envelope : Monomial → Attempt Analysis Envelope}

/-! ### Sums of monomials -/

/-- The value of the groups but the constant one. -/
def properValue (groups : List (Monomial × Expr)) (n : Nat) (u : Valuation) : Rat :=
  (groups.map fun g => if g.1 = .one then 0 else g.2.value n u * g.1.value n u).sum

theorem properValue_cons (g : Monomial × Expr) (groups : List (Monomial × Expr)) (n : Nat)
    (u : Valuation) : properValue (g :: groups) n u =
      (if g.1 = .one then 0 else g.2.value n u * g.1.value n u) + properValue groups n u := by
  rw [properValue, List.map_cons, List.sum_cons, ← properValue]

theorem sum_eq_constant_add_properValue {groups : List (Monomial × Expr)}
    (hs : Assoc.Sorted Monomial.cmp groups) (n : Nat) (u : Valuation) :
    (groups.map fun g => g.2.value n u * g.1.value n u).sum =
      ((Assoc.find? Monomial.one groups).getD Expr.zero).value n u + properValue groups n u := by
  induction groups with
  | nil => simp [properValue, Assoc.find?]
  | cons g groups ih =>
    have hne := hs.ne_of_mem
    rw [List.map_cons, List.sum_cons, ih (List.pairwise_cons.mp hs).2, properValue_cons, Assoc.find?]
    by_cases hg : g.1 = .one
    · rw [if_pos hg, if_pos hg, hg, Assoc.find?_eq_none fun k hk => hg ▸ hne k hk]
      simp
    · rw [if_neg hg, if_neg hg]
      ring

/-- An expression is its constant group and the others together. -/
theorem value_eq_constant_add_properValue (e : Expr) (n : Nat) (u : Valuation) :
    e.value n u = ((Assoc.find? Monomial.one (e.collect Symbol.isVar)).getD Expr.zero).value n u +
      properValue (e.collect Symbol.isVar) n u := by
  rw [← Expr.value_collect n u Symbol.isVar e]
  exact sum_eq_constant_add_properValue ((Expr.sorted_groups _ _).filter _) n u

/-- The signs that are collected are those of the partial sums. -/
theorem ensures_addEnvelopes_signs {groups : List (Monomial × Expr)}
    (h : ∀ g ∈ groups, (envelope g.1).Ensures (Signed p pending) fun b => p.MonomialSigns b.polarity g.1)
    {lower upper : Expr} {polarity : Polarity} (x : Nat → Valuation → Rat) :
    (addEnvelopes envelope (lower, upper, polarity) groups).Ensures (Signed p pending) fun r =>
      ∀ n u, p.Finds n u → (1 ≤ n ∨ ∀ g ∈ groups, g.1.Over p.inputs) →
        (∀ g ∈ groups, ∀ s, g.2.eventualSign? = some s → Sign.of (g.2.value n u) = s) →
        polarity.Allows (x n u) → r.2.2.Allows (x n u + properValue groups n u) := by
  induction groups generalizing lower upper polarity x with
  | nil =>
    refine Attempt.ensures_pure fun n u _ _ _ hacc => ?_
    simpa [properValue] using hacc
  | cons g groups ih =>
    obtain ⟨henvelope, hgroups⟩ := List.forall_mem_cons.mp h
    obtain ⟨m, c⟩ := g
    -- What one group adds, and what the others add to that.
    have hstep : ∀ {lower' upper' : Expr} {P : Polarity},
        (∀ n u, p.Finds n u → (1 ≤ n ∨ m.Over p.inputs) →
          (∀ s, c.eventualSign? = some s → Sign.of (c.value n u) = s) → polarity.Allows (x n u) →
          P.Allows (x n u + if m = .one then 0 else c.value n u * m.value n u)) →
        (addEnvelopes envelope (lower', upper', P) groups).Ensures (Signed p pending) fun r =>
          ∀ n u, p.Finds n u → (1 ≤ n ∨ ∀ g ∈ (m, c) :: groups, g.1.Over p.inputs) →
            (∀ g ∈ (m, c) :: groups, ∀ s,
              g.2.eventualSign? = some s → Sign.of (g.2.value n u) = s) →
            polarity.Allows (x n u) → r.2.2.Allows (x n u + properValue ((m, c) :: groups) n u) := by
      intro lower' upper' P hP
      refine (ih hgroups fun n u => x n u + if m = .one then 0 else c.value n u * m.value n u).mono ?_
      intro r hr n u hu hover hsigns hacc
      have hfirst := hover.imp_right fun h => h _ List.mem_cons_self
      have hothers := hover.imp_right fun h g hg => h g (List.mem_cons_of_mem _ hg)
      rw [properValue_cons, ← add_assoc]
      exact hr n u hu hothers (fun g hg => hsigns g (List.mem_cons_of_mem _ hg))
        (hP n u hu hfirst (hsigns _ List.mem_cons_self) hacc)
    rw [addEnvelopes]
    split
    · next hone =>
      refine hstep fun n u _ _ _ hacc => ?_
      rwa [if_pos (Monomial.eq_one_of_isOne hone), add_zero]
    · next hone =>
      have hne : m ≠ .one := fun heq => hone (by rw [heq]; decide)
      apply henvelope.bind
      intro b hb
      split
      · next hsign =>
        refine hstep fun n u hu hover hsigns hacc => ?_
        have hpos := Sign.of_eq_positive.mp (hsigns _ hsign)
        rw [if_neg hne]
        exact (Polarity.allows_or_left hacc).add
          (Polarity.allows_or_right ((hb n u hu hover).nonneg_mul hpos.le))
      · next hsign =>
        refine hstep fun n u hu hover hsigns hacc => ?_
        have hneg := Sign.of_eq_negative.mp (hsigns _ hsign)
        rw [if_neg hne]
        exact (Polarity.allows_or_left hacc).add
          (Polarity.allows_or_right ((hb n u hu hover).nonpos_mul hneg.le))
      · next hsign =>
        refine hstep fun n u hu hover hsigns hacc => ?_
        have hzero := Sign.of_eq_zero.mp (hsigns _ hsign)
        rwa [if_neg hne, hzero, zero_mul, add_zero]
      · exact Attempt.ensures_throw _

/-- The envelope of a polynomial has its signs, if those of its monomials have theirs. -/
theorem ensures_envelopeFrom_signs {e : Expr} (he : e.Within p.vars)
    (h : ∀ m : Monomial, m.Over p.vars →
      (envelope m).Ensures (Signed p pending) fun b => p.MonomialSigns b.polarity m) :
    (envelopeFrom envelope e).Ensures (Signed p pending) fun b => p.Signs b.polarity e := by
  set constant := (Assoc.find? Monomial.one (e.collect Symbol.isVar)).getD Expr.zero with hconstant
  have hcanonical : constant.Canonical := (within_constantGroup he).canonical
  unfold envelopeFrom
  apply (ensures_addEnvelopes_signs (fun g hg => h g.1 (he.collect g hg).1)
    fun n u => constant.value n u).bind
  rintro ⟨lower, upper, polarity⟩ hpolarity
  have hsigns : p.Signs polarity e := by
    intro n u hu hover hsettles
    rw [value_eq_constant_add_properValue]
    exact hpolarity n u hu hover hsettles (Expr.polarity_allows hu.admissible hcanonical)
  simp only
  apply Attempt.ensures_ite
  · exact Attempt.ensures_pure hsigns
  · apply (ensures_drawing_any _).bind
    intro upper _
    apply (ensures_drawing_any _).bind
    intro lower _
    exact Attempt.ensures_pure hsigns

/-! ### Random factors -/

/-- The product of draws lies in the range of the product. -/
theorem mem_factorRange {draws : Valuation} (hd : p.Draws draws) {l : List (Symbol × Nat)}
    (hl : ∀ q ∈ l, p.isRandom q.1 = true) {ends range : Rat × Rat} {x : Rat}
    (hx : ends.1 ≤ x ∧ x ≤ ends.2) (h : p.factorRange ends l = .ok range) :
    range.1 ≤ x * Monomial.powerProduct draws l ∧
      x * Monomial.powerProduct draws l ≤ range.2 := by
  induction l generalizing ends x with
  | nil =>
    rw [← Except.ok.inj h]
    simpa [Monomial.powerProduct] using hx
  | cons q l ih =>
    obtain ⟨hq, hrest⟩ := List.forall_mem_cons.mp hl
    obtain ⟨s, k⟩ := q
    obtain ⟨low, high⟩ := ends
    rw [factorRange] at h
    split at h
    · simp at h
    · next l' h' hsupport =>
      obtain ⟨i, hi, hends⟩ := Option.bind_eq_some_iff.mp hsupport
      obtain ⟨u, hu, hi⟩ := Option.bind_eq_some_iff.mp hi
      have hcontains : i.Contains (draws s ^ k) := by
        obtain ⟨d, hfind, rfl⟩ := Option.map_eq_some_iff.mp hu
        have hmem := List.mem_of_find?_eq_some hfind
        have hsymbol : d.symbol = s := by simpa using List.find?_some hfind
        have hrandom : d.update.isRandom = true := by
          simpa [isRandom, hu] using hq
        cases hupdate : d.update with
        | branches bs => rw [hupdate] at hrandom; simp [Update.isRandom] at hrandom
        | random r =>
          rw [hupdate] at hi
          rw [← Option.some.inj hi, ← hsymbol]
          exact (hd d hmem r hupdate).pow k
      have hproduct := mul_mem_corners hx (hcontains.of_finite? hends) rfl rfl
      rw [Monomial.powerProduct_cons, ← mul_assoc]
      exact ih hrest hproduct h

/-- The signs of a product with random factors are those of the factors. -/
theorem ensures_envelopeOfRandom_signs {m : Monomial} (hm : m.Over p.vars)
    (h : (envelope (m.rest p.isRandom)).Ensures (Signed p pending) fun b =>
      p.MonomialSigns b.polarity (m.rest p.isRandom)) :
    (p.envelopeOfRandom envelope m (m.kept p.isRandom) (m.rest p.isRandom)).Ensures (Signed p pending)
      fun b => p.MonomialSigns b.polarity m := by
  unfold envelopeOfRandom
  apply Attempt.Ensures.bind (Attempt.ensures_ofExcept fun range hrange => hrange)
  rintro ⟨low, high⟩ hrange
  have hfactor : ∀ n u, p.Finds n u → (⟨decide (0 < high), decide (low < 0)⟩ : Polarity).Allows
      ((m.kept p.isRandom).value n u) := by
    rintro n u ⟨v, draws, -, -, hdraws, rfl⟩
    have hrandom : ∀ q ∈ (m.kept p.isRandom).powers, p.isRandom q.1 = true :=
      fun q hq => (List.mem_filter.mp hq).2
    have hmem := mem_factorRange hdraws hrandom ⟨le_refl 1, le_refl 1⟩ hrange
    have hdrawn : Monomial.powerProduct (p.drawn draws v) (m.kept p.isRandom).powers =
        Monomial.powerProduct draws (m.kept p.isRandom).powers :=
      Monomial.powerProduct_congr fun q hq => by rw [drawn, hrandom q hq, if_pos rfl]
    have hkept : (m.kept p.isRandom).Over p.vars := hm.filter (fun q => p.isRandom q.1) rfl
    rw [one_mul, ← hdrawn, ← value_eq_powerProduct hkept n] at hmem
    constructor
    · exact fun hpos => decide_eq_true (hpos.trans_le hmem.2)
    · exact fun hneg => decide_eq_true (hmem.1.trans_lt hneg)
  simp only
  split
  · next hone =>
    refine Attempt.ensures_pure fun n u hu _ => ?_
    rw [← Monomial.value_kept_mul_rest n u p.isRandom m, Monomial.eq_one_of_isOne hone,
      Monomial.value_one, mul_one]
    exact hfactor n u hu
  · apply h.bind
    intro b hb
    apply (ensures_drawing_any _).bind
    intro lower _
    apply (ensures_drawing_any _).bind
    intro upper _
    refine Attempt.ensures_pure fun n u hu hover => ?_
    rw [← Monomial.value_kept_mul_rest n u p.isRandom m]
    have hrest := hover.imp_right fun h => h.filter (fun q => !p.isRandom q.1) hm.base_eq_one
    exact (hfactor n u hu).mul (hb n u hu hrest)

/-! ### Odd powers -/

theorem odd_oddPart {k : Nat} (hk : k ≠ 0) : Odd (oddPart k) := by
  induction k using oddPart.induct with
  | case1 => exact absurd rfl hk
  | case2 k _ heven ih =>
    rw [oddPart, if_neg hk, if_pos heven]
    exact ih (by omega)
  | case3 k _ hodd =>
    rw [oddPart, if_neg hk, if_neg hodd]
    exact Nat.odd_iff.mpr (by omega)

/-- An odd power has the signs of its root. -/
theorem ensures_envelopeOfPower_signs {m : Monomial} (hm : m.Over p.vars) {k : Nat} (hk : Odd k)
    (hdvd : ∀ q ∈ m.powers, k ∣ q.2)
    (h : (envelope (m.root k)).Ensures (Signed p pending) fun b => p.MonomialSigns b.polarity (m.root k)) :
    (envelopeOfPower envelope m k).Ensures (Signed p pending) fun b => p.MonomialSigns b.polarity m := by
  unfold envelopeOfPower
  apply h.bind
  intro b hb
  apply (ensures_drawing_any _).bind
  intro lower _
  apply (ensures_drawing_any _).bind
  intro upper _
  refine Attempt.ensures_pure fun n u hu hover => ?_
  rw [Monomial.value_root n u hm.base_eq_one hdvd]
  exact (hb n u hu (hover.imp_right fun h => h.root hdvd)).odd_pow hk

end Bounds

/-! ### Deterministic variables -/

/-- A monomial in deterministic variables has the signs of its closed form. -/
theorem WellFormed.ensures_envelopeOfDeterministic_signs (hp : p.WellFormed) {m : Monomial}
    (hm : m.Over p.vars) (hdet : (m.symbols.all fun s => !p.isProbabilistic s) = true)
    (hrandom : ∀ q ∈ m.powers, p.isRandom q.1 = false) :
    (p.envelopeOfDeterministic m).Ensures (Signed p pending) fun b =>
      p.MonomialSigns b.polarity m := by
  unfold envelopeOfDeterministic
  apply (ensures_onMoments (hp.keeps_fresh_substDeterministic (Expr.over_term hm 1).within).ensures).bind
  rintro value rfl
  apply (ensures_drawing_any _).bind
  intro bound _
  apply Attempt.ensures_pure
  rintro n _ ⟨v, draws, hv, hadmissible, -, rfl⟩ hover
  have hterm := (Expr.over_term hm 1).within
  have hfollows : ∀ s ∈ (Expr.term m 1).freeSymbols, s.isVar = true →
      p.isProbabilistic s = false → v s = (p.closed (Monomial.ofSymbol s 1)).value n v := by
    intro s hs hvar hprob
    have hdetermined := mem_determined.mpr ⟨isVar_freeSymbols hterm s hs hvar, hprob⟩
    refine hp.follows hv hdetermined (hover.imp_right fun h => ?_)
    exact isVar_freeSymbols (Expr.over_term h 1).within s hs hvar
  have hvalue := value_settled_of_occurring hfollows
  rw [Expr.value_term, one_mul] at hvalue
  rw [value_drawn hm hrandom, ← hvalue]
  exact Expr.polarity_allows hadmissible (hp.within_settled_term hm hdet).canonical

/-! ### Recurrences -/

section Recurrences

variable {m : Monomial}

/-- After an iteration the monomial is a multiple of what it was, and what is left of a case. -/
theorem WellFormed.exists_case_of_assignments (hp : p.WellFormed) (hm : m.Over p.vars) (n : Nat)
    {v w : Valuation} (h : Assignments p.declarations v w) :
    ∃ c ∈ p.cases (.term m 1), m.value n w = (caseBranch m c).factor * m.value n (p.drawn w v) +
      (caseBranch m c).rest.value n (p.drawn w v) := by
  obtain ⟨o, ho, rfl⟩ := exists_outcome_of_assignments hp.nodup h
  obtain ⟨c, hc, hvalue⟩ := hp.sequential.exists_case (Expr.over_term hm 1).canonical n _ v ho
  refine ⟨c, hc, ?_⟩
  rw [Expr.value_term, one_mul] at hvalue
  simp [caseBranch, hvalue]

/-- Signs that hold initially and of what every case adds hold in every iteration. -/
theorem WellFormed.monotonePolarity_signs (hp : p.WellFormed) (hm : m.Over p.vars)
    (hrandom : ∀ q ∈ m.powers, p.isRandom q.1 = false) {rests : List Envelope}
    (hrests : List.Forall₂ (fun c b => p.Signs b.polarity (caseBranch m c).rest)
      (p.cases (.term m 1)) rests)
    (hfactor : ∀ c ∈ p.cases (.term m 1), 0 ≤ (caseBranch m c).factor) :
    p.MonomialSigns (p.monotonePolarity m rests) m := by
  unfold monotonePolarity
  split
  · next heven =>
    exact fun n u _ _ =>
      Polarity.allows_of_nonneg (Monomial.value_nonneg_of_even n u hm.base_eq_one heven)
  · have hterm := Expr.over_term hm 1
    set polarity := rests.foldl (fun acc b => acc.or b.polarity) (p.initialPolarity (.term m 1))
    have hrun : ∀ n v, p.Reaches n v → v.Admissible → polarity.Allows (m.value n v) := by
      intro n v hv
      induction hv with
      | @start v hinitial =>
        intro _
        apply (Polarity.allows_foldl_or fun b : Envelope => b.polarity).1
        have hstart := hp.initialPolarity_allows hinitial hterm.canonical
        rwa [Expr.value_term, one_mul] at hstart
      | @next n v w before iteration ih =>
        intro hw
        have hv := admissible_of_assignments iteration hw
        have hfinds : p.Finds n (p.drawn w v) :=
          ⟨v, w, before, hv, draws_of_assignments hp.nodup iteration, rfl⟩
        obtain ⟨c, hc, hvalue⟩ := hp.exists_case_of_assignments hm n iteration
        obtain ⟨b, hb, hsigns⟩ := forall₂_exists_of_mem hrests c hc
        have hrest := over_rest m (hp.cases_over_inputs hterm c hc)
        have hplain := hrest.isPlain fun s hs => isVar_of_mem_vars s (mem_vars_of_mem_inputs hs)
        rw [value_eq_powerProduct hm, ← value_eq_powerProduct hm n, hvalue, value_drawn hm hrandom]
        refine ((ih hv).nonneg_mul (hfactor c hc)).add ?_
        refine (Polarity.allows_foldl_or fun b : Envelope => b.polarity).2 b hb ?_
        refine hsigns n _ hfinds (Or.inr fun g hg => ?_) (hplain.settles n _)
        exact (hrest.within.collect g hg).1
    rintro n _ ⟨v, draws, hv, hadmissible, -, rfl⟩ -
    rw [value_drawn hm hrandom]
    exact hrun n v hv hadmissible

theorem ensures_envelopeOfAlternating_both {least greatest : Rat} {rests : List Envelope} :
    (envelopeOfAlternating m least greatest rests).Ensures (fun _ => True)
      (·.polarity = .both) := by
  unfold envelopeOfAlternating
  apply (Attempt.ensures_answers _).bind
  intro bounds _
  apply (Attempt.ensures_answers _).bind
  intro inhomogeneous _
  apply (Attempt.ensures_answers _).bind
  intro starts _
  apply (Attempt.ensures_answers _).bind
  intro fs _
  apply (Attempt.ensures_answers _).bind
  intro bound _
  exact Attempt.ensures_pure rfl

theorem ensures_envelopeOfMonotone_polarity {least greatest : Rat} {rests : List Envelope}
    {polarity : Polarity} :
    (envelopeOfMonotone m least greatest rests polarity).Ensures (fun _ => True)
      (·.polarity = polarity) := by
  unfold envelopeOfMonotone
  apply (Attempt.ensures_answers _).bind
  intro above _
  apply (Attempt.ensures_answers _).bind
  intro below _
  apply (Attempt.ensures_answers _).bind
  intro starts _
  apply (Attempt.ensures_answers _).bind
  intro uppers _
  apply (Attempt.ensures_answers _).bind
  intro upper _
  apply (Attempt.ensures_answers _).bind
  intro lowers _
  apply (Attempt.ensures_answers _).bind
  intro lower _
  have hlast : ∀ (upper : Expr) (x : Attempt Supply Expr),
      (x >>= fun lower => pure (Envelope.between (.term m 1) lower upper polarity) :
        Attempt Supply Envelope).Ensures (fun _ => True) (·.polarity = polarity) :=
    fun upper x => x.ensures_answers.bind fun _ _ => Attempt.ensures_pure rfl
  have hupper : ∀ upper : Expr, (if polarity.maybeNegative then
        pure lower >>= fun lower => pure (Envelope.between (.term m 1) lower upper polarity)
      else Expr.dominating [lower, Expr.zero] >>= fun lower =>
        pure (Envelope.between (.term m 1) lower upper polarity) :
        Attempt Supply Envelope).Ensures (fun _ => True) (·.polarity = polarity) :=
    fun upper => Attempt.ensures_ite (hlast upper _) (hlast upper _)
  apply Attempt.ensures_ite
  · exact (Attempt.ensures_answers _).bind fun upper _ => hupper upper
  · exact (Attempt.ensures_answers _).bind fun upper _ => hupper upper

/-- A recurrence gives signs that hold in every iteration. -/
theorem WellFormed.ensures_envelopeOfRecurrence_signs (hp : p.WellFormed)
    {envelope : Monomial → Attempt Analysis Envelope} (hm : m.Over p.vars)
    (hrandom : ∀ q ∈ m.powers, p.isRandom q.1 = false)
    (h : ∀ k : Monomial, k.Over p.vars →
      (envelope k).Ensures (Signed p pending) fun b => p.MonomialSigns b.polarity k) :
    (p.envelopeOfRecurrence envelope m).Ensures (Signed p pending) fun b =>
      p.MonomialSigns b.polarity m := by
  unfold envelopeOfRecurrence
  apply (ensures_branchesOf p m).bind
  intro bs hbs
  have hover := hp.over_branches hm hbs
  obtain rfl := Except.ok.inj (hbs.symm.trans (hp.branches_eq hm))
  apply (Attempt.Ensures.mapM fun b hb => ensures_envelopeFrom_signs (hover b hb).within h).bind
  intro rests hrests
  rw [List.forall₂_map_left_iff] at hrests
  dsimp only
  split
  · next least greatest hleast _ =>
    split
    · refine (ensures_drawing ensures_envelopeOfAlternating_both).mono fun b hb => ?_
      intro n u _ _
      rw [hb]
      exact Polarity.allows_both _
    · next hnonneg =>
      refine (ensures_drawing ensures_envelopeOfMonotone_polarity).mono fun b hb => ?_
      rw [hb]
      refine hp.monotonePolarity_signs hm hrandom hrests fun c hc => ?_
      refine (not_lt.mp hnonneg).trans (Number.minimum?_le hleast _ ?_)
      exact List.mem_map_of_mem (List.mem_map_of_mem hc)
  · exact Attempt.ensures_throw _

end Recurrences

/-! ### Monomials and polynomials -/

/-- Whichever way the envelope of a monomial is found, it has the signs of the monomial. -/
theorem WellFormed.ensures_envelopeBy_signs (hp : p.WellFormed) {m : Monomial}
    (hm : m.Over p.vars) {envelope : Monomial → Attempt Analysis Envelope}
    (h : ∀ k : Monomial, k.Over p.vars →
      (envelope k).Ensures (Signed p pending) fun b => p.MonomialSigns b.polarity k) :
    (p.envelopeBy envelope m).Ensures (Signed p pending) fun b => p.MonomialSigns b.polarity m := by
  have hrest : (m.rest p.isRandom).Over p.vars :=
    hm.filter (fun q => !p.isRandom q.1) hm.base_eq_one
  unfold envelopeBy
  split
  · exact ensures_envelopeOfRandom_signs hm (h _ hrest)
  · next hnone =>
    have hnil := Monomial.eq_one_of_isOne (by simpa using hnone : (m.kept p.isRandom).isOne = true)
    have hrandom : ∀ q ∈ m.powers, p.isRandom q.1 = false := by
      intro q hq
      by_contra hq'
      have hmem : q ∈ (m.kept p.isRandom).powers :=
        List.mem_filter.mpr ⟨hq, by simpa using hq'⟩
      rw [hnil] at hmem
      exact List.not_mem_nil hmem
    split
    · next hdet => exact hp.ensures_envelopeOfDeterministic_signs hm hdet hrandom
    · split
      · next hodd =>
        have hdvd : ∀ q ∈ m.powers, oddPart m.powerGcd ∣ q.2 :=
          fun q hq => (oddPart_dvd _).trans (Monomial.powerGcd_dvd q hq)
        have hne : m.powerGcd ≠ 0 := by
          intro hzero
          rw [hzero, oddPart, if_pos rfl] at hodd
          omega
        exact ensures_envelopeOfPower_signs hm (odd_oddPart hne) hdvd (h _ (hm.root hdvd))
      · exact hp.ensures_envelopeOfRecurrence_signs hm hrandom h

/-- Signs that are right are put together to signs that are right. -/
theorem establishes_signs (p : Program) :
    p.Establishes (fun m => p.WellFormed ∧ m.Over p.vars) fun m b =>
      p.MonomialSigns b.polarity m := by
  rintro pending envelope henvelope m ⟨hp, hm⟩
  exact hp.ensures_envelopeBy_signs hm fun k hk => (henvelope k).mono fun b hb => hb ⟨hp, hk⟩

/-- The envelope of an expression has its signs. -/
theorem WellFormed.ensures_envelopeOf_signs (hp : p.WellFormed) {e : Expr}
    (he : e.Within p.vars) :
    (p.envelopeOf e).Ensures (Signed p pending) fun b => p.Signs b.polarity e :=
  ensures_envelopeFrom_signs he fun m hm =>
    (p.establishes_signs.envelopeOfMonomial m pending).mono fun _ hb => hb ⟨hp, hm⟩

end Program

end ProbLoop
