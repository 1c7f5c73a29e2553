import ProbLoop.Proofs.DeterminedRuns
import ProbLoop.Proofs.Envelope.Polarity
import ProbLoop.Proofs.Positive
import ProbLoop.Proofs.Program.CaseMean

/-!
# Bounds of draws

An expression over drawn variables has numbers as bounds, and its value lies between them after every
iteration of every run. Of other variables this cannot be said: candidates for a bound are compared up to
positive factors, and a number that is kept of several candidates stays as it is.
-/

set_option autoImplicit false

namespace ProbLoop

open Analysis Filter Topology

/-! ### Bounds that are numbers -/

namespace Expr

theorem const_add_const (a b : Rat) : const a + const b = const (a + b) :=
  ((still_const a).add (still_const b)).ext (still_const _) fun v => by simp

theorem const_mul_const (a b : Rat) : const a * const b = const (a * b) :=
  ((still_const a).mul (still_const b)).ext (still_const _) fun v => by simp

/-- The group without variables of a polynomial with numbers as coefficients is a number. -/
theorem IsPlain.constantGroup {e : Expr} (he : e.IsPlain) :
    ∃ q, (Assoc.find? Monomial.one (e.collect Symbol.isVar)).getD zero = const q := by
  rw [he.collect, find?_map_const]
  cases Assoc.find? Monomial.one e.terms with
  | none => exact ⟨0, rfl⟩
  | some q => exact ⟨q, rfl⟩

/-- Splitting and folding leave a number as it is. -/
theorem splitBound_const (direction : Direction) (q : Rat) :
    (do eventualBound direction (← (const q).splitSign) : Attempt Supply Expr) = pure (const q) := by
  have hsettled : (const q).isSettled = true := by simp [isSettled, dependsOnCounter_const]
  have hbound : eventualBound direction [const q] = pure (const q) := by
    simp only [eventualBound, dominantOf, canonicalize, hsettled, if_true]
    rfl
  rw [splitSign, limit_const]
  exact hbound

end Expr

namespace Program

variable {p : Program} {pending : List Monomial} {m : Monomial}

/-- The variables that are drawn in every iteration. -/
def drawnVars (p : Program) : List Symbol := p.vars.filter p.isRandom

theorem Over.vars_of_drawn {m : Monomial} (hm : m.Over p.drawnVars) : m.Over p.vars :=
  hm.mono fun _ hs => (List.mem_filter.mp hs).1

/-- The bounds are numbers, and the function of the draws lies between them. -/
def IsRange (p : Program) (lower upper : Expr) (f : Valuation → Rat) : Prop :=
  ∃ low high, lower = .const low ∧ upper = .const high ∧
    ∀ draws, p.Draws draws → low ≤ f draws ∧ f draws ≤ high

namespace IsRange

variable {lower upper lower' upper' : Expr} {f g : Valuation → Rat}

theorem const (p : Program) (q : Rat) : p.IsRange (.const q) (.const q) fun _ => q :=
  ⟨q, q, rfl, rfl, fun _ _ => ⟨le_rfl, le_rfl⟩⟩

theorem congr (hf : p.IsRange lower upper f) (h : ∀ draws, g draws = f draws) :
    p.IsRange lower upper g := by
  rwa [show g = f from funext h]

theorem add (hf : p.IsRange lower upper f) (hg : p.IsRange lower' upper' g) :
    p.IsRange (lower + lower') (upper + upper') fun draws => f draws + g draws := by
  obtain ⟨l, u, rfl, rfl, hf⟩ := hf
  obtain ⟨l', u', rfl, rfl, hg⟩ := hg
  exact ⟨_, _, Expr.const_add_const l l', Expr.const_add_const u u', fun draws hdraws =>
    ⟨add_le_add (hf draws hdraws).1 (hg draws hdraws).1,
      add_le_add (hf draws hdraws).2 (hg draws hdraws).2⟩⟩

theorem nonneg_mul (hf : p.IsRange lower upper f) {c : Rat} (hc : 0 ≤ c) :
    p.IsRange (.const c * lower) (.const c * upper) fun draws => c * f draws := by
  obtain ⟨l, u, rfl, rfl, hf⟩ := hf
  exact ⟨_, _, Expr.const_mul_const c l, Expr.const_mul_const c u, fun draws hdraws =>
    ⟨mul_le_mul_of_nonneg_left (hf draws hdraws).1 hc,
      mul_le_mul_of_nonneg_left (hf draws hdraws).2 hc⟩⟩

theorem nonpos_mul (hf : p.IsRange lower upper f) {c : Rat} (hc : c ≤ 0) :
    p.IsRange (.const c * upper) (.const c * lower) fun draws => c * f draws := by
  obtain ⟨l, u, rfl, rfl, hf⟩ := hf
  exact ⟨_, _, Expr.const_mul_const c u, Expr.const_mul_const c l, fun draws hdraws =>
    ⟨mul_le_mul_of_nonpos_left (hf draws hdraws).2 hc,
      mul_le_mul_of_nonpos_left (hf draws hdraws).1 hc⟩⟩

end IsRange

end Program

/-- An analysis that is coherent, with numbers as the bounds of draws. -/
abbrev Analysis.Ranged (p : Program) (pending : List Monomial) (a : Analysis) : Prop :=
  a.Knows p (fun m => m.Over p.drawnVars ∧ m.isOne = false)
    (fun m b => p.IsRange b.lower b.upper (m.value 0)) pending

namespace Program

variable {p : Program} {pending : List Monomial} {m : Monomial}
  {envelope : Monomial → Attempt Analysis Envelope}

/-! ### Monomials -/

/-- A product of draws has nothing but random factors. -/
theorem kept_rest_of_drawn (hm : m.Over p.drawnVars) :
    m.kept p.isRandom = m ∧ m.rest p.isRandom = .one := by
  have hone := Monomial.kept_rest_mul p.isRandom hm.toCanonical Monomial.canonical_one
    hm.base_eq_one (fun q hq => (List.mem_filter.mp (hm.mem_vars q hq)).2) (by simp [Monomial.one])
  rwa [hm.toCanonical.mul_one] at hone

theorem ensures_envelopeBy_ranged (hm : m.Over p.drawnVars) (hone : m.isOne = false) :
    (p.envelopeBy envelope m).Ensures (Ranged p pending) fun b =>
      p.IsRange b.lower b.upper (m.value 0) := by
  obtain ⟨hkept, hrest⟩ := kept_rest_of_drawn hm
  rw [envelopeBy, hkept, hrest, hone, Bool.not_false, if_pos rfl, envelopeOfRandom]
  apply Attempt.Ensures.bind (Attempt.ensures_ofExcept fun range hrange => hrange)
  rintro ⟨low, high⟩ hrange
  refine Attempt.ensures_pure ⟨low, high, rfl, rfl, fun draws hdraws => ?_⟩
  have hmem := mem_factorRange hdraws (fun q hq => (List.mem_filter.mp (hm.mem_vars q hq)).2)
    ⟨le_refl 1, le_refl 1⟩ hrange
  rwa [one_mul, ← value_eq_powerProduct (Over.vars_of_drawn hm) 0] at hmem

/-- However the envelopes of others are found, products of draws have ranges as bounds. -/
theorem establishes_range (p : Program) :
    p.Establishes (fun m => m.Over p.drawnVars ∧ m.isOne = false) fun m b =>
      p.IsRange b.lower b.upper (m.value 0) :=
  fun _ _ _ _ hm => ensures_envelopeBy_ranged hm.1 hm.2

/-! ### Sums -/

/-- Adding up ranges with numbers as coefficients gives the range of the sum. -/
theorem ensures_addEnvelopes_ranged {ts : List (Monomial × Rat)}
    (h : ∀ t ∈ ts, t.1.isOne = false → (envelope t.1).Ensures (Ranged p pending) fun b =>
      p.IsRange b.lower b.upper (t.1.value 0))
    {lower upper : Expr} {polarity : Polarity} {f : Valuation → Rat}
    (hf : p.IsRange lower upper f) :
    (addEnvelopes envelope (lower, upper, polarity) (ts.map fun t => (t.1, .const t.2))).Ensures
      (Ranged p pending) fun r => p.IsRange r.1 r.2.1 fun draws =>
        f draws + properValue (ts.map fun t => (t.1, .const t.2)) 0 draws := by
  induction ts generalizing lower upper polarity f with
  | nil => exact Attempt.ensures_pure (hf.congr fun _ => by simp [properValue])
  | cons t ts ih =>
    obtain ⟨ht, hts⟩ := List.forall_mem_cons.mp h
    obtain ⟨m, c⟩ := t
    have hstep : ∀ {lower' upper' : Expr} {polarity' : Polarity} {g : Valuation → Rat},
        p.IsRange lower' upper' g →
        (∀ draws, g draws = f draws + if m = .one then 0 else c * m.value 0 draws) →
        (addEnvelopes envelope (lower', upper', polarity')
          (ts.map fun t => (t.1, .const t.2))).Ensures (Ranged p pending) fun r =>
            p.IsRange r.1 r.2.1 fun draws =>
              f draws + properValue (((m, c) :: ts).map fun t => (t.1, .const t.2)) 0 draws := by
      intro lower' upper' polarity' g hrange hg
      refine (ih hts hrange).mono fun r hr => hr.congr fun draws => ?_
      rw [List.map_cons, properValue_cons, hg, Expr.value_const, add_assoc]
    rw [List.map_cons, addEnvelopes]
    split
    · next hone =>
      refine hstep hf fun draws => ?_
      rw [if_pos (Monomial.eq_one_of_isOne hone), add_zero]
    · next hone =>
      have hne : m ≠ .one := by
        rintro rfl
        exact hone rfl
      apply (ht (by simpa using hone)).bind
      intro b hb
      rw [Expr.eventualSign?_const]
      split
      · next hsign =>
        have hc := Sign.of_eq_positive.mp (Option.some.inj hsign)
        exact hstep (hf.add (hb.nonneg_mul hc.le)) fun draws => by rw [if_neg hne]
      · next hsign =>
        have hc := Sign.of_eq_negative.mp (Option.some.inj hsign)
        exact hstep (hf.add (hb.nonpos_mul hc.le)) fun draws => by rw [if_neg hne]
      · next hsign =>
        have hc : c = 0 := Sign.of_eq_zero.mp (Option.some.inj hsign)
        exact hstep hf fun draws => by rw [if_neg hne, hc, zero_mul, add_zero]
      · exact Attempt.ensures_throw _

theorem isVar_of_mem_drawnVars : ∀ s ∈ p.drawnVars, s.isVar = true :=
  fun s hs => isVar_of_mem_vars s (List.mem_filter.mp hs).1

/-- Splitting and folding a number for a bound gives the number. -/
theorem ensures_splitBound_const (direction : Direction) (q : Rat) :
    (drawing do Expr.eventualBound direction (← (Expr.const q).splitSign)).Ensures
      (Ranged p pending) (· = .const q) := by
  rw [Expr.splitBound_const]
  exact ensures_drawing (Attempt.ensures_pure rfl)

/-- The envelope of an expression over draws is a range of it. -/
theorem ensures_envelopeOf_ranged {e : Expr} (he : e.Over p.drawnVars) :
    (p.envelopeOf e).Ensures (Ranged p pending) fun b => p.IsRange b.lower b.upper (e.value 0) := by
  have hplain : e.IsPlain := he.isPlain isVar_of_mem_drawnVars
  obtain ⟨q, hq⟩ := hplain.constantGroup
  have hvalue : ∀ draws, e.value 0 draws =
      q + properValue (e.terms.map fun t => (t.1, .const t.2)) 0 draws := fun draws => by
    rw [value_eq_constant_add_properValue, hq, hplain.collect, Expr.value_const]
  unfold envelopeOf envelopeFrom
  dsimp only
  rw [hq, hplain.collect]
  apply (ensures_addEnvelopes_ranged (fun t ht hone =>
    (p.establishes_range.envelopeOfMonomial t.1 pending).mono fun b hb =>
      hb ⟨he.monomials t ht, hone⟩) (IsRange.const p q)).bind
  rintro ⟨lower, upper, polarity⟩ hrange
  have hbounds := hrange.congr hvalue
  obtain ⟨low, high, hlow, hhigh, -⟩ := hrange
  simp only at hlow hhigh ⊢
  apply Attempt.ensures_ite
  · exact Attempt.ensures_pure hbounds
  · rw [hlow, hhigh] at hbounds ⊢
    apply (ensures_splitBound_const .up high).bind
    rintro _ rfl
    apply (ensures_splitBound_const .down low).bind
    rintro _ rfl
    exact Attempt.ensures_pure hbounds

/-! ### Runs -/

/-- In the end the value of an expression is at most that of a bound, in all runs and for some values of
the positive constants. -/
def HoldsAbove (p : Program) (upper e : Expr) : Prop :=
  ∃ σ : Valuation, σ.Admissible ∧ ∃ N, ∀ n x, N ≤ n → p.RealReaches n x →
    e.realValue n x ≤ upper.value n σ

/-- In the end the value of an expression is at least that of a bound, in all runs and for some values of
the positive constants. -/
def HoldsBelow (p : Program) (lower e : Expr) : Prop :=
  ∃ σ : Valuation, σ.Admissible ∧ ∃ N, ∀ n x, N ≤ n → p.RealReaches n x →
    lower.value n σ ≤ e.realValue n x

/-- An expression over draws is in its range after every iteration. -/
theorem WellFormed.mem_range (hp : p.WellFormed) {e : Expr} (he : e.Over p.drawnVars) {low high : Rat}
    (h : ∀ draws, p.Draws draws → low ≤ e.value 0 draws ∧ e.value 0 draws ≤ high) {n : Nat}
    {x : RealValuation} (hx : p.RealReaches n x) (hn : 1 ≤ n) :
    (low : ℝ) ≤ e.realValue n x ∧ e.realValue n x ≤ high := by
  obtain ⟨u, hu, happroach⟩ := hp.exists_reaches_tendsto hx
  have hlimit := Expr.tendsto_value (e := e) (fun _ _ _ _ => Or.inr trivial) happroach n
  have hcounter : Symbol.counter ∉ p.drawnVars := fun hmem => by
    simpa [Symbol.isVar] using isVar_of_mem_drawnVars _ hmem
  have hstill : e.Still := ⟨he.canonical, he.isStill hcounter⟩
  have hmem : ∀ k, (low : ℝ) ≤ e.value n (u k) ∧ (e.value n (u k) : ℝ) ≤ high := by
    intro k
    obtain ⟨j, rfl⟩ := Nat.exists_eq_add_of_le' hn
    have hdraws : p.Draws (u k) := by
      cases hu k with
      | next _ iteration => exact draws_of_assignments hp.nodup iteration
    rw [hstill.value_eq (j + 1) 0]
    exact_mod_cast h _ hdraws
  exact ⟨ge_of_tendsto' hlimit fun k => (hmem k).1, le_of_tendsto' hlimit fun k => (hmem k).2⟩

/-- The bounds that an analysis gives for an expression over draws hold from the first iteration on. -/
theorem WellFormed.holds_of_drawn (hp : p.WellFormed) {a : Analysis} (ha : a.Ranged p []) {e : Expr}
    (he : e.Over p.drawnVars) {b : Envelope} (hb : ((p.envelopeOf e).run.run a).1 = .ok b) :
    p.HoldsAbove b.upper e ∧ p.HoldsBelow b.lower e := by
  obtain ⟨low, high, hlow, hhigh, hrange⟩ := (ensures_envelopeOf_ranged he a ha).2 b hb
  have hmem := fun n x (hn : 1 ≤ n) (hx : p.RealReaches n x) => hp.mem_range he hrange hx hn
  have hadmissible : Valuation.Admissible fun _ => 1 := fun _ => one_pos
  rw [hlow, hhigh]
  refine ⟨⟨_, hadmissible, 1, fun n x hn hx => ?_⟩, ⟨_, hadmissible, 1, fun n x hn hx => ?_⟩⟩
  · rw [Expr.value_const]
    exact (hmem n x hn hx).2
  · rw [Expr.value_const]
    exact (hmem n x hn hx).1

end Program

namespace Session

/-- One run of the loop with the redrawn variable stays at `1`. -/
theorem redrawn_stays (n : Nat) : Program.redrawn.RealReaches n fun _ => ((1 : Rat) : ℝ) := by
  let one : RealValuation := fun _ => ((1 : Rat) : ℝ)
  induction n with
  | zero =>
    refine .start fun d hd => ?_
    rw [List.mem_singleton.mp hd]
    exact ⟨_, List.mem_singleton_self _, (Expr.realValue_const 0 one 1).symm⟩
  | succ n ih =>
    have hsame : Function.update one (.var "y") ((Expr.const 1).realValue 0 one) = one := by
      rw [Expr.realValue_const]
      exact Function.update_eq_self _ _
    have hassigns : RealAssignments Program.redrawn.declarations one
        (Function.update one (.var "y") ((Expr.const 1).realValue 0 one)) :=
      .assign ⟨(.const 1, 1 / 2), by simp, rfl⟩ (.done _)
    rw [hsame] at hassigns
    exact .next ih hassigns

end Session

end ProbLoop
