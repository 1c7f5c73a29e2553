import Mathlib
import ProbLoop.Proofs.DrawnBounds
import ProbLoop.Proofs.IntervalHull
import ProbLoop.Proofs.Program.RealRun
import ProbLoop.Proofs.Source.Meaning

/-!
# Hulls of products of draws

Different variables are drawn independently of each other, so a product of powers of draws takes its
least and its greatest value where each factor is at an end of its range. The range that is folded up
factor by factor has exactly these two values as its ends.
-/

set_option autoImplicit false

namespace ProbLoop

/-! ### Least and greatest elements of lists -/

namespace Number

theorem foldl_mem {pick : Rat → Rat → Rat} (h : ∀ a b, pick a b = a ∨ pick a b = b) (q : Rat)
    (qs : List Rat) : qs.foldl pick q ∈ q :: qs := by
  refine List.foldlRecOn (motive := fun b => b ∈ q :: qs) qs _ List.mem_cons_self
    fun b hb a ha => ?_
  rcases h b a with heq | heq <;> rw [heq]
  · exact hb
  · exact List.mem_cons_of_mem q ha

theorem minimum?_mem {qs : List Rat} {low : Rat} (h : minimum? qs = some low) : low ∈ qs := by
  cases qs with
  | nil => cases h
  | cons q qs =>
    rw [← Option.some.inj h]
    exact foldl_mem (fun a b => (ite_eq_or_eq (b < a) b a).symm) q qs

theorem maximum?_mem {qs : List Rat} {high : Rat} (h : maximum? qs = some high) : high ∈ qs := by
  cases qs with
  | nil => cases h
  | cons q qs =>
    rw [← Option.some.inj h]
    exact foldl_mem (fun a b => (ite_eq_or_eq (a < b) b a).symm) q qs

end Number

/-! ### Real points of intervals -/

namespace Interval

variable {i : Interval} {k : ℕ} {low high : Rat}

theorem containsReal_iff {x : ℝ} : i.ContainsReal x ↔ (x : EReal) ∈ i.extended := by
  obtain ⟨l, h⟩ := i
  refine and_congr ?_ ?_
  · cases l <;> simp [Endpoint.IsAtMost, Endpoint.toEReal]
  · cases h <;> simp [Endpoint.IsAtLeast, Endpoint.toEReal]

theorem eq_of_finite? (h : i.finite? = some (low, high)) : i = ⟨.finite low, .finite high⟩ := by
  obtain ⟨l, u⟩ := i
  cases l <;> cases u <;> simp_all [finite?]

/-- A point whose power is finite is finite. -/
theorem exists_real_of_pow_eq {x : EReal} (hk : 1 ≤ k) {q : ℝ} (h : x ^ k = q) :
    ∃ y : ℝ, x = y ∧ y ^ k = q := by
  have hne : k ≠ 0 := Nat.one_le_iff_ne_zero.mp hk
  induction x with
  | coe y => exact ⟨y, rfl, by exact_mod_cast h⟩
  | top => simp [ereal_top_pow hne] at h
  | bot =>
    rcases Nat.even_or_odd k with heven | hodd
    · simp [ereal_bot_pow_of_even heven hne] at h
    · simp [ereal_bot_pow_of_odd hodd] at h

theorem pow_one (i : Interval) : i.pow 1 = i := by
  obtain ⟨l, h⟩ := i
  cases l <;> cases h <;> simp [pow, Endpoint.pow, Number.pow_eq]

/-- The ends of a bounded power are powers of real points, and the powers of all real points lie between
them. -/
theorem finite_pow_hull (hi : i.low.le i.high = true) (hk : 1 ≤ k)
    (h : (i.pow k).finite? = some (low, high)) :
    (∃ x, i.ContainsReal x ∧ x ^ k = low) ∧ (∃ x, i.ContainsReal x ∧ x ^ k = high) ∧
      ∀ x, i.ContainsReal x → (low : ℝ) ≤ x ^ k ∧ x ^ k ≤ high := by
  obtain ⟨⟨⟨l, hl, hlow⟩, -⟩, ⟨u, hu, hhigh⟩, -⟩ := pow_isLeast_isGreatest hi hk
  rw [eq_of_finite? h] at hlow hhigh
  obtain ⟨l, rfl, hleast⟩ := exists_real_of_pow_eq hk hlow
  obtain ⟨u, rfl, hgreatest⟩ := exists_real_of_pow_eq hk hhigh
  refine ⟨⟨l, containsReal_iff.mpr hl, hleast⟩, ⟨u, containsReal_iff.mpr hu, hgreatest⟩,
    fun x hx => ?_⟩
  have hmem := pow_mem_extended (containsReal_iff.mp hx) k
  rw [eq_of_finite? h, ← EReal.coe_pow] at hmem
  exact ⟨EReal.coe_le_coe_iff.mp hmem.1, EReal.coe_le_coe_iff.mp hmem.2⟩

end Interval

/-- The ends of the range of a distribution with accepted parameters are in order. -/
theorem Distribution.Accepted.range_le {r : Distribution} (hr : r.Accepted) :
    r.range.low.le r.range.high = true := by
  cases r <;> simp_all [Distribution.Accepted, Distribution.range, Endpoint.le]

theorem Distribution.Accepted.exists_mem_range {r : Distribution} (hr : r.Accepted) :
    ∃ y, r.range.ContainsReal y := by
  cases r with
  | uniform low high => exact ⟨low, le_rfl, Rat.cast_le.mpr hr⟩
  | geometric p => exact ⟨1, by simp [Distribution.range, Endpoint.IsAtMost], trivial⟩
  | unknown s => exact hr.elim
  | _ => exact ⟨0, by simp [Interval.ContainsReal, Distribution.range, Endpoint.IsAtMost,
      Endpoint.IsAtLeast]⟩

namespace Program

variable {p : Program} {x : RealValuation} {n : ℕ}

/-! ### Draws -/

/-- Real values that an iteration may draw. -/
def RealDraws (p : Program) (x : RealValuation) : Prop :=
  ∀ d ∈ p.declarations, ∀ r, d.update = .random r → (r.support 1).ContainsReal (x d.symbol)

/-- The values of a product of draws. -/
def products (p : Program) (m : Monomial) (n : ℕ) : Set ℝ :=
  {y | ∃ x, p.RealDraws x ∧ m.realValue n x = y}

/-- Each variable is declared once, and draws come from distributions with accepted parameters. -/
structure Drawable (p : Program) : Prop where
  nodup : p.vars.Nodup
  accepted : ∀ d ∈ p.declarations, ∀ r, d.update = .random r → r.Accepted

theorem drawable_of_build {d : Draft} (hbuild : d.build = .ok p)
    (hnamed : ∀ u ∈ d.updates, ∀ r, u.2 = .random r →
      ∃ name parameters, Distribution.ofName name parameters = .ok r) : p.Drawable := by
  refine ⟨(Draft.nodup_vars_of_build hbuild).2, fun c hc r hr => ?_⟩
  rcases List.mem_append.mp (Draft.mem_of_build hbuild hc).1 with hconstant | hupdate
  · rw [hr] at hconstant
    obtain ⟨hbranches, -⟩ := Draft.exists_initial_of_mem_constants hconstant
    cases hbranches
  · obtain ⟨name, parameters, hname⟩ := hnamed _ hupdate r hr
    exact Source.accepted_of_ofName hname

theorem Drawable.update?_eq (hp : p.Drawable) {d : Declaration} (hd : d ∈ p.declarations) :
    p.update? d.symbol = some d.update := by
  rw [update?, declaration?, find?_eq_some_of_nodup hp.nodup hd, Option.map_some]

/-- A random variable is declared with a distribution. -/
theorem exists_of_isRandom {s : Symbol} (hs : p.isRandom s = true) :
    ∃ d ∈ p.declarations, d.symbol = s ∧ ∃ r, d.update = .random r := by
  obtain ⟨u, hu, hrandom⟩ := (Option.any_eq_true _ _).mp hs
  obtain ⟨d, hfind, rfl⟩ := Option.map_eq_some_iff.mp hu
  refine ⟨d, List.mem_of_find?_eq_some hfind, by simpa using List.find?_some hfind, ?_⟩
  cases hupdate : d.update with
  | branches bs => rw [hupdate] at hrandom; cases hrandom
  | random r => exact ⟨r, rfl⟩

/-- There are values to draw. -/
theorem Drawable.exists_realDraws (hp : p.Drawable) : ∃ x, p.RealDraws x := by
  have hpoint : ∀ s, ∃ y : ℝ, ∀ d ∈ p.declarations, d.symbol = s →
      ∀ r, d.update = .random r → (r.support 1).ContainsReal y := by
    intro s
    by_cases hs : p.isRandom s = true
    · obtain ⟨d, hd, rfl, r, hr⟩ := exists_of_isRandom hs
      obtain ⟨y, hy⟩ := (hp.accepted d hd r hr).exists_mem_range
      refine ⟨y, fun c hc heq r' hr' => ?_⟩
      have hupdate := (hp.update?_eq hc).symm.trans
        ((congrArg p.update? heq).trans (hp.update?_eq hd))
      rw [Option.some.inj hupdate, hr] at hr'
      rwa [← Update.random.inj hr', Distribution.support, Interval.pow_one]
    · refine ⟨0, fun d hd heq r hr => absurd ?_ hs⟩
      rw [isRandom, ← heq, hp.update?_eq hd, hr]
      rfl
  choose x hx using hpoint
  exact ⟨x, fun d hd => hx d.symbol d hd rfl⟩

/-- Another value of one variable makes no difference to the others. -/
theorem RealDraws.set (hp : p.Drawable) (hx : p.RealDraws x) {d : Declaration}
    (hd : d ∈ p.declarations) {r : Distribution} (hr : d.update = .random r) {y : ℝ}
    (hy : (r.support 1).ContainsReal y) : p.RealDraws (Function.update x d.symbol y) := by
  intro c hc r' hr'
  by_cases heq : c.symbol = d.symbol
  · have hupdate := (hp.update?_eq hc).symm.trans ((congrArg p.update? heq).trans (hp.update?_eq hd))
    rw [Option.some.inj hupdate, hr] at hr'
    rw [heq, Function.update_self, ← Update.random.inj hr']
    exact hy
  · rw [Function.update_of_ne heq]
    exact hx c hc r' hr'

/-! ### Products -/

/-- A product of powers of real values. -/
noncomputable def realProduct (x : RealValuation) (powers : List (Symbol × ℕ)) : ℝ :=
  (powers.map fun q => x q.1 ^ q.2).prod

theorem realProduct_update {s : Symbol} {y : ℝ} {l : List (Symbol × ℕ)} (h : ∀ q ∈ l, q.1 ≠ s) :
    realProduct (Function.update x s y) l = realProduct x l :=
  congrArg List.prod (List.map_congr_left fun q hq => by rw [Function.update_of_ne (h q hq)])

theorem realValue_eq_realProduct {m : Monomial} (hm : m.Over p.vars) :
    m.realValue n x = realProduct x m.powers := by
  rw [Monomial.realValue, hm.base_eq_one, Rat.cast_one, one_pow, mul_one]
  refine congrArg List.prod (List.map_congr_left fun q hq => ?_)
  obtain ⟨d, -, heq⟩ := List.mem_map.mp (hm.mem_vars q hq)
  rw [← heq]
  rfl

/-- A product of two real numbers lies between the products of their bounds. -/
theorem real_mul_mem_corners {low high l h : Rat} {a b : Rat} {y z : ℝ}
    (hy : (low : ℝ) ≤ y ∧ y ≤ high) (hz : (l : ℝ) ≤ z ∧ z ≤ h)
    (ha : Number.minimum? [low * l, low * h, high * l, high * h] = some a)
    (hb : Number.maximum? [low * l, low * h, high * l, high * h] = some b) :
    (a : ℝ) ≤ y * z ∧ y * z ≤ b := by
  have hfirst : (Interval.mk (.finite low) (.finite high)).ContainsReal y := hy
  have hsecond : (Interval.mk (.finite l) (.finite h)).ContainsReal z := hz
  obtain ⟨f, hf, hflim⟩ := hfirst.exists_tendsto
  obtain ⟨g, hg, hglim⟩ := hsecond.exists_tendsto
  have hmem : ∀ k, a ≤ f k * g k ∧ f k * g k ≤ b := fun k =>
    mul_mem_corners ((hf k).of_finite? rfl) ((hg k).of_finite? rfl) ha hb
  have hlim := hflim.mul hglim
  exact ⟨ge_of_tendsto' hlim fun k => by exact_mod_cast (hmem k).1,
    le_of_tendsto' hlim fun k => by exact_mod_cast (hmem k).2⟩

/-- What folding up the range of one more factor does to the ends. -/
theorem exists_of_factorRange_cons (hp : p.Drawable) {s : Symbol} {k : ℕ} {l : List (Symbol × ℕ)}
    (hs : p.isRandom s = true) (hk : 1 ≤ k) {low high : Rat} {range : Rat × Rat}
    (h : p.factorRange (low, high) ((s, k) :: l) = .ok range) :
    ∃ least greatest a b : Rat,
      (∀ e ∈ [least, greatest], ∀ x, p.RealDraws x → ∃ y : ℝ, y ^ k = e ∧
        p.RealDraws (Function.update x s y)) ∧
      (∀ x, p.RealDraws x → (least : ℝ) ≤ x s ^ k ∧ x s ^ k ≤ greatest) ∧
      Number.minimum? [low * least, low * greatest, high * least, high * greatest] = some a ∧
      Number.maximum? [low * least, low * greatest, high * least, high * greatest] = some b ∧
      p.factorRange (a, b) l = .ok range := by
  obtain ⟨d, hd, rfl, r, hr⟩ := exists_of_isRandom hs
  rw [factorRange, hp.update?_eq hd, hr, Option.bind_some, Update.support, Option.bind_some] at h
  split at h
  · cases h
  · next least greatest hfinite =>
    obtain ⟨⟨y, hy, hleast⟩, ⟨z, hz, hgreatest⟩, hbetween⟩ :=
      Interval.finite_pow_hull (hp.accepted d hd r hr).range_le hk hfinite
    have hrange : ∀ y, r.range.ContainsReal y → (r.support 1).ContainsReal y := fun y hy => by
      rwa [Distribution.support, Interval.pow_one]
    refine ⟨least, greatest, _, _, ?_, fun x hx => ?_, rfl, rfl, h⟩
    · intro e he x hx
      rcases List.mem_pair.mp he with rfl | rfl
      · exact ⟨y, hleast, hx.set hp hd hr (hrange y hy)⟩
      · exact ⟨z, hgreatest, hx.set hp hd hr (hrange z hz)⟩
    · have hmem := hx d hd r hr
      rw [Distribution.support, Interval.pow_one] at hmem
      exact hbetween _ hmem

/-- Folding up the ranges of the factors keeps the ends attained and all products between them. -/
theorem factorRange_hull (hp : p.Drawable) {l : List (Symbol × ℕ)}
    (hsorted : Assoc.Sorted Symbol.cmp l) (hl : ∀ q ∈ l, p.isRandom q.1 = true ∧ 0 < q.2)
    {ends range : Rat × Rat} (h : p.factorRange ends l = .ok range) :
    (∀ e ∈ [range.1, range.2], ∃ c ∈ [ends.1, ends.2], ∃ x, p.RealDraws x ∧
        (c : ℝ) * realProduct x l = e) ∧
      ∀ c : ℝ, (ends.1 : ℝ) ≤ c ∧ c ≤ ends.2 → ∀ x, p.RealDraws x →
        (range.1 : ℝ) ≤ c * realProduct x l ∧ c * realProduct x l ≤ range.2 := by
  induction l generalizing ends with
  | nil =>
    obtain rfl := Except.ok.inj h
    obtain ⟨x, hx⟩ := hp.exists_realDraws
    refine ⟨fun e he => ⟨e, he, x, hx, by simp [realProduct]⟩, fun c hc x _ => ?_⟩
    simpa [realProduct] using hc
  | cons q l ih =>
    obtain ⟨s, k⟩ := q
    obtain ⟨low, high⟩ := ends
    obtain ⟨⟨hs, hk⟩, hrest⟩ := List.forall_mem_cons.mp hl
    obtain ⟨least, greatest, a, b, hattained, hbetween, ha, hb, hfold⟩ :=
      exists_of_factorRange_cons hp hs hk h
    obtain ⟨hends, hall⟩ := ih (List.pairwise_cons.mp hsorted).2 hrest hfold
    have hcorners : ∀ c ∈ [a, b], ∃ c' ∈ [low, high], ∃ e ∈ [least, greatest], c = c' * e := by
      intro c hc
      have hmem : c ∈ [low * least, low * greatest, high * least, high * greatest] := by
        rcases List.mem_pair.mp hc with rfl | rfl
        · exact Number.minimum?_mem ha
        · exact Number.maximum?_mem hb
      simp only [List.mem_cons, List.not_mem_nil, or_false] at hmem
      rcases hmem with rfl | rfl | rfl | rfl <;> simp
    constructor
    · intro e he
      obtain ⟨c, hc, x, hx, hproduct⟩ := hends e he
      obtain ⟨c', hc', f, hf, rfl⟩ := hcorners c hc
      obtain ⟨y, hy, hdraws⟩ := hattained f hf x hx
      refine ⟨c', hc', _, hdraws, ?_⟩
      rw [← hproduct, realProduct, List.map_cons, List.prod_cons, Function.update_self, hy]
      change (c' : ℝ) * (f * realProduct (Function.update x s y) l) = _
      rw [realProduct_update hsorted.ne_of_mem]
      push_cast
      ring
    · intro c hc x hx
      have hmem := hall _ (real_mul_mem_corners hc (hbetween x hx) ha hb) x hx
      rwa [mul_assoc] at hmem

/-- The range of a product of draws, if it has one, is the smallest interval that holds the values of the
product, and both of its ends are attained. The power of an interval holds the powers of its points, those
at infinity included. For positive exponents its ends are the least and the greatest of them, and no
interval that holds the powers of the real points alone is smaller. -/
theorem randomRange_hull {d : Draft} (hbuild : d.build = .ok p)
    (hnamed : ∀ u ∈ d.updates, ∀ r, u.2 = .random r →
      ∃ name parameters, Distribution.ofName name parameters = .ok r) :
    (∀ (m : Monomial) (n : ℕ) (low high : Rat), m.Over p.drawnVars →
      p.randomRange m = .ok (low, high) →
        IsLeast (p.products m n) low ∧ IsGreatest (p.products m n) high) ∧
    ∀ (i : Interval) (k : ℕ), i.low.le i.high = true →
      (∀ x ∈ i.extended, x ^ k ∈ (i.pow k).extended) ∧
      (1 ≤ k → IsLeast ((· ^ k) '' i.extended) (i.pow k).low.toEReal ∧
        IsGreatest ((· ^ k) '' i.extended) (i.pow k).high.toEReal ∧
        ∀ a b : EReal, (∃ x : ℝ, (x : EReal) ∈ i.extended) →
          (∀ x : ℝ, (x : EReal) ∈ i.extended → ((x ^ k : ℝ) : EReal) ∈ Set.Icc a b) →
            (i.pow k).extended ⊆ Set.Icc a b) := by
  have hp := drawable_of_build hbuild hnamed
  constructor
  · intro m n low high hm h
    have hrandom : ∀ q ∈ m.powers, p.isRandom q.1 = true ∧ 0 < q.2 := fun q hq =>
      ⟨(List.mem_filter.mp (hm.mem_vars q hq)).2, hm.powers_pos q hq⟩
    have hvalue : ∀ x, m.realValue n x = realProduct x m.powers := fun x =>
      realValue_eq_realProduct (Over.vars_of_drawn hm)
    obtain ⟨hends, hall⟩ := factorRange_hull hp hm.sorted hrandom h
    have hattained : ∀ e ∈ [low, high], (e : ℝ) ∈ p.products m n := fun e he => by
      obtain ⟨c, hc, x, hx, hproduct⟩ := hends e he
      have hone : c = 1 := by simpa using hc
      exact ⟨x, hx, by rw [hvalue, ← hproduct, hone, Rat.cast_one, one_mul]⟩
    have hbetween : ∀ y ∈ p.products m n, (low : ℝ) ≤ y ∧ y ≤ high := by
      rintro y ⟨x, hx, rfl⟩
      have hmem := hall 1 (by simp) x hx
      rwa [one_mul, ← hvalue] at hmem
    exact ⟨⟨hattained low (by simp), fun y hy => (hbetween y hy).1⟩,
      hattained high (by simp), fun y hy => (hbetween y hy).2⟩
  · intro i k hi
    refine ⟨fun x hx => Interval.pow_mem_extended hx k, fun hk => ?_⟩
    obtain ⟨hleast, hgreatest⟩ := Interval.pow_isLeast_isGreatest hi hk
    exact ⟨hleast, hgreatest, fun a b hpoint h => Interval.pow_extended_subset hk h hpoint⟩

/-- A loop with draws on both sides of zero. -/
def scattered : Draft where
  initial := []
  updates := [("u", .random (.uniform (-3) 2)), ("w", .random (.uniform (-2) 1))]
  guard := some (.ofSymbol (.var "u"))

/-- The square of one draw times the other reaches both ends of its range. -/
theorem randomRange_scattered :
    ∃ p m, scattered.build = .ok p ∧ m.powers = [(Symbol.var "u", 2), (.var "w", 1)] ∧
      IsLeast (p.products m 0) ((-18 : Rat) : ℝ) ∧ IsGreatest (p.products m 0) ((9 : Rat) : ℝ) ∧
      ((Interval.mk (.finite (-3)) .posInf).pow 2).extended ⊆ Set.Icc 0 ⊤ := by
  let p : Program := ⟨[⟨"u", Draft.unknownInitial "u", .random (.uniform (-3) 2)⟩,
    ⟨"w", Draft.unknownInitial "w", .random (.uniform (-2) 1)⟩], .ofSymbol (.var "u")⟩
  let m : Monomial := ⟨[(.var "u", 2), (.var "w", 1)], 1⟩
  have hbuild : scattered.build = .ok p := by decide +kernel
  have hnamed : ∀ u ∈ scattered.updates, ∀ r, u.2 = .random r →
      ∃ name parameters, Distribution.ofName name parameters = .ok r := by
    intro u hu r hr
    rcases List.mem_pair.mp hu with rfl | rfl <;> obtain rfl := Update.random.inj hr
    · exact ⟨"uniform", [-3, 2], by decide +kernel⟩
    · exact ⟨"uniform", [-2, 1], by decide +kernel⟩
  have hm : m.Over p.drawnVars := by
    refine ⟨⟨?_, ?_, one_ne_zero⟩, rfl, ?_⟩
    · simp [Assoc.Sorted, m]
      decide
    · decide
    · decide
  obtain ⟨hproducts, hpowers⟩ := randomRange_hull hbuild hnamed
  obtain ⟨hleast, hgreatest⟩ := hproducts m 0 (-18) 9 hm (by decide +kernel)
  obtain ⟨-, -, hsmallest⟩ := (hpowers ⟨.finite (-3), .posInf⟩ 2 rfl).2 (by decide)
  refine ⟨p, m, hbuild, rfl, hleast, hgreatest, hsmallest 0 ⊤ ⟨0, ?_⟩ fun x _ => ⟨?_, le_top⟩⟩
  · constructor <;> simp [Endpoint.toEReal]
  · exact EReal.coe_nonneg.mpr (sq_nonneg x)

end Program

end ProbLoop
