import ProbLoop.Program.Initial
import ProbLoop.Proofs.Expr.Sign
import ProbLoop.Proofs.Expr.Within
import ProbLoop.Proofs.Interval
import ProbLoop.Proofs.Polarity
import ProbLoop.Proofs.Program.Execution

/-!
# Signs before the first iteration

A polynomial is affine in each of the powers that occur in it, so on a box of values of the powers it
is between its values at two corners.
-/

set_option autoImplicit false

namespace ProbLoop

theorem Update.contains_range {d : Distribution} {v : Valuation} {q : Rat}
    (h : (Update.random d).Assigns v q) : d.range.Contains q := by
  cases d with
  | unknown x => simp [Distribution.range, Interval.Contains, Endpoint.le]
  | _ => exact h

/-- The power of a value that may be assigned lies in the support. -/
theorem Update.contains_support {u : Update} {v : Valuation} {q : Rat} (h : u.Assigns v q) {k : Nat}
    {i : Interval} (hs : u.support k = some i) : i.Contains (q ^ k) := by
  cases u with
  | random d =>
    obtain rfl := Option.some.inj hs
    exact (contains_range h).pow k
  | branches bs =>
    obtain ⟨b, hb, rfl⟩ := h
    rw [support] at hs
    cases hvalues : bs.mapM fun b => b.1.constant?.map (Number.pow · k) with
    | none => simp [hvalues] at hs
    | some values =>
      have hmem : b.1.value 0 v ^ k ∈ values := by
        obtain ⟨x, hx, hconst⟩ := forall₂_exists_of_mem (forall₂_of_mapM_eq_some hvalues) b hb
        obtain ⟨c, hc, rfl⟩ := Option.map_eq_some_iff.mp hconst
        rwa [Expr.value_of_constant? hc, ← Number.pow_eq]
      rw [hvalues] at hs
      simp only at hs
      split at hs
      · next low high hlow hhigh =>
        rw [← Option.some.inj hs]
        have hle := Number.minimum?_le hlow _ hmem
        have hge := Number.le_maximum? hhigh _ hmem
        simpa [Interval.Contains, Endpoint.le] using ⟨hle, hge⟩
      · simp at hs

namespace Program

variable {p : Program}

/-! ### Corners of a box -/

section Corners

/-- A power of a symbol, whose values form one side of a box. -/
abbrev Atom := Symbol × Nat

/-- Values of powers, with those of a corner in place of some. -/
def override (x : Atom → Rat) (corner : List (Atom × Rat)) (a : Atom) : Rat :=
  (Assoc.find? a corner).getD (x a)

/-- The function is affine in every power. -/
def MultiAffine (f : (Atom → Rat) → Rat) : Prop :=
  ∀ x a, ∃ A B, ∀ y, f (Function.update x a y) = A + B * y

variable {f : (Atom → Rat) → Rat}

theorem MultiAffine.neg (hf : MultiAffine f) : MultiAffine fun x => -f x := by
  intro x a
  obtain ⟨A, B, h⟩ := hf x a
  refine ⟨-A, -B, fun y => ?_⟩
  show -f (Function.update x a y) = -A + -B * y
  rw [h y]
  ring

theorem MultiAffine.le_end (hf : MultiAffine f) {x : Atom → Rat} {a : Atom} {low high : Rat}
    (hlow : low ≤ x a) (hhigh : x a ≤ high) :
    f x ≤ f (Function.update x a low) ∨ f x ≤ f (Function.update x a high) := by
  obtain ⟨A, B, h⟩ := hf x a
  have hself := h (x a)
  rw [Function.update_eq_self] at hself
  rw [hself, h low, h high]
  rcases le_total 0 B with hB | hB
  · right
    nlinarith
  · left
    nlinarith

theorem keys_of_mem_corners {ranges : List (Atom × Rat × Rat)} :
    ∀ corner ∈ corners ranges, corner.map (·.1) = ranges.map (·.1) := by
  induction ranges with
  | nil => simp [corners]
  | cons r ranges ih =>
    intro corner hc
    obtain ⟨rest, hrest, hc⟩ := List.mem_flatMap.mp hc
    simp only [List.mem_cons, List.not_mem_nil, or_false] at hc
    rcases hc with rfl | rfl
    · rw [List.map_cons, List.map_cons, ih rest hrest]
    · rw [List.map_cons, List.map_cons, ih rest hrest]

/-- On a box the function is at most its value at some corner. -/
theorem MultiAffine.exists_corner (hf : MultiAffine f) {ranges : List (Atom × Rat × Rat)}
    (hnodup : (ranges.map (·.1)).Nodup) {x : Atom → Rat}
    (hx : ∀ r ∈ ranges, r.2.1 ≤ x r.1 ∧ x r.1 ≤ r.2.2) :
    ∃ corner ∈ corners ranges, f x ≤ f (override x corner) := by
  induction ranges generalizing x with
  | nil => exact ⟨[], by simp [corners], le_rfl⟩
  | cons r ranges ih =>
    obtain ⟨a, low, high⟩ := r
    obtain ⟨⟨hlow, hhigh⟩, hrest⟩ := List.forall_mem_cons.mp hx
    rw [List.map_cons, List.nodup_cons] at hnodup
    have hend : ∃ y, (y = low ∨ y = high) ∧ f x ≤ f (Function.update x a y) := by
      rcases hf.le_end hlow hhigh with h | h
      · exact ⟨low, Or.inl rfl, h⟩
      · exact ⟨high, Or.inr rfl, h⟩
    obtain ⟨y, hy, hle⟩ := hend
    have hne : ∀ r ∈ ranges, r.1 ≠ a :=
      fun r hr heq => hnodup.1 (List.mem_map.mpr ⟨r, hr, heq⟩)
    obtain ⟨corner, hc, hcorner⟩ := ih hnodup.2 (x := Function.update x a y) (by
      intro r hr
      rw [Function.update_of_ne (hne r hr)]
      exact hrest r hr)
    have hkeys : ∀ e ∈ corner, e.1 ≠ a := by
      intro e he heq
      apply hnodup.1
      rw [← keys_of_mem_corners corner hc, ← heq]
      exact List.mem_map_of_mem he
    have hoverride : override (Function.update x a y) corner = override x ((a, y) :: corner) := by
      funext b
      rw [override, override, Assoc.find?]
      by_cases hb : a = b
      · subst hb
        rw [if_pos rfl, Assoc.find?_eq_none hkeys]
        simp
      · rw [if_neg hb, Function.update_of_ne (Ne.symm hb)]
    refine ⟨(a, y) :: corner, List.mem_flatMap.mpr ⟨corner, hc, ?_⟩, ?_⟩
    · rcases hy with rfl | rfl <;> simp
    · rw [← hoverride]
      exact hle.trans hcorner

/-- The value of a polynomial in which every power has a value of its own. -/
def boxValue (terms : List (Monomial × Rat)) (x : Atom → Rat) : Rat :=
  (terms.map fun t => t.2 * (t.1.powers.map x).prod).sum

theorem prod_affine {l : List Atom} (hl : l.Nodup) (x : Atom → Rat) (a : Atom) :
    ∃ A B, ∀ y, (l.map (Function.update x a y)).prod = A + B * y := by
  induction l with
  | nil => exact ⟨1, 0, by simp⟩
  | cons b l ih =>
    rw [List.nodup_cons] at hl
    by_cases hb : b = a
    · subst hb
      refine ⟨0, (l.map x).prod, fun y => ?_⟩
      have hrest : l.map (Function.update x b y) = l.map x :=
        List.map_congr_left fun c hc => Function.update_of_ne (ne_of_mem_of_not_mem hc hl.1) y x
      rw [List.map_cons, List.prod_cons, Function.update_self, hrest]
      ring
    · obtain ⟨A, B, h⟩ := ih hl.2
      refine ⟨x b * A, x b * B, fun y => ?_⟩
      rw [List.map_cons, List.prod_cons, Function.update_of_ne hb, h y]
      ring

theorem multiAffine_boxValue {terms : List (Monomial × Rat)}
    (h : ∀ t ∈ terms, t.1.powers.Nodup) : MultiAffine (boxValue terms) := by
  intro x a
  induction terms with
  | nil => exact ⟨0, 0, by simp [boxValue]⟩
  | cons t terms ih =>
    obtain ⟨ht, hterms⟩ := List.forall_mem_cons.mp h
    obtain ⟨A, B, hrest⟩ := ih hterms
    obtain ⟨C, D, hprod⟩ := prod_affine ht x a
    refine ⟨t.2 * C + A, t.2 * D + B, fun y => ?_⟩
    have hcons : boxValue (t :: terms) (Function.update x a y) =
        t.2 * (t.1.powers.map (Function.update x a y)).prod +
          boxValue terms (Function.update x a y) := by
      rw [boxValue, List.map_cons, List.sum_cons, boxValue]
    rw [hcons, hrest y, hprod y]
    ring

theorem boxValue_congr {terms : List (Monomial × Rat)} {x y : Atom → Rat}
    (h : ∀ t ∈ terms, ∀ a ∈ t.1.powers, x a = y a) : boxValue terms x = boxValue terms y := by
  refine congrArg List.sum (List.map_congr_left fun t ht => ?_)
  rw [List.map_congr_left (h t ht)]

theorem atCorner_eq (terms : List (Monomial × Rat)) (corner : List (Atom × Rat)) :
    atCorner terms corner = boxValue terms (override (fun _ => 0) corner) := by
  have hprod : ∀ (l : List Atom) (c : Rat),
      l.foldl (fun acc a => acc * (Assoc.find? a corner).getD 0) c =
        c * (l.map (override (fun _ => 0) corner)).prod := by
    intro l
    induction l with
    | nil => simp
    | cons a l ih =>
      intro c
      rw [List.foldl_cons, ih, List.map_cons, List.prod_cons, override]
      ring
  have hsum : ∀ (l : List Rat) (c : Rat), l.foldl (· + ·) c = c + l.sum := by
    intro l
    induction l with
    | nil => simp
    | cons a l ih =>
      intro c
      rw [List.foldl_cons, ih, List.sum_cons, add_assoc]
  rw [atCorner, Number.sum, hsum, zero_add, boxValue]
  exact congrArg List.sum (List.map_congr_left fun t _ => hprod t.1.powers t.2)

theorem atoms_spec (monomials : List Monomial) :
    (atoms monomials).Nodup ∧ ∀ m ∈ monomials, ∀ a ∈ m.powers, a ∈ atoms monomials := by
  have hfold : ∀ l acc : List Atom, acc.Nodup →
      (l.foldl (fun acc a => if acc.contains a then acc else acc ++ [a]) acc).Nodup ∧
        ∀ a ∈ acc ++ l, a ∈ l.foldl (fun acc a => if acc.contains a then acc else acc ++ [a]) acc := by
    intro l
    induction l with
    | nil => exact fun acc hacc => ⟨hacc, by simp⟩
    | cons b l ih =>
      intro acc hacc
      rw [List.foldl_cons]
      by_cases hb : acc.contains b = true
      · rw [if_pos hb]
        obtain ⟨hnodup, hmem⟩ := ih acc hacc
        refine ⟨hnodup, fun a ha => hmem a ?_⟩
        have hin : b ∈ acc := by simpa using hb
        simp only [List.mem_append, List.mem_cons] at ha ⊢
        rcases ha with ha | rfl | ha
        · exact Or.inl ha
        · exact Or.inl hin
        · exact Or.inr ha
      · rw [if_neg hb]
        have hout : b ∉ acc := by simpa using hb
        obtain ⟨hnodup, hmem⟩ := ih (acc ++ [b]) (by
          rw [List.nodup_append]
          refine ⟨hacc, List.nodup_singleton b, fun a ha c hc => ?_⟩
          rw [List.mem_singleton.mp hc]
          exact fun h => hout (h ▸ ha))
        exact ⟨hnodup, fun a ha => hmem a (by simpa using ha)⟩
  obtain ⟨hnodup, hmem⟩ := hfold (monomials.flatMap (·.powers)) [] List.nodup_nil
  refine ⟨hnodup, fun m hm a ha => hmem a ?_⟩
  simpa using ⟨m, hm, ha⟩

end Corners

section Initial

variable {v : Valuation} {e : Expr}

theorem exists_declaration {s : Symbol} {u : Update} (h : p.initial? s = some u) :
    ∃ d ∈ p.declarations, d.symbol = s ∧ d.initial = u := by
  obtain ⟨d, hd, rfl⟩ := Option.map_eq_some_iff.mp h
  exact ⟨d, List.mem_of_find?_eq_some hd, by simpa using List.find?_some hd, rfl⟩

theorem IsInitial.assigns (hv : p.IsInitial v) {s : Symbol} {u : Update}
    (h : p.initial? s = some u) : u.Assigns v (v s) := by
  obtain ⟨d, hd, rfl, rfl⟩ := exists_declaration h
  exact hv d hd

theorem WellFormed.fixedInitial?_eq (hp : p.WellFormed) (hv : p.IsInitial v) {s : Symbol}
    {f : Expr} (h : p.fixedInitial? s = some f) : f = .const (v s) := by
  unfold fixedInitial? at h
  split at h
  · obtain ⟨u, hu, hf⟩ := Option.bind_eq_some_iff.mp h
    have hassigns := hv.assigns hu
    obtain ⟨d, hd, -, rfl⟩ := exists_declaration hu
    have hstarts := hp.starts d hd
    unfold Update.single? at hf
    split at hf
    · next g q hbranches =>
      obtain rfl := Option.some.inj hf
      rw [hbranches] at hstarts hassigns
      obtain ⟨c, hc⟩ := hstarts.2 (g, q) List.mem_cons_self
      obtain ⟨b, hb, hvalue⟩ := hassigns
      rw [List.mem_singleton.mp hb] at hvalue
      simp only at hc hvalue
      rw [hvalue, hc, Expr.value_const]
    · simp at hf
  · simp at h

theorem WellFormed.within_initialValue (hp : p.WellFormed) (hv : p.IsInitial v)
    (he : e.Canonical) :
    ∃ vars, (p.initialValue e).Within vars := by
  refine ⟨(e.atIteration 0).freeSymbols, ?_⟩
  apply (he.atIteration 0).within_freeSymbols.substAll
  · intro s f hf
    rw [hp.fixedInitial?_eq hv hf]
    exact Expr.within_const _
  · exact fun s hs _ => hs

theorem WellFormed.value_initialValue (hp : p.WellFormed) (hv : p.IsInitial v) (he : e.Canonical)
    (n : Nat) : (p.initialValue e).value n v = e.value 0 v := by
  rw [initialValue, Expr.value_substAll _ _ (by simp [fixedInitial?, Symbol.isVar])]
  have hsame : (fun s => ((p.fixedInitial? s).map (Expr.value n v)).getD (v s)) = v := by
    funext s
    cases hs : p.fixedInitial? s with
    | none => rfl
    | some f => rw [hp.fixedInitial?_eq hv hs, Option.map_some, Expr.value_const, Option.getD_some]
  rw [hsame, Expr.value_atIteration n v he]

theorem prod_powers {m : Monomial} (hm : m.isPlain = true) :
    (m.powers.map fun a => v a.1 ^ a.2).prod = m.value 0 v := by
  have hprod : ∀ l : List Atom, (∀ a ∈ l, a.1.isVar = true) →
      (l.map fun a => v a.1 ^ a.2).prod = Monomial.powerProduct (Symbol.value 0 v) l := by
    intro l
    induction l with
    | nil => exact fun _ => rfl
    | cons a l ih =>
      intro hvar
      obtain ⟨ha, hl⟩ := List.forall_mem_cons.mp hvar
      have hvalue : a.1.value 0 v = v a.1 := by
        cases hs : a.1 <;> simp_all [Symbol.value, Symbol.isVar]
      rw [List.map_cons, List.prod_cons, ih hl, Monomial.powerProduct_cons, hvalue]
  obtain ⟨hb, hvar⟩ := Monomial.isPlain_iff.mp hm
  rw [hprod m.powers hvar, Monomial.value_eq, hb, one_pow, mul_one]

theorem numericTerms?_spec {vars : List Symbol} (he : e.Within vars)
    {terms : List (Monomial × Rat)} (h : numericTerms? e = some terms) :
    (∀ t ∈ terms, t.1.powers.Nodup) ∧
      boxValue terms (fun a => v a.1 ^ a.2) = e.value 0 v := by
  have hgroups := forall₂_of_mapM_eq_some h
  rw [← Expr.value_collect 0 v Symbol.isVar e]
  have hgroup : ∀ g ∈ e.collect Symbol.isVar, g.1.isPlain = true ∧ g.1.powers.Nodup :=
    fun g hg => ⟨Expr.isPlain_of_mem_collect g hg, (he.collect g hg).1.sorted.nodup⟩
  unfold numericTerms? at h
  generalize e.collect Symbol.isVar = groups at hgroups hgroup
  clear h
  induction hgroups with
  | nil => exact ⟨by simp, rfl⟩
  | @cons g t groups terms hgt _ ih =>
    obtain ⟨⟨hplain, hg⟩, hrest⟩ := List.forall_mem_cons.mp hgroup
    obtain ⟨hnodup, hvalue⟩ := ih hrest
    obtain ⟨c, hc, rfl⟩ := Option.map_eq_some_iff.mp hgt
    constructor
    · intro t ht
      rcases List.mem_cons.mp ht with rfl | ht
      · exact hg
      · exact hnodup t ht
    · rw [boxValue, List.map_cons, List.sum_cons, ← boxValue, hvalue, List.map_cons, List.sum_cons,
        Expr.value_of_constant? hc, prod_powers hplain]

/-- The signs of the values at all corners are allowed. -/
theorem allows_foldl_corners (g : List (Atom × Rat) → Rat) (l : List (List (Atom × Rat)))
    (acc : Polarity) :
    (∀ q, acc.Allows q → (l.foldl (fun acc c => if acc = .both then acc
        else acc.or (Polarity.of (g c))) acc).Allows q) ∧
      ∀ c ∈ l, (l.foldl (fun acc c => if acc = .both then acc
        else acc.or (Polarity.of (g c))) acc).Allows (g c) := by
  induction l generalizing acc with
  | nil => exact ⟨fun q h => h, by simp⟩
  | cons c l ih =>
    rw [List.foldl_cons]
    by_cases hboth : acc = .both
    · subst hboth
      rw [if_pos rfl]
      obtain ⟨hkeep, hall⟩ := ih .both
      exact ⟨hkeep, List.forall_mem_cons.mpr ⟨hkeep _ (Polarity.allows_both _), hall⟩⟩
    · rw [if_neg hboth]
      obtain ⟨hkeep, hall⟩ := ih (acc.or (Polarity.of (g c)))
      refine ⟨fun q hq => hkeep q (Polarity.allows_or_left hq), ?_⟩
      exact List.forall_mem_cons.mpr
        ⟨hkeep _ (Polarity.allows_or_right (Polarity.allows_of _)), hall⟩

theorem atomRange?_spec (hv : p.IsInitial v) {a : Atom} {r : Atom × Rat × Rat}
    (h : p.atomRange? a = some r) :
    r.1 = a ∧ r.2.1 ≤ v a.1 ^ a.2 ∧ v a.1 ^ a.2 ≤ r.2.2 := by
  obtain ⟨i, hi, hr⟩ := Option.bind_eq_some_iff.mp h
  obtain ⟨u, hu, hsupport⟩ := Option.bind_eq_some_iff.mp hi
  obtain ⟨ends, hends, rfl⟩ := Option.map_eq_some_iff.mp hr
  exact ⟨rfl, (Update.contains_support (hv.assigns hu) hsupport).of_finite? hends⟩

theorem mapM_atomRange? (hv : p.IsInitial v) {powers : List Atom}
    {ranges : List (Atom × Rat × Rat)} (h : powers.mapM p.atomRange? = some ranges) :
    ranges.map (·.1) = powers ∧
      ∀ r ∈ ranges, r.2.1 ≤ v r.1.1 ^ r.1.2 ∧ v r.1.1 ^ r.1.2 ≤ r.2.2 := by
  have hforall := forall₂_of_mapM_eq_some h
  clear h
  induction hforall with
  | nil => simp
  | cons hr _ ih =>
    obtain ⟨hkey, hrange⟩ := atomRange?_spec hv hr
    obtain ⟨hkeys, hranges⟩ := ih
    constructor
    · rw [List.map_cons, hkeys, hkey]
    · intro r hr
      rcases List.mem_cons.mp hr with rfl | hr
      · rw [hkey]
        exact hrange
      · exact hranges r hr

theorem allows_corners (hv : p.IsInitial v) {terms : List (Monomial × Rat)}
    (hnodup : ∀ t ∈ terms, t.1.powers.Nodup) {ranges : List (Atom × Rat × Rat)}
    (hranges : (atoms (terms.map (·.1))).mapM p.atomRange? = some ranges) :
    ((corners ranges).foldl (fun (acc : Polarity) corner => if acc = .both then acc
        else acc.or (Polarity.of (atCorner terms corner))) .neither).Allows
      (boxValue terms fun a => v a.1 ^ a.2) := by
  obtain ⟨hkeys, hbox⟩ := mapM_atomRange? hv hranges
  obtain ⟨hatoms, hmem⟩ := atoms_spec (terms.map (·.1))
  rw [← hkeys] at hatoms hmem
  have hf := multiAffine_boxValue hnodup
  have hat : ∀ corner ∈ corners ranges,
      boxValue terms (override (fun a => v a.1 ^ a.2) corner) = atCorner terms corner := by
    intro corner hc
    rw [atCorner_eq]
    apply boxValue_congr
    intro t ht a ha
    have hkey := hmem t.1 (List.mem_map_of_mem ht) a ha
    rw [← keys_of_mem_corners corner hc] at hkey
    cases hfind : Assoc.find? a corner with
    | none => exact absurd hkey (Assoc.notMem_of_find?_eq_none hfind)
    | some y => simp [override, hfind]
  obtain ⟨-, hall⟩ := allows_foldl_corners (atCorner terms) (corners ranges) .neither
  obtain ⟨top, htop, hle⟩ := hf.exists_corner (x := fun a => v a.1 ^ a.2) hatoms hbox
  obtain ⟨bottom, hbottom, hge⟩ := hf.neg.exists_corner (x := fun a => v a.1 ^ a.2) hatoms hbox
  rw [hat top htop] at hle
  rw [hat bottom hbottom] at hge
  constructor
  · exact fun hpos => (hall top htop).1 (hpos.trans_le hle)
  · exact fun hneg => (hall bottom hbottom).2 (by linarith)

/-- The signs before the first iteration are allowed. -/
theorem WellFormed.initialPolarity_allows (hp : p.WellFormed) (hv : p.IsInitial v)
    (he : e.Canonical) : (p.initialPolarity e).Allows (e.value 0 v) := by
  obtain ⟨vars, hwithin⟩ := hp.within_initialValue hv he
  rw [← hp.value_initialValue hv he 0]
  unfold initialPolarity
  simp only
  split
  · next c hc =>
    rw [Expr.value_of_constant? hc]
    exact Polarity.allows_of c
  · exact Polarity.allows_both _
  · next terms hterms =>
    obtain ⟨hnodup, hvalue⟩ := numericTerms?_spec (v := v) hwithin hterms
    split
    · exact Polarity.allows_both _
    · split
      · exact Polarity.allows_both _
      · next ranges hranges =>
        rw [← hvalue]
        exact allows_corners hv hnodup hranges

end Initial

end Program

end ProbLoop
