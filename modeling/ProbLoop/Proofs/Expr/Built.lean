import ProbLoop.Proofs.Expr.Exponential
import ProbLoop.Proofs.Expr.Within

/-!
# Expressions that can be built

The operations on monomials and on expressions lead to the canonical ones and to no others. So every
function of the iterations and of the constants has at most one expression, however it is built.
-/

set_option autoImplicit false

namespace ProbLoop

namespace Monomial

/-- The monomials to which the operations on monomials lead. -/
inductive Built : Monomial → Prop
  | one : Built one
  | ofSymbol (s : Symbol) (k : Nat) : Built (ofSymbol s k)
  | exponential {base : Rat} (h : base ≠ 0) : Built (exponential base)
  | ofPowers (powers : List (Symbol × Nat)) : Built (ofPowers powers)
  | mul {a b : Monomial} (ha : Built a) (hb : Built b) : Built (a * b)
  | without {m : Monomial} (hm : Built m) (s : Symbol) : Built (m.without s)
  | kept {m : Monomial} (hm : Built m) (keep : Symbol → Bool) : Built (m.kept keep)
  | rest {m : Monomial} (hm : Built m) (keep : Symbol → Bool) : Built (m.rest keep)
  | root {m : Monomial} (hm : Built m) {d : Nat} (h : ∀ p ∈ m.powers, d ∣ p.2) : Built (m.root d)

theorem canonical_ofPowers (powers : List (Symbol × Nat)) : (ofPowers powers).Canonical := by
  unfold ofPowers
  apply List.foldlRecOn (motive := fun acc => (⟨acc, 1⟩ : Monomial).Canonical) powers _
    canonical_one
  intro acc hacc p _
  split
  · exact hacc
  · next hp =>
    refine ⟨Assoc.sorted_alter _ _ hacc.sorted, ?_, one_ne_zero⟩
    refine Assoc.forall_alter (fun old k _ hk => ?_) hacc.powers_pos
    have hk := Option.some.inj hk
    simp only at hk ⊢
    omega

theorem Built.canonical {m : Monomial} (h : m.Built) : m.Canonical := by
  induction h with
  | one => exact canonical_one
  | ofSymbol s k => exact canonical_ofSymbol s k
  | exponential h => exact canonical_exponential h
  | ofPowers powers => exact canonical_ofPowers powers
  | mul _ _ iha ihb => exact iha.mul ihb
  | without _ s ih => exact ih.without s
  | kept _ keep ih => exact ih.filter _ one_ne_zero
  | rest _ keep ih => exact ih.filter _ ih.base_ne_zero
  | root _ h ih => exact ih.root h

theorem ofSymbol_mul_cons {s : Symbol} {k : Nat} {l : List (Symbol × Nat)} (base : Rat) (hk : k ≠ 0)
    (hs : Assoc.Sorted Symbol.cmp ((s, k) :: l)) :
    ofSymbol s k * ⟨l, base⟩ = ⟨(s, k) :: l, base⟩ := by
  have hpowers : Assoc.merge Symbol.cmp (fun i j => some (i + j)) [(s, k)] l = (s, k) :: l := by
    cases l with
    | nil => rfl
    | cons p l =>
      have hlt : Symbol.cmp s p.1 = .lt := (List.pairwise_cons.mp hs).1 p List.mem_cons_self
      rw [Assoc.merge, Assoc.mergeOne, hlt]
      rfl
  change (⟨Assoc.merge Symbol.cmp _ (ofSymbol s k).powers l, 1 * base⟩ : Monomial) = _
  rw [ofSymbol, if_neg hk, hpowers, one_mul]

/-- A canonical monomial is the product of its powers and of its exponential. -/
theorem Canonical.built {m : Monomial} (hm : m.Canonical) : m.Built := by
  obtain ⟨powers, base⟩ := m
  induction powers with
  | nil => exact .exponential hm.base_ne_zero
  | cons p l ih =>
    have hp := List.forall_mem_cons.mp hm.powers_pos
    rw [← ofSymbol_mul_cons base (Nat.pos_iff_ne_zero.mp hp.1) hm.sorted]
    exact .mul (.ofSymbol _ _) (ih ⟨(List.pairwise_cons.mp hm.sorted).2, hp.2, hm.base_ne_zero⟩)

theorem built_iff_canonical {m : Monomial} : m.Built ↔ m.Canonical :=
  ⟨Built.canonical, Canonical.built⟩

end Monomial

namespace Expr

/-- The expressions to which the operations on expressions lead. -/
inductive Built : Expr → Prop
  | zero : Built zero
  | one : Built one
  | const (q : Rat) : Built (const q)
  | ofSymbol (s : Symbol) : Built (ofSymbol s)
  | exponential (base : Rat) : Built (exponential base)
  | term {m : Monomial} (hm : m.Built) (c : Rat) : Built (term m c)
  | ofTerms {ts : List (Monomial × Rat)} (h : ∀ t ∈ ts, t.1.Built) : Built (ofTerms ts)
  | add {a b : Expr} (ha : Built a) (hb : Built b) : Built (a + b)
  | sub {a b : Expr} (ha : Built a) (hb : Built b) : Built (a - b)
  | mul {a b : Expr} (ha : Built a) (hb : Built b) : Built (a * b)
  | neg {a : Expr} (ha : Built a) : Built (-a)
  | scale {a : Expr} (ha : Built a) (q : Rat) : Built (a.scale q)
  | sum {es : List Expr} (h : ∀ e ∈ es, Built e) : Built (sum es)
  | pow {a : Expr} (ha : Built a) (k : Nat) : Built (a.pow k)
  | subst {e value : Expr} (he : Built e) (s : Symbol) (hvalue : Built value) :
      Built (e.subst s value)
  | substAll {e : Expr} {values : Symbol → Option Expr} (he : Built e)
      (h : ∀ s value, values s = some value → Built value) : Built (e.substAll values)
  | shift {e : Expr} (he : Built e) (k : Int) : Built (e.shift k)
  | atIteration {e : Expr} (he : Built e) (k : Nat) : Built (e.atIteration k)
  | group {e : Expr} (he : Built e) (keep : Symbol → Bool) {g : Monomial × Expr}
      (hg : g ∈ e.collect keep) : Built g.2
  | linearRest {e rest : Expr} (he : Built e) {s : Symbol} {a : Rat}
      (h : e.linearIn? s = some (a, rest)) : Built rest

section Operations

variable {e value : Expr} {values : Symbol → Option Expr} {keep : Symbol → Bool}

theorem canonical_replacements (h : ∀ s value, values s = some value → value.Canonical)
    (l : List (Symbol × Nat)) : (replacements values l).Canonical := by
  apply List.foldlRecOn l _ canonical_one
  intro acc hacc p _
  cases hp : values p.1 with
  | none => exact hacc
  | some value => exact hacc.mul ((h p.1 value hp).pow p.2)

theorem Canonical.substAll (he : e.Canonical)
    (h : ∀ s value, values s = some value → value.Canonical) : (e.substAll values).Canonical := by
  apply canonical_sum
  intro x hx
  obtain ⟨t, ht, rfl⟩ := List.mem_map.mp hx
  have hm := he.monomials t ht
  exact (canonical_term (hm.filter _ hm.base_ne_zero) _).mul (canonical_replacements h _)

theorem Canonical.collect (he : e.Canonical) : ∀ g ∈ e.collect keep, g.2.Canonical := by
  have hgroups : ∀ ts : List (Monomial × Rat), (∀ t ∈ ts, t.1.Canonical) →
      ∀ g ∈ ts.foldr (collectTerm keep) [], g.2.Canonical := by
    intro ts
    induction ts with
    | nil => simp
    | cons t ts ih =>
      intro hts
      obtain ⟨ht, hts⟩ := List.forall_mem_cons.mp hts
      refine Assoc.forall_alter (fun old group hold hgroup => ?_) (ih hts)
      have hcanonical : (old.getD Expr.zero).Canonical := by
        cases old with
        | none => exact canonical_zero
        | some w => exact hold w rfl
      rw [← Option.some.inj hgroup]
      exact ⟨hcanonical.toOrdered.insertTerm _ _,
        all_insertTerm (ht.filter _ ht.base_ne_zero) hcanonical.monomials⟩
  exact fun g hg => hgroups e.terms he.monomials g (List.mem_filter.mp hg).1

theorem Canonical.linearIn? {rest : Expr} {s : Symbol} {a : Rat} (he : e.Canonical)
    (h : e.linearIn? s = some (a, rest)) : rest.Canonical := by
  unfold Expr.linearIn? at h
  simp only at h
  split at h
  · simp at h
  · obtain ⟨c, -, hc⟩ := Option.map_eq_some_iff.mp h
    rw [← (Prod.mk.inj hc).2]
    exact he.filter _

end Operations

theorem Built.canonical {e : Expr} (h : e.Built) : e.Canonical := by
  induction h with
  | zero => exact canonical_zero
  | one => exact canonical_one
  | const q => exact canonical_const q
  | ofSymbol s => exact canonical_ofSymbol s
  | exponential base => exact canonical_exponential base
  | term hm c => exact canonical_term hm.canonical c
  | ofTerms h => exact canonical_ofTerms fun t ht => (h t ht).canonical
  | add _ _ iha ihb => exact iha.add ihb
  | sub _ _ iha ihb => exact iha.sub ihb
  | mul _ _ iha ihb => exact iha.mul ihb
  | neg _ ih => exact ih.neg
  | scale _ q ih => exact ih.scale q
  | sum _ ih => exact canonical_sum ih
  | pow _ k ih => exact ih.pow k
  | subst _ s _ ih ihvalue => exact ih.subst ihvalue
  | substAll _ _ ih ihvalues => exact ih.substAll ihvalues
  | shift _ k ih => exact ih.shift k
  | atIteration _ k ih => exact ih.atIteration k
  | group _ keep hg ih => exact ih.collect _ hg
  | linearRest _ h ih => exact ih.linearIn? h

theorem Ordered.ofTerms_terms {e : Expr} (he : e.Ordered) : ofTerms e.terms = e :=
  (ordered_ofTerms _).ext_lift he fun φ => by rw [lift_ofTerms, lift_eq_sum]

/-- The operations lead to all canonical expressions. -/
theorem built_iff_canonical {e : Expr} : e.Built ↔ e.Canonical := by
  refine ⟨Built.canonical, fun he => ?_⟩
  rw [← he.toOrdered.ofTerms_terms]
  exact .ofTerms fun t ht => (he.monomials t ht).built

/-- What is read off the terms of a built expression may be built on. -/
theorem Built.monomial {e : Expr} (h : e.Built) {t : Monomial × Rat} (ht : t ∈ e.terms) :
    t.1.Built :=
  (h.canonical.monomials t ht).built

/-- Two ways of building an expression that has the same value in all iterations, for all admissible
values of the symbols, lead to the same expression. -/
theorem Built.eq_of_value_eq {e f : Expr} (he : e.Built) (hf : f.Built)
    (h : ∀ (n : Nat) (v : Valuation), v.Admissible → e.value n v = f.value n v) : e = f :=
  he.canonical.ext_value hf.canonical (N := 0) fun n _ v hv => h n v hv

/-- A difference of squares, written as a product and term by term. -/
theorem eq_of_value_eq_square_difference :
    (ofSymbol (.var "x") + ofSymbol (.positive "p")) *
        (ofSymbol (.var "x") - ofSymbol (.positive "p")) * exponential (-1 / 2) =
      (ofSymbol (.var "x")).pow 2 * exponential (-1 / 2) -
        (ofSymbol (.positive "p")).pow 2 * exponential (-1 / 2) := by
  refine Built.eq_of_value_eq (.mul (.mul (.add (.ofSymbol _) (.ofSymbol _))
    (.sub (.ofSymbol _) (.ofSymbol _))) (.exponential _)) (.sub (.mul (.pow (.ofSymbol _) 2)
    (.exponential _)) (.mul (.pow (.ofSymbol _) 2) (.exponential _))) ?_
  intro n v _
  simp only [value_mul, value_add, value_sub, value_pow]
  ring

end Expr

end ProbLoop
