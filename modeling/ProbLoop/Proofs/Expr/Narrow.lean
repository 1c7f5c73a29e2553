import ProbLoop.Expr.Narrow
import ProbLoop.Proofs.Expr.Over

/-!
# Remainders of exponents

Remainders of exponents may be taken before a sum or a product is formed or after it. Where every
exponent fits in 32 bits nothing is lost.
-/

set_option autoImplicit false

namespace ProbLoop

/-- A change of values that joining two of them absorbs may be made before two lists are merged. -/
theorem Assoc.map_merge {κ ν : Type} {cmp : κ → κ → Ordering} {g : ν → ν} {join : ν → ν → Option ν}
    (hg : ∀ a, g (g a) = g a) (hjoin : ∀ a b, (join (g a) (g b)).map g = (join a b).map g)
    (l r : List (κ × ν)) :
    (merge cmp join (l.map fun p => (p.1, g p.2)) (r.map fun p => (p.1, g p.2))).map
      (fun p => (p.1, g p.2)) = (merge cmp join l r).map fun p => (p.1, g p.2) := by
  have hcons : ∀ (key : κ) (o : Option ν) (rest : List (κ × ν)),
      (consSome key o rest).map (fun p => (p.1, g p.2)) =
        consSome key (o.map g) (rest.map fun p => (p.1, g p.2)) := fun key o rest => by
    cases o <;> rfl
  induction l generalizing r with
  | nil => simp [merge, hg]
  | cons p l ihl =>
    obtain ⟨key, value⟩ := p
    rw [List.map_cons, merge, merge]
    induction r with
    | nil =>
      have hnil := ihl []
      rw [List.map_nil] at hnil
      simp only [List.map_nil, mergeOne, List.map_cons, hg, hnil]
    | cons q r ihr =>
      obtain ⟨k, v⟩ := q
      simp only [List.map_cons, mergeOne] at ihr ⊢
      cases h : cmp key k with
      | lt =>
        have hrest := ihl ((k, v) :: r)
        rw [List.map_cons] at hrest
        simp only [List.map_cons, hg, hrest]
      | eq => simp only [hcons, hjoin, ihl]
      | gt => simp only [List.map_cons, hg, ihr]

namespace Monomial

theorem narrow_mul (a b : Monomial) : (a.narrow * b.narrow).narrow = (a * b).narrow := by
  refine congrArg (Monomial.mk · (a.base * b.base))
    (Assoc.map_merge (g := fun k => k % (1 <<< 32)) (fun k => ?_) (fun j k => ?_) a.powers b.powers)
  · exact Nat.mod_mod k _
  · exact congrArg some (Nat.add_mod j k _).symm

theorem narrow_eq_self {m : Monomial} (h : ∀ p ∈ m.powers, p.2 < 1 <<< 32) : m.narrow = m := by
  have hpowers : m.powers.map (fun p => (p.1, p.2 % (1 <<< 32))) = m.powers := by
    conv_rhs => rw [← List.map_id m.powers]
    exact List.map_congr_left fun p hp => congrArg (Prod.mk p.1) (Nat.mod_eq_of_lt (h p hp))
  rw [narrow, hpowers]

end Monomial

namespace Expr

variable {a b e : Expr}

theorem lift_narrow (φ : Monomial → Rat) (e : Expr) :
    e.narrow.lift φ = e.lift fun m => φ m.narrow := by
  rw [narrow, lift_ofTerms, List.map_map, lift_eq_sum]
  rfl

theorem ordered_narrow (e : Expr) : e.narrow.Ordered := ordered_ofTerms _

theorem narrow_eq_self (he : e.Ordered) (h : ∀ t ∈ e.terms, ∀ p ∈ t.1.powers, p.2 < 1 <<< 32) :
    e.narrow = e :=
  (ordered_narrow e).ext_lift he fun φ => by
    rw [lift_narrow]
    exact lift_congr fun t ht => by rw [Monomial.narrow_eq_self (h t ht)]

theorem narrow_term (m : Monomial) (c : Rat) : (term m c).narrow = term m.narrow c :=
  (ordered_narrow _).ext_lift (ordered_term _ _) fun φ => by rw [lift_narrow, lift_term, lift_term]

theorem narrow_const (q : Rat) : (const q).narrow = const q :=
  narrow_term Monomial.one q

theorem narrow_ofSymbol (s : Symbol) : (ofSymbol s).narrow = ofSymbol s :=
  narrow_term (Monomial.ofSymbol s 1) 1

theorem narrow_add (a b : Expr) : (a + b).narrow = a.narrow + b.narrow :=
  (ordered_narrow _).ext_lift ((ordered_narrow a).add (ordered_narrow b)) fun φ => by
    simp only [lift_narrow, lift_add]

theorem narrow_neg (a : Expr) : (-a).narrow = -a.narrow :=
  (ordered_narrow _).ext_lift (ordered_narrow a).neg fun φ => by
    simp only [lift_narrow, lift_neg]

theorem narrow_sub (a b : Expr) : (a - b).narrow = a.narrow - b.narrow := by
  change (a + -b).narrow = a.narrow + -b.narrow
  rw [narrow_add, narrow_neg]

theorem narrow_scale (a : Expr) (q : Rat) : (a.scale q).narrow = a.narrow.scale q :=
  (ordered_narrow _).ext_lift ((ordered_narrow a).scale q) fun φ => by
    simp only [lift_narrow, lift_scale]

theorem mulNarrow_narrow (a b : Expr) : mulNarrow a.narrow b.narrow = (a * b).narrow :=
  (ordered_narrow _).ext_lift (ordered_narrow _) fun φ => by
    simp only [lift_narrow, lift_mul, Monomial.narrow_mul]

theorem powerInto_mulNarrow (a : Expr) (k : Nat) :
    powerInto mulNarrow one a.narrow k = (a.pow k).narrow := by
  rw [pow, ← powerInto_map narrow mulNarrow_narrow, one, narrow_const]

end Expr

end ProbLoop
