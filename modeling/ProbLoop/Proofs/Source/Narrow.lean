import ProbLoop.Proofs.Except
import ProbLoop.Proofs.Expr.Narrow
import ProbLoop.Source.Meaning

/-!
# Phrases with exponents in 32 bits

A phrase that stands for an expression stands, with exponents in 32 bits, for the same expression with
the remainders of its exponents.
-/

set_option autoImplicit false

namespace ProbLoop.Source

variable {times : Expr → Expr → Expr} {resolve : Resolver} {line : Nat} {f : Phrase} {a b e : Expr}

/-- Both operands are computed before the operation. -/
theorem operation_eq_ok_iff {x y : Except Error Expr} {op : Expr → Expr → Expr} :
    (do let left ← x; return op left (← y)) = .ok e ↔
      ∃ a b, x = .ok a ∧ y = .ok b ∧ op a b = e := by
  rw [except_bind_eq_ok]
  constructor
  · rintro ⟨a, ha, h⟩
    obtain ⟨b, hb, h⟩ := except_bind_eq_ok.mp h
    exact ⟨a, b, ha, hb, Except.ok.inj h⟩
  · rintro ⟨a, b, ha, hb, rfl⟩
    exact ⟨a, ha, except_bind_eq_ok.mpr ⟨b, hb, rfl⟩⟩

theorem divide_eq_ok_iff : divide line a b = .ok e ↔
    ∃ c, b.constant? = some c ∧ c ≠ 0 ∧ e = a.scale c⁻¹ := by
  rw [divide]
  cases b.constant? with
  | none => simp
  | some c =>
    by_cases hc : c = 0
    · simp [hc]
    · simp [hc, eq_comm]

theorem raise_eq_ok_iff {digits : String} : raise times line a digits = .ok e ↔
    digitsValue digits.toList ≤ maxExponent ∧
      e = powerInto times .one a (digitsValue digits.toList) := by
  rw [raise]
  split
  · next h => simp [h, eq_comm]
  · next h => simp [h]

/-- What the operations preserve holds of every expression for which a phrase stands. -/
theorem Phrase.toExprBy_induction {P : Expr → Prop} (hconst : ∀ q, P (.const q))
    (hname : ∀ s x, resolve s = some x → P (.ofSymbol x)) (hadd : ∀ a b, P a → P b → P (a + b))
    (hneg : ∀ a, P a → P (-a)) (htimes : ∀ a b, P a → P b → P (times a b))
    (hscale : ∀ a q, P a → P (a.scale q)) (h : f.toExprBy times resolve = .ok e) : P e := by
  induction f generalizing e with
  | number q =>
    obtain rfl := Except.ok.inj h
    exact hconst q
  | name s =>
    rw [toExprBy] at h
    split at h
    · next x hx =>
      obtain rfl := Except.ok.inj h
      exact hname s x hx
    · cases h
  | sum a b iha ihb =>
    obtain ⟨x, y, hx, hy, rfl⟩ := operation_eq_ok_iff.mp h
    exact hadd x y (iha hx) (ihb hy)
  | difference a b iha ihb =>
    obtain ⟨x, y, hx, hy, rfl⟩ := operation_eq_ok_iff.mp h
    exact hadd x (-y) (iha hx) (hneg y (ihb hy))
  | product a b iha ihb =>
    obtain ⟨x, y, hx, hy, rfl⟩ := operation_eq_ok_iff.mp h
    exact htimes x y (iha hx) (ihb hy)
  | quotient line a b iha ihb =>
    obtain ⟨x, hx, h⟩ := except_bind_eq_ok.mp h
    obtain ⟨y, -, h⟩ := except_bind_eq_ok.mp h
    obtain ⟨c, -, -, rfl⟩ := divide_eq_ok_iff.mp h
    exact hscale x c⁻¹ (iha hx)
  | negated a iha =>
    obtain ⟨x, hx, h⟩ := except_bind_eq_ok.mp h
    obtain rfl := Except.ok.inj h
    exact hneg x (iha hx)
  | raised line base digits ih =>
    obtain ⟨x, hx, h⟩ := except_bind_eq_ok.mp h
    obtain ⟨-, rfl⟩ := raise_eq_ok_iff.mp h
    exact powerInto_induction times (fun _ => P) (fun _ _ => htimes) _ (i := 0) (j := 0)
      (hconst 1) (ih hx)

theorem Phrase.canonical_of_toExpr (h : f.toExpr resolve = .ok e) : e.Canonical :=
  toExprBy_induction Expr.canonical_const (fun _ x _ => Expr.canonical_ofSymbol x)
    (fun _ _ ha hb => ha.add hb) (fun _ ha => ha.neg) (fun _ _ ha hb => ha.mul hb)
    (fun _ q ha => ha.scale q) h

theorem divide_narrow (hb : b.Ordered) (h : divide line a b = .ok e) :
    divide line a.narrow b.narrow = .ok e.narrow := by
  obtain ⟨c, hconstant, hc, rfl⟩ := divide_eq_ok_iff.mp h
  rw [Expr.eq_const_of_constant? hb hconstant, Expr.narrow_const]
  exact divide_eq_ok_iff.mpr ⟨c, Expr.constant?_const c, hc, Expr.narrow_scale a _⟩

theorem Phrase.toExprBy_mulNarrow (h : f.toExpr resolve = .ok e) :
    f.toExprBy Expr.mulNarrow resolve = .ok e.narrow := by
  induction f generalizing e with
  | number q =>
    obtain rfl := Except.ok.inj h
    exact congrArg Except.ok (Expr.narrow_const q).symm
  | name s =>
    rw [toExpr, toExprBy] at h
    rw [toExprBy]
    split at h
    · obtain rfl := Except.ok.inj h
      exact congrArg Except.ok (Expr.narrow_ofSymbol _).symm
    · cases h
  | sum a b iha ihb =>
    obtain ⟨x, y, hx, hy, rfl⟩ := operation_eq_ok_iff.mp h
    rw [toExprBy, iha hx, ihb hy]
    exact congrArg Except.ok (Expr.narrow_add x y).symm
  | difference a b iha ihb =>
    obtain ⟨x, y, hx, hy, rfl⟩ := operation_eq_ok_iff.mp h
    rw [toExprBy, iha hx, ihb hy]
    exact congrArg Except.ok (Expr.narrow_sub x y).symm
  | product a b iha ihb =>
    obtain ⟨x, y, hx, hy, rfl⟩ := operation_eq_ok_iff.mp h
    rw [toExprBy, iha hx, ihb hy]
    exact congrArg Except.ok (Expr.mulNarrow_narrow x y)
  | quotient line a b iha ihb =>
    obtain ⟨x, hx, h⟩ := except_bind_eq_ok.mp h
    obtain ⟨y, hy, h⟩ := except_bind_eq_ok.mp h
    rw [toExprBy, iha hx, ihb hy]
    exact divide_narrow (canonical_of_toExpr hy).toOrdered h
  | negated a iha =>
    obtain ⟨x, hx, h⟩ := except_bind_eq_ok.mp h
    obtain rfl := Except.ok.inj h
    rw [toExprBy, iha hx]
    exact congrArg Except.ok (Expr.narrow_neg x).symm
  | raised line base digits ih =>
    obtain ⟨x, hx, h⟩ := except_bind_eq_ok.mp h
    obtain ⟨hdigits, rfl⟩ := raise_eq_ok_iff.mp h
    rw [toExprBy, ih hx]
    exact raise_eq_ok_iff.mpr ⟨hdigits, (Expr.powerInto_mulNarrow x _).symm⟩

/-- Nothing is lost where all exponents may be written in a source. -/
theorem Phrase.toExprBy_mulNarrow_of_le (h : f.toExpr resolve = .ok e)
    (hfits : ∀ t ∈ e.terms, ∀ p ∈ t.1.powers, p.2 ≤ maxExponent) :
    f.toExprBy Expr.mulNarrow resolve = .ok e := by
  have hnarrow : e.narrow = e := Expr.narrow_eq_self (canonical_of_toExpr h).toOrdered
    fun t ht p hp => Nat.lt_of_le_pred (by decide) (hfits t ht p hp)
  rw [toExprBy_mulNarrow h, hnarrow]

end ProbLoop.Source
