import ProbLoop.Proofs.Expr.ValueAt
import ProbLoop.Proofs.Source.Spelled
import ProbLoop.Proofs.Source.Statements

/-!
# What expressions say

A phrase has a value for all values of the symbols for which its names stand. An expression that is read
has the value that its text says exactly if no exponent of the polynomial that the text says has grown
out of 32 bits.
-/

set_option autoImplicit false

namespace ProbLoop

open Source

namespace Source

variable {resolve : Resolver} {f g : Phrase} {x y : (Symbol → Rat) → Rat} {e : Expr}

/-- The value that a phrase says for all values of the symbols. A divisor is one number, and not zero;
an exponent is not larger than it may be written. -/
inductive Phrase.Says (resolve : Resolver) : Phrase → ((Symbol → Rat) → Rat) → Prop
  | number (q : Rat) : Says resolve (.number q) fun _ => q
  | name {s : String} {symbol : Symbol} (h : resolve s = some symbol) :
      Says resolve (.name s) fun v => v symbol
  | sum {a b : Phrase} {x y : (Symbol → Rat) → Rat} (ha : Says resolve a x) (hb : Says resolve b y) :
      Says resolve (.sum a b) fun v => x v + y v
  | difference {a b : Phrase} {x y : (Symbol → Rat) → Rat} (ha : Says resolve a x)
      (hb : Says resolve b y) : Says resolve (.difference a b) fun v => x v - y v
  | product {a b : Phrase} {x y : (Symbol → Rat) → Rat} (ha : Says resolve a x)
      (hb : Says resolve b y) : Says resolve (.product a b) fun v => x v * y v
  | quotient {line : Nat} {a b : Phrase} {x : (Symbol → Rat) → Rat} {c : Rat}
      (ha : Says resolve a x) (hb : Says resolve b fun _ => c) (hc : c ≠ 0) :
      Says resolve (.quotient line a b) fun v => x v / c
  | negated {a : Phrase} {x : (Symbol → Rat) → Rat} (ha : Says resolve a x) :
      Says resolve (.negated a) fun v => -x v
  | raised {line : Nat} {a : Phrase} {x : (Symbol → Rat) → Rat} {digits : String}
      (ha : Says resolve a x) (hk : numeral digits.toList ≤ maxExponent) :
      Says resolve (.raised line a digits) fun v => x v ^ numeral digits.toList

theorem Phrase.isPolynomial_of_toExpr (h : f.toExpr resolve = .ok e) : e.IsPolynomial :=
  toExprBy_induction Expr.isPolynomial_const (fun _ x _ => Expr.isPolynomial_ofSymbol x)
    (fun _ _ ha hb => ha.add hb) (fun _ ha => ha.neg) (fun _ _ ha hb => ha.mul hb)
    (fun _ q ha => ha.scale q) h

/-- What a phrase says is the value of the expression for which it stands. -/
theorem Phrase.Says.exists_toExpr (h : f.Says resolve x) :
    ∃ e, f.toExpr resolve = .ok e ∧ ∀ v, e.valueAt v = x v := by
  induction h with
  | number q => exact ⟨.const q, rfl, fun v => Expr.valueAt_const v q⟩
  | @name s symbol h =>
    exact ⟨.ofSymbol symbol, by rw [toExpr, toExprBy, h], fun v => Expr.valueAt_ofSymbol v symbol⟩
  | sum _ _ iha ihb =>
    obtain ⟨d, hd, hvd⟩ := iha
    obtain ⟨e, he, hve⟩ := ihb
    refine ⟨d + e, operation_eq_ok_iff.mpr ⟨d, e, hd, he, rfl⟩, fun v => ?_⟩
    rw [Expr.valueAt_add, hvd, hve]
  | difference _ _ iha ihb =>
    obtain ⟨d, hd, hvd⟩ := iha
    obtain ⟨e, he, hve⟩ := ihb
    refine ⟨d - e, operation_eq_ok_iff.mpr ⟨d, e, hd, he, rfl⟩, fun v => ?_⟩
    rw [Expr.valueAt_sub, hvd, hve]
  | product _ _ iha ihb =>
    obtain ⟨d, hd, hvd⟩ := iha
    obtain ⟨e, he, hve⟩ := ihb
    refine ⟨d * e, operation_eq_ok_iff.mpr ⟨d, e, hd, he, rfl⟩, fun v => ?_⟩
    rw [Expr.valueAt_mul, hvd, hve]
  | @quotient line a b x c _ _ hc iha ihb =>
    obtain ⟨d, hd, hvd⟩ := iha
    obtain ⟨e, he, hve⟩ := ihb
    -- A polynomial that has one value everywhere is that number.
    obtain rfl : e = .const c := (isPolynomial_of_toExpr he).ext (Expr.isPolynomial_const c)
      fun v => (hve v).trans (Expr.valueAt_const v c).symm
    have hdivide : divide line d (.const c) = .ok (d.scale c⁻¹) :=
      divide_eq_ok_iff.mpr ⟨c, Expr.constant?_const c, hc, rfl⟩
    refine ⟨d.scale c⁻¹, except_bind_eq_ok.mpr ⟨d, hd, except_bind_eq_ok.mpr ⟨_, he, hdivide⟩⟩,
      fun v => ?_⟩
    rw [Expr.valueAt_scale, hvd]
    exact (div_eq_mul_inv (x v) c).symm
  | negated _ ih =>
    obtain ⟨d, hd, hvd⟩ := ih
    refine ⟨-d, except_bind_eq_ok.mpr ⟨d, hd, rfl⟩, fun v => ?_⟩
    rw [Expr.valueAt_neg, hvd]
  | @raised line a x digits _ hk ih =>
    obtain ⟨d, hd, hvd⟩ := ih
    rw [← digitsValue_eq_numeral] at hk ⊢
    refine ⟨d.pow (digitsValue digits.toList), except_bind_eq_ok.mpr ⟨d, hd, ?_⟩, fun v => ?_⟩
    · exact raise_eq_ok_iff.mpr ⟨hk, rfl⟩
    · rw [Expr.valueAt_pow, hvd]

theorem Phrase.says_of_toExpr (h : f.toExpr resolve = .ok e) : f.Says resolve e.valueAt := by
  induction f generalizing e with
  | number q =>
    obtain rfl := Except.ok.inj h
    have hvalue : (Expr.const q).valueAt = fun _ => q := funext fun v => Expr.valueAt_const v q
    exact hvalue ▸ .number q
  | name s =>
    rw [toExpr, toExprBy] at h
    split at h
    · next symbol hs =>
      obtain rfl := Except.ok.inj h
      have hvalue : (Expr.ofSymbol symbol).valueAt = fun v => v symbol :=
        funext fun v => Expr.valueAt_ofSymbol v symbol
      exact hvalue ▸ .name hs
    · cases h
  | sum a b iha ihb =>
    obtain ⟨d, e, hd, he, rfl⟩ := operation_eq_ok_iff.mp h
    rw [funext fun v => Expr.valueAt_add v d e]
    exact .sum (iha hd) (ihb he)
  | difference a b iha ihb =>
    obtain ⟨d, e, hd, he, rfl⟩ := operation_eq_ok_iff.mp h
    rw [funext fun v => Expr.valueAt_sub v d e]
    exact .difference (iha hd) (ihb he)
  | product a b iha ihb =>
    obtain ⟨d, e, hd, he, rfl⟩ := operation_eq_ok_iff.mp h
    rw [funext fun v => Expr.valueAt_mul v d e]
    exact .product (iha hd) (ihb he)
  | quotient line a b iha ihb =>
    obtain ⟨d, hd, h⟩ := except_bind_eq_ok.mp h
    obtain ⟨e, he, h⟩ := except_bind_eq_ok.mp h
    obtain ⟨c, hconstant, hc, rfl⟩ := divide_eq_ok_iff.mp h
    have hsays := ihb he
    rw [Expr.eq_const_of_constant? (canonical_of_toExpr he).toOrdered hconstant,
      funext fun v => Expr.valueAt_const v c] at hsays
    rw [funext fun v => (Expr.valueAt_scale v d c⁻¹).trans (div_eq_mul_inv _ c).symm]
    exact .quotient (iha hd) hsays hc
  | negated a ih =>
    obtain ⟨d, hd, h⟩ := except_bind_eq_ok.mp h
    obtain rfl := Except.ok.inj h
    rw [funext fun v => Expr.valueAt_neg v d]
    exact .negated (ih hd)
  | raised line base digits ih =>
    obtain ⟨d, hd, h⟩ := except_bind_eq_ok.mp h
    obtain ⟨hk, rfl⟩ := raise_eq_ok_iff.mp h
    rw [digitsValue_eq_numeral] at hk ⊢
    have hvalue : (powerInto (· * ·) .one d (numeral digits.toList)).valueAt =
        fun v => d.valueAt v ^ numeral digits.toList := funext fun v => Expr.valueAt_pow v d _
    exact hvalue ▸ .raised (ih hd) hk

/-- A phrase says the values of an expression exactly if it stands for it. -/
theorem Phrase.says_iff (he : e.IsPolynomial) :
    f.Says resolve e.valueAt ↔ f.toExpr resolve = .ok e := by
  refine ⟨fun h => ?_, says_of_toExpr⟩
  obtain ⟨d, hd, hvalue⟩ := h.exists_toExpr
  rw [hd, (isPolynomial_of_toExpr hd).ext he hvalue]

theorem SpellsText.unique {text : String} (hf : SpellsText text f) (hg : SpellsText text g) :
    f = g := by
  rw [← readPhrase_eq_ok_iff] at hf hg
  exact Except.ok.inj (hf.symm.trans hg)

/-- The whole text is a phrase that says the value. -/
def TextSays (resolve : Resolver) (text : String) (x : (Symbol → Rat) → Rat) : Prop :=
  ∃ f, SpellsText text f ∧ f.Says resolve x

variable {text : String}

theorem TextSays.exists_polynomial (h : TextSays resolve text x) :
    ∃ d : Expr, d.IsPolynomial ∧ x = d.valueAt := by
  obtain ⟨f, -, hsays⟩ := h
  obtain ⟨d, hd, hvalue⟩ := hsays.exists_toExpr
  exact ⟨d, Phrase.isPolynomial_of_toExpr hd, funext fun v => (hvalue v).symm⟩

theorem TextSays.unique (hx : TextSays resolve text x) (hy : TextSays resolve text y) : x = y := by
  obtain ⟨f, hf, hx⟩ := hx
  obtain ⟨g, hg, hy⟩ := hy
  obtain rfl := hf.unique hg
  obtain ⟨d, hd, hvd⟩ := hx.exists_toExpr
  obtain ⟨e, he, hve⟩ := hy.exists_toExpr
  obtain rfl := Except.ok.inj (hd.symm.trans he)
  exact funext fun v => (hvd v).symm.trans (hve v)

/-! ### Two texts -/

/-- The only name is that of the variable `x`. -/
def onlyX : Resolver := fun name => if name = "x" then some (.var "x") else none

theorem says_x : (Phrase.name "x").Says onlyX fun v => v (.var "x") := .name rfl

theorem spells_x : Spells 1 .atom ['x'] (.name "x") := .name (s := "x") (by decide)

theorem isBlank_nil : IsBlank [] := List.forall_mem_nil _

theorem isDigits_singleton {c : Char} (hc : isDigit c = true) : IsDigits [c] :=
  ⟨List.cons_ne_nil c [], List.forall_mem_singleton.mpr hc⟩

/-- The sign applies to the square, and the quotient to both. -/
theorem textSays_square : TextSays onlyX "-x^2/4 + 1.5 # half" fun v =>
    -v (.var "x") ^ 2 / 4 + 3 / 2 := by
  have hblank : IsBlank [' '] := List.forall_mem_singleton.mpr (Or.inl rfl)
  have hsquare : Spells 1 .power (['x'] ++ ([] ++ ("^".toList ++ ([] ++ ['2']))))
      (.raised 1 (.name "x") "2") :=
    .raised spells_x isBlank_nil (Or.inr rfl) isBlank_nil (isDigits_singleton rfl)
  have hfour : SpellsNumber ['4'] (4 : Nat) := .whole (isDigits_singleton rfl)
  have hdecimal : SpellsNumber (['1'] ++ '.' :: ['5']) ((1 : Nat) + (5 : Nat) / 10 ^ 1) :=
    .point (isDigits_singleton rfl).2 (isDigits_singleton rfl).2 (Or.inl (List.cons_ne_nil _ _))
  have hquarter : Spells 1 .product _
      (.quotient 1 (.negated (.raised 1 (.name "x") "2")) (.number (4 : Nat))) :=
    .quotient (.signed (.minus isBlank_nil (.power hsquare))) isBlank_nil isBlank_nil
      (.power (.atom (.number hfour)))
  have hspells := Spells.sum (.term hquarter) hblank hblank
    (.signed (.power (.atom (.number hdecimal))))
  have htrailer : IsTrailer " # half".toList :=
    ⟨[' '], "# half".toList, rfl, hblank, Or.inr ⟨" half".toList, rfl, by simp⟩⟩
  refine ⟨_, ⟨[], _, " # half".toList, rfl, isBlank_nil, hspells, htrailer⟩, ?_⟩
  have hx : (Phrase.raised 1 (.name "x") "2").Says onlyX fun v => v (.var "x") ^ 2 :=
    .raised says_x (by decide)
  convert Phrase.Says.sum (.quotient (.negated hx) (.number (4 : Nat)) (by norm_num))
    (.number ((1 : Nat) + (5 : Nat) / 10 ^ 1)) using 2
  norm_num

/-- The text says a power whose exponent is the product's, which has one bit more than exponents have. -/
theorem textSays_wrapped : TextSays onlyX "x**4294967295*x" fun v =>
    v (.var "x") ^ 4294967295 * v (.var "x") := by
  have hdigits : IsDigits "4294967295".toList :=
    ⟨by simp, List.all_eq_true.mp (by decide)⟩
  have hpower : Spells 1 .power (['x'] ++ ([] ++ ("**".toList ++ ([] ++ "4294967295".toList))))
      (.raised 1 (.name "x") "4294967295") :=
    .raised spells_x isBlank_nil (Or.inl rfl) isBlank_nil hdigits
  have hspells := Spells.term (.product (.signed (.power hpower)) isBlank_nil isBlank_nil
    (.power (.atom spells_x)))
  have htrailer : IsTrailer [] := ⟨[], [], rfl, isBlank_nil, Or.inl rfl⟩
  refine ⟨_, ⟨[], _, [], rfl, isBlank_nil, hspells, htrailer⟩, ?_⟩
  have hx : (Phrase.raised 1 (.name "x") "4294967295").Says onlyX fun v => v (.var "x") ^ 4294967295 :=
    .raised says_x (by decide)
  exact .product hx says_x

end Source

namespace Expr

variable {resolve : Resolver} {text : String} {d e : Expr}

theorem parse_eq_ok_iff : parse resolve text = .ok e ↔
    ∃ f, SpellsText text f ∧ f.toExprBy mulNarrow resolve = .ok e := by
  simp only [parse, except_bind_eq_ok, readPhrase_eq_ok_iff]

/-- The polynomial that a text says is read with the remainders of its exponents. -/
theorem parse_of_textSays (hd : d.IsPolynomial) (h : TextSays resolve text d.valueAt) :
    parse resolve text = .ok d.narrow := by
  obtain ⟨f, hf, hsays⟩ := h
  exact parse_eq_ok_iff.mpr ⟨f, hf, Phrase.toExprBy_mulNarrow ((Phrase.says_iff hd).mp hsays)⟩

theorem all_base_of_parse (h : parse resolve text = .ok e) : e.All (·.base = 1) := by
  obtain ⟨f, -, h⟩ := parse_eq_ok_iff.mp h
  exact Phrase.toExprBy_induction (fun q => (isPolynomial_const q).base_eq_one)
    (fun _ x _ => (isPolynomial_ofSymbol x).base_eq_one) (fun _ _ => all_add) (fun _ => all_neg)
    (fun _ _ ha hb => all_base_narrow (all_base_mul ha hb)) (fun _ _ => all_scale) h

theorem IsPolynomial.valueAt_narrow_iff (hd : d.IsPolynomial) :
    d.narrow.valueAt = d.valueAt ↔ d.ExponentsFit := by
  constructor
  · intro h t ht p hp
    exact Nat.le_sub_one_of_lt (hd.lt_of_valueAt_narrow (congrFun h) t ht p hp)
  · intro h
    rw [narrow_eq_self hd.toOrdered fun t ht p hp => Nat.lt_of_le_pred (by decide) (h t ht p hp)]

/-- A text says at most one value, and a text that says one is read. Whatever is read is spelled in one
way and has no exponentials, and it has the value that the text says exactly if the text says a
polynomial whose exponents may be written. -/
theorem parse_says_iff (resolve : Resolver) (text : String) :
    (∀ x y, TextSays resolve text x → TextSays resolve text y → x = y) ∧
    (∀ x, TextSays resolve text x → ∃ e, parse resolve text = .ok e) ∧
    ∀ e, parse resolve text = .ok e → (∃! f, SpellsText text f) ∧ e.All (·.base = 1) ∧
      (TextSays resolve text e.valueAt ↔
        ∃ d : Expr, d.IsPolynomial ∧ d.ExponentsFit ∧ TextSays resolve text d.valueAt) := by
  refine ⟨fun x y hx hy => hx.unique hy, fun x hx => ?_,
    fun e he => ⟨?_, all_base_of_parse he, fun h => ?_, ?_⟩⟩
  · obtain ⟨d, hd, rfl⟩ := hx.exists_polynomial
    exact ⟨d.narrow, parse_of_textSays hd hx⟩
  · obtain ⟨f, hf, -⟩ := parse_eq_ok_iff.mp he
    exact ⟨f, hf, fun g hg => hg.unique hf⟩
  · obtain ⟨d, hd, hvalue⟩ := h.exists_polynomial
    rw [hvalue] at h
    obtain rfl := Except.ok.inj (he.symm.trans (parse_of_textSays hd h))
    exact ⟨d, hd, hd.valueAt_narrow_iff.mp hvalue, h⟩
  · rintro ⟨d, hd, hfits, h⟩
    obtain rfl := Except.ok.inj (he.symm.trans (parse_of_textSays hd h))
    rwa [hd.valueAt_narrow_iff.mpr hfits]

theorem parse_says_square : ∃ e, parse onlyX "-x^2/4 + 1.5 # half" = .ok e ∧
    (∃! f, SpellsText "-x^2/4 + 1.5 # half" f) ∧
    TextSays onlyX "-x^2/4 + 1.5 # half" e.valueAt := by
  obtain ⟨-, hread, hvalue⟩ := parse_says_iff onlyX "-x^2/4 + 1.5 # half"
  obtain ⟨e, he⟩ := hread _ textSays_square
  obtain ⟨hone, -, hsays⟩ := hvalue e he
  have hd : ((ofSymbol (.var "x") * ofSymbol (.var "x")).scale (-1 / 4) + const (3 / 2)).IsPolynomial :=
    (((isPolynomial_ofSymbol _).mul (isPolynomial_ofSymbol _)).scale _).add (isPolynomial_const _)
  refine ⟨e, he, hone, hsays.mpr ⟨_, hd, by decide +kernel, ?_⟩⟩
  convert textSays_square using 2 with v
  rw [valueAt_add, valueAt_scale, valueAt_mul, valueAt_ofSymbol, valueAt_const]
  ring

/-- The highest bit of the exponent is lost, and the power is read as one. -/
theorem parse_power_wrapped :
    parse onlyX "x**4294967295*x" = .ok (term ⟨[(.var "x", 0)], 1⟩ 1) ∧
      TextSays onlyX "x**4294967295*x" (fun v => v (.var "x") ^ 4294967295 * v (.var "x")) ∧
      ¬ TextSays onlyX "x**4294967295*x" (term ⟨[(.var "x", 0)], 1⟩ 1).valueAt := by
  refine ⟨?_, textSays_wrapped, ?_⟩
  · have hd := isPolynomial_power (.var "x") 4294967296
    have hvalue : (term (Monomial.ofSymbol (.var "x") 4294967296) 1).valueAt = fun v =>
        v (.var "x") ^ 4294967295 * v (.var "x") := by
      funext v
      rw [valueAt_power, ← pow_succ]
    rw [parse_of_textSays hd (hvalue ▸ textSays_wrapped), narrow_term]
    rfl
  · intro hone
    have hzero := congrFun (hone.unique textSays_wrapped) fun _ => 0
    rw [valueAt_term, mul_zero] at hzero
    exact absurd hzero (by simp [Monomial.powerProduct])

end Expr

end ProbLoop
