import ProbLoop.Proofs.Expr.Built
import ProbLoop.Proofs.Source.Narrow
import ProbLoop.Proofs.Source.Written

/-!
# Text of expressions is read back

The text of an expression without exponentials is a written sum. What the grammar reads from it stands
for an expression with the same values, and that can only be the expression itself.
-/

set_option autoImplicit false

namespace ProbLoop

open Source

namespace Expr

/-- A power as a factor behind a product sign. -/
def laterPower (p : Symbol × Nat) : Bool × WrittenFactor := (true, .power p.1.name p.2)

/-- The stroke and the denominator, unless it is one. -/
def denominatorPart (q : Rat) : List (Bool × WrittenFactor) :=
  if q.den = 1 then [] else [(false, .number q.den)]

/-- A term as it is written. The coefficient one is left out in front of a power. -/
def writtenTerm (t : Monomial × Rat) : WrittenTerm :=
  let size := Number.abs t.2
  match t.1.powers with
  | [] => ⟨.number size.num.natAbs, denominatorPart size⟩
  | p :: powers =>
    if size = 1 then ⟨.power p.1.name p.2, powers.map laterPower⟩
    else ⟨.number size.num.natAbs, denominatorPart size ++ (p :: powers).map laterPower⟩

/-- A term that is not the first one, behind its sign. -/
abbrev laterTerm (t : Monomial × Rat) : Bool × WrittenTerm := (!decide (t.2 < 0), writtenTerm t)

def writtenSum (ts : List (Monomial × Rat)) : WrittenSum :=
  match ts with
  | [] => ⟨false, ⟨.number 0, []⟩, []⟩
  | t :: rest => ⟨decide (t.2 < 0), writtenTerm t,
      rest.map laterTerm⟩

section Characters

theorem toList_toString (k : Nat) : (toString k).toList = digits k := rfl

theorem toList_text {q : Rat} (hq : 0 ≤ q) : (Number.text q).toList =
    digits q.num.natAbs ++ (denominatorPart q).flatMap WrittenTerm.laterChars := by
  have hnum : toString q.num = toString q.num.natAbs := by
    conv_lhs => rw [← Int.natAbs_of_nonneg (Rat.num_nonneg.mpr hq)]
    rfl
  rw [Number.text, denominatorPart, hnum]
  split
  · rw [toList_toString]
    exact (List.append_nil _).symm
  · rw [String.toList_append, String.toList_append, toList_toString, toList_toString]
    simp [WrittenTerm.laterChars, WrittenFactor.chars]

theorem toList_factorText (p : Symbol × Nat) :
    (Monomial.factorText p).toList = (WrittenFactor.power p.1.name p.2).chars := by
  unfold Monomial.factorText WrittenFactor.chars
  by_cases hp : p.2 = 1
  · simp [hp]
  · simp [hp, digits_eq]

/-- The separator stands in front of all but the first. -/
theorem toList_intercalate_cons (sep first : String) (others : List String) :
    (String.intercalate sep (first :: others)).toList =
      first.toList ++ others.flatMap fun s => sep.toList ++ s.toList := by
  induction others generalizing first with
  | nil => simp
  | cons s others ih =>
    rw [String.intercalate_cons_cons, String.toList_append, String.toList_append, ih,
      List.flatMap_cons, List.append_assoc, List.append_assoc]

theorem toList_intercalate_factors (p : Symbol × Nat) (powers : List (Symbol × Nat)) :
    (String.intercalate "*" ((p :: powers).map Monomial.factorText)).toList =
      (WrittenFactor.power p.1.name p.2).chars ++
        (powers.map laterPower).flatMap WrittenTerm.laterChars := by
  rw [List.map_cons, toList_intercalate_cons, toList_factorText, List.flatMap_map,
    List.flatMap_map]
  simp only [toList_factorText, laterPower, WrittenTerm.laterChars]
  rfl

theorem abs_nonneg (q : Rat) : 0 ≤ Number.abs q := by
  unfold Number.abs
  split
  · next h => exact neg_nonneg.mpr h.le
  · next h => exact not_lt.mp h

theorem toList_magnitudeText {t : Monomial × Rat} (ht : t.1.base = 1) :
    (magnitudeText t).toList = (writtenTerm t).chars := by
  obtain ⟨⟨powers, base⟩, c⟩ := t
  obtain rfl : base = 1 := ht
  unfold magnitudeText writtenTerm
  cases powers with
  | nil => exact toList_text (abs_nonneg c)
  | cons p powers =>
    have htext : (Monomial.text ⟨p :: powers, 1⟩).toList =
        (WrittenFactor.power p.1.name p.2).chars ++
          (powers.map laterPower).flatMap WrittenTerm.laterChars := by
      rw [← toList_intercalate_factors, Monomial.text, Monomial.exponentialText, if_pos rfl,
        List.append_nil]
      rfl
    have hone : (Monomial.mk (p :: powers) 1).isOne = false := rfl
    simp only [hone, Bool.false_eq_true, if_false]
    split
    · exact htext
    · rw [String.toList_append, String.toList_append, htext, toList_text (abs_nonneg c)]
      simp [WrittenTerm.chars, WrittenFactor.chars, WrittenTerm.laterChars, laterPower]

/-- The text of an expression without exponentials is a written sum. -/
theorem toList_text_eq {e : Expr} (he : ∀ t ∈ e.terms, t.1.base = 1) :
    e.text.toList = (writtenSum (e.terms.mergeSort writtenBefore)).chars := by
  have hsorted : ∀ t ∈ e.terms.mergeSort writtenBefore, t.1.base = 1 :=
    fun t ht => he t (List.mem_mergeSort.mp ht)
  unfold text
  cases hts : e.terms.mergeSort writtenBefore with
  | nil => rfl
  | cons t rest =>
    rw [hts] at hsorted
    obtain ⟨ht, hrest⟩ := List.forall_mem_cons.mp hsorted
    have hlater : ∀ u ∈ rest, (laterText u).toList = WrittenSum.laterChars (laterTerm u) := by
      intro u hu
      rw [laterText, String.toList_append, toList_magnitudeText (hrest u hu)]
      by_cases hneg : u.2 < 0
      · simp [hneg, WrittenSum.laterChars]
      · simp [hneg, WrittenSum.laterChars]
    have hjoin : (String.join (rest.map laterText)).toList =
        (rest.map laterTerm).flatMap WrittenSum.laterChars := by
      rw [String.toList_join, List.flatMap_map, List.flatMap_map]
      exact List.flatMap_congr hlater
    change (firstText t ++ _).toList = _
    rw [String.toList_append, hjoin, firstText, String.toList_append, toList_magnitudeText ht]
    by_cases hneg : t.2 < 0
    · simp [hneg, writtenSum, WrittenSum.chars]
    · simp [hneg, writtenSum, WrittenSum.chars]

end Characters

end Expr

namespace Source

variable {resolve : Resolver} {line : Nat} {a b f : Phrase} {x y : Nat → Valuation → Rat}

/-- The phrase stands for an expression with the given values. -/
def Phrase.Denotes (resolve : Resolver) (f : Phrase) (x : Nat → Valuation → Rat) : Prop :=
  ∃ e, f.toExpr resolve = .ok e ∧ e.Canonical ∧ ∀ n v, e.value n v = x n v

namespace Phrase

theorem Denotes.congr (h : f.Denotes resolve x) (hxy : ∀ n v, x n v = y n v) :
    f.Denotes resolve y := by
  obtain ⟨e, hf, he, hv⟩ := h
  exact ⟨e, hf, he, fun n v => (hv n v).trans (hxy n v)⟩

theorem denotes_number (q : Rat) : (number q).Denotes resolve fun _ _ => q :=
  ⟨.const q, rfl, Expr.canonical_const q, fun n v => Expr.value_const n v q⟩

theorem denotes_name {s : String} {symbol : Symbol} (h : resolve s = some symbol) :
    (name s).Denotes resolve fun n v => symbol.value n v :=
  ⟨.ofSymbol symbol, by rw [toExpr, toExprBy, h], Expr.canonical_ofSymbol symbol,
    fun n v => Expr.value_ofSymbol n v symbol⟩

theorem Denotes.sum (ha : a.Denotes resolve x) (hb : b.Denotes resolve y) :
    (sum a b).Denotes resolve fun n v => x n v + y n v := by
  obtain ⟨e, hea, he, hve⟩ := ha
  obtain ⟨d, hdb, hd, hvd⟩ := hb
  exact ⟨e + d, except_bind_eq_ok.mpr ⟨e, hea, except_bind_eq_ok.mpr ⟨d, hdb, rfl⟩⟩, he.add hd,
    fun n v => by rw [Expr.value_add, hve, hvd]⟩

theorem Denotes.difference (ha : a.Denotes resolve x) (hb : b.Denotes resolve y) :
    (difference a b).Denotes resolve fun n v => x n v - y n v := by
  obtain ⟨e, hea, he, hve⟩ := ha
  obtain ⟨d, hdb, hd, hvd⟩ := hb
  exact ⟨e - d, except_bind_eq_ok.mpr ⟨e, hea, except_bind_eq_ok.mpr ⟨d, hdb, rfl⟩⟩, he.sub hd,
    fun n v => by rw [Expr.value_sub, hve, hvd]⟩

theorem Denotes.product (ha : a.Denotes resolve x) (hb : b.Denotes resolve y) :
    (product a b).Denotes resolve fun n v => x n v * y n v := by
  obtain ⟨e, hea, he, hve⟩ := ha
  obtain ⟨d, hdb, hd, hvd⟩ := hb
  exact ⟨e * d, except_bind_eq_ok.mpr ⟨e, hea, except_bind_eq_ok.mpr ⟨d, hdb, rfl⟩⟩, he.mul hd,
    fun n v => by rw [Expr.value_mul, hve, hvd]⟩

theorem Denotes.quotient (ha : a.Denotes resolve x) {q : Rat} (hq : q ≠ 0) :
    (quotient line a (number q)).Denotes resolve fun n v => x n v * q⁻¹ := by
  obtain ⟨e, hea, he, hve⟩ := ha
  refine ⟨e.scale q⁻¹, ?_, he.scale _, fun n v => by rw [Expr.value_scale, hve]⟩
  have hdivide : divide line e (.const q) = .ok (e.scale q⁻¹) :=
    divide_eq_ok_iff.mpr ⟨q, Expr.constant?_const q, hq, rfl⟩
  exact except_bind_eq_ok.mpr ⟨e, hea, except_bind_eq_ok.mpr ⟨.const q, rfl, hdivide⟩⟩

theorem Denotes.negated (ha : a.Denotes resolve x) :
    (negated a).Denotes resolve fun n v => -x n v := by
  obtain ⟨e, hea, he, hve⟩ := ha
  exact ⟨-e, except_bind_eq_ok.mpr ⟨e, hea, rfl⟩, he.neg,
    fun n v => by rw [Expr.value_neg, hve]⟩

theorem Denotes.raised (ha : a.Denotes resolve x) {k : Nat} (hk : k ≤ maxExponent) :
    (raised line a (toString k)).Denotes resolve fun n v => x n v ^ k := by
  obtain ⟨e, hea, he, hve⟩ := ha
  refine ⟨e.pow k, ?_, he.pow k, fun n v => by rw [Expr.value_pow, hve]⟩
  have hdigits : digitsValue (toString k).toList = k := digitsValue_digits k
  have hraise : raise (· * ·) line e (toString k) = .ok (e.pow k) := by
    rw [raise_eq_ok_iff, hdigits]
    exact ⟨hk, rfl⟩
  exact except_bind_eq_ok.mpr ⟨e, hea, hraise⟩

/-- A phrase that has the values of a canonical expression stands for it. -/
theorem Denotes.toExpr_eq {e : Expr} (h : f.Denotes resolve e.value) (he : e.Canonical) :
    f.toExpr resolve = .ok e := by
  obtain ⟨d, hf, hd, hv⟩ := h
  rw [hf, hd.ext_value he (N := 0) fun n _ v _ => hv n v]

end Phrase

end Source

namespace Expr

variable {resolve : Resolver} {line : Nat} {f : Phrase} {x : Nat → Valuation → Rat}

/-- A monomial whose text can be read back: it has no exponential, its exponents may be written in a
source, and its symbols are what the resolver says of their names. -/
structure Readable (resolve : Resolver) (m : Monomial) : Prop where
  base_eq_one : m.base = 1
  powers_le : ∀ p ∈ m.powers, p.2 ≤ maxExponent
  identifiers : ∀ p ∈ m.powers, isIdentifier p.1.name = true
  resolved : ∀ p ∈ m.powers, resolve p.1.name = some p.1

theorem named_laterPower {powers : List (Symbol × Nat)}
    (h : ∀ p ∈ powers, isIdentifier p.1.name = true) :
    ∀ g ∈ powers.map laterPower, g.2.Named := by
  intro g hg
  obtain ⟨p, hp, rfl⟩ := List.mem_map.mp hg
  exact h p hp

theorem named_denominatorPart (q : Rat) : ∀ g ∈ denominatorPart q, g.2.Named := by
  unfold denominatorPart
  split
  · simp
  · intro g hg
    obtain rfl := List.mem_singleton.mp hg
    trivial

theorem named_writtenTerm {t : Monomial × Rat}
    (hidentifiers : ∀ p ∈ t.1.powers, isIdentifier p.1.name = true) : (writtenTerm t).Named := by
  unfold writtenTerm
  split
  · exact ⟨trivial, named_denominatorPart _⟩
  · next p powers hp =>
    rw [hp] at hidentifiers
    have hpowers := List.forall_mem_cons.mp hidentifiers
    dsimp only
    split
    · exact ⟨hpowers.1, named_laterPower hpowers.2⟩
    · refine ⟨trivial, fun g hg => ?_⟩
      rcases List.mem_append.mp hg with hg | hg
      · exact named_denominatorPart _ g hg
      · exact named_laterPower hidentifiers g hg

theorem named_writtenSum {ts : List (Monomial × Rat)}
    (h : ∀ t ∈ ts, ∀ p ∈ t.1.powers, isIdentifier p.1.name = true) : (writtenSum ts).Named := by
  cases ts with
  | nil => exact ⟨⟨trivial, by simp [writtenSum]⟩, by simp [writtenSum]⟩
  | cons t rest =>
    obtain ⟨ht, hrest⟩ := List.forall_mem_cons.mp h
    refine ⟨named_writtenTerm ht, fun u hu => ?_⟩
    obtain ⟨w, hw, rfl⟩ := List.mem_map.mp hu
    exact named_writtenTerm (hrest w hw)

theorem denotes_power (line : Nat) {p : Symbol × Nat} (hk : p.2 ≤ maxExponent)
    (hp : resolve p.1.name = some p.1) :
    ((WrittenFactor.power p.1.name p.2).phrase line).Denotes resolve
      fun n v => p.1.value n v ^ p.2 := by
  unfold WrittenFactor.phrase
  by_cases hone : p.2 = 1
  · simp only [hone, if_true, pow_one]
    exact Phrase.denotes_name hp
  · simp only [hone, if_false]
    exact (Phrase.denotes_name hp).raised hk

/-- What the other factors of a term make of the first one. -/
abbrev joinFactor (line : Nat) (acc : Phrase) (g : Bool × WrittenFactor) : Phrase :=
  if g.1 then .product acc (g.2.phrase line) else .quotient line acc (g.2.phrase line)

theorem denotes_powers {powers : List (Symbol × Nat)} (hk : ∀ p ∈ powers, p.2 ≤ maxExponent)
    (hp : ∀ p ∈ powers, resolve p.1.name = some p.1) (hf : f.Denotes resolve x) :
    ((powers.map laterPower).foldl (joinFactor line) f).Denotes resolve
      fun n v => x n v * Monomial.powerProduct (Symbol.value n v) powers := by
  induction powers generalizing f x with
  | nil => exact hf.congr fun n v => (mul_one _).symm
  | cons p powers ih =>
    obtain ⟨hkp, hk⟩ := List.forall_mem_cons.mp hk
    obtain ⟨hpp, hp⟩ := List.forall_mem_cons.mp hp
    refine (ih hk hp (hf.product (denotes_power line hkp hpp))).congr fun n v => ?_
    rw [Monomial.powerProduct_cons, mul_assoc]

theorem denotes_denominatorPart (q : Rat) (hf : f.Denotes resolve x) :
    ((denominatorPart q).foldl (joinFactor line) f).Denotes resolve
      fun n v => x n v * (q.den : Rat)⁻¹ := by
  unfold denominatorPart
  split
  · next hden => exact hf.congr fun n v => by rw [hden, Nat.cast_one, inv_one, mul_one]
  · exact hf.quotient (Nat.cast_ne_zero.mpr q.den_nz)

theorem natAbs_num_mul_inv_den {q : Rat} (hq : 0 ≤ q) :
    (q.num.natAbs : Rat) * (q.den : Rat)⁻¹ = q := by
  have hnum : ((q.num.natAbs : Int) : Rat) = q.num := by
    rw [Int.natAbs_of_nonneg (Rat.num_nonneg.mpr hq)]
  rw [← Int.cast_natCast, hnum, ← div_eq_mul_inv, Rat.num_div_den]

/-- The sign in front of a term. -/
abbrev signed (negative : Bool) (f : Phrase) : Phrase := if negative then .negated f else f

theorem denotes_signed (negative : Bool) (hf : f.Denotes resolve x) :
    (signed negative f).Denotes resolve fun n v => (if negative then -1 else 1) * x n v := by
  cases negative with
  | true => exact hf.negated.congr fun n v => (neg_one_mul _).symm
  | false => exact hf.congr fun n v => (one_mul _).symm

/-- A sign on the first factor is one on the term. -/
theorem denotes_writtenTerm (line : Nat) {t : Monomial × Rat} (ht : Readable resolve t.1)
    (negative : Bool) :
    ((writtenTerm t).phraseFrom line (signed negative ((writtenTerm t).first.phrase line))).Denotes
      resolve fun n v => (if negative then -1 else 1) * (Number.abs t.2 * t.1.value n v) := by
  obtain ⟨⟨powers, base⟩, c⟩ := t
  obtain rfl : base = 1 := ht.base_eq_one
  have hvalue : ∀ n v, Monomial.value n v ⟨powers, 1⟩ =
      Monomial.powerProduct (Symbol.value n v) powers := by
    intro n v
    rw [Monomial.value_eq, one_pow, mul_one]
  have hsize := natAbs_num_mul_inv_den (abs_nonneg c)
  have hnumber : (((denominatorPart (Number.abs c) ++ powers.map laterPower).foldl
      (joinFactor line) (signed negative (.number (Number.abs c).num.natAbs)))).Denotes resolve
      fun n v => (if negative then -1 else 1) *
        (Number.abs c * Monomial.value n v ⟨powers, 1⟩) := by
    rw [List.foldl_append]
    refine (denotes_powers ht.powers_le ht.resolved (denotes_denominatorPart _
      (denotes_signed negative (Phrase.denotes_number _)))).congr fun n v => ?_
    rw [hvalue, mul_assoc, mul_assoc, ← mul_assoc (((Number.abs c).num.natAbs : Nat) : Rat), hsize]
  cases powers with
  | nil =>
    rw [List.map_nil, List.append_nil] at hnumber
    exact hnumber
  | cons p powers =>
    unfold writtenTerm
    dsimp only
    split
    · next hone =>
      obtain ⟨hkp, hk⟩ := List.forall_mem_cons.mp ht.powers_le
      obtain ⟨hpp, hp⟩ := List.forall_mem_cons.mp ht.resolved
      refine (denotes_powers hk hp (denotes_signed negative
        (denotes_power line hkp hpp))).congr fun n v => ?_
      rw [hvalue, hone, one_mul, Monomial.powerProduct_cons, mul_assoc]
    · exact hnumber

theorem sign_mul_abs (c : Rat) : (if c < 0 then -1 else 1) * Number.abs c = c := by
  unfold Number.abs
  split
  · rw [neg_one_mul, neg_neg]
  · exact one_mul c

/-- What the other terms of a sum make of the first one. -/
abbrev joinTerm (line : Nat) (acc : Phrase) (t : Bool × WrittenTerm) : Phrase :=
  if t.1 then .sum acc (t.2.phrase line) else .difference acc (t.2.phrase line)

theorem denotes_joinTerm (line : Nat) {t : Monomial × Rat} (ht : Readable resolve t.1)
    (hf : f.Denotes resolve x) :
    (joinTerm line f (laterTerm t)).Denotes resolve fun n v => x n v + t.2 * t.1.value n v := by
  have hterm := denotes_writtenTerm line ht false
  simp only [Bool.false_eq_true, if_false, one_mul] at hterm
  unfold joinTerm laterTerm
  have hsign := sign_mul_abs t.2
  by_cases hneg : t.2 < 0
  · rw [if_pos hneg, neg_one_mul] at hsign
    simp only [hneg, decide_true, Bool.not_true, Bool.false_eq_true, if_false]
    refine (hf.difference hterm).congr fun n v => ?_
    rw [sub_eq_add_neg, ← neg_mul, hsign]
  · rw [if_neg hneg, one_mul] at hsign
    simp only [hneg, decide_false, Bool.not_false, if_true]
    refine (hf.sum hterm).congr fun n v => ?_
    rw [hsign]

theorem denotes_terms (line : Nat) {ts : List (Monomial × Rat)} (h : ∀ t ∈ ts, Readable resolve t.1)
    (hf : f.Denotes resolve x) :
    ((ts.map laterTerm).foldl (joinTerm line) f).Denotes resolve
      fun n v => x n v + (ts.map fun t => t.2 * t.1.value n v).sum := by
  induction ts generalizing f x with
  | nil => exact hf.congr fun n v => (add_zero _).symm
  | cons t ts ih =>
    obtain ⟨ht, hts⟩ := List.forall_mem_cons.mp h
    refine (ih hts (denotes_joinTerm line ht hf)).congr fun n v => ?_
    rw [List.map_cons, List.sum_cons, add_assoc]

theorem denotes_writtenSum {ts : List (Monomial × Rat)} (h : ∀ t ∈ ts, Readable resolve t.1) :
    ((writtenSum ts).phrase line).Denotes resolve
      fun n v => (ts.map fun t => t.2 * t.1.value n v).sum := by
  cases ts with
  | nil => exact Phrase.denotes_number 0
  | cons t ts =>
    obtain ⟨ht, hts⟩ := List.forall_mem_cons.mp h
    have hfirst := denotes_writtenTerm line ht (decide (t.2 < 0))
    refine (denotes_terms line hts hfirst).congr fun n v => ?_
    have hsign := sign_mul_abs t.2
    simp only [decide_eq_true_eq]
    rw [← mul_assoc, hsign, List.map_cons, List.sum_cons]

/-- The terms of a readable expression, as they are written, stand for the expression. -/
theorem toExpr_writtenSum {e : Expr} (he : e.Canonical) (h : ∀ t ∈ e.terms, Readable resolve t.1)
    (line : Nat) :
    ((writtenSum (e.terms.mergeSort writtenBefore)).phrase line).toExpr resolve = .ok e := by
  have hvalue : ∀ n v, ((e.terms.mergeSort writtenBefore).map
      fun t => t.2 * t.1.value n v).sum = e.value n v := by
    intro n v
    rw [value_eq_sum]
    exact ((List.mergeSort_perm e.terms writtenBefore).map _).sum_eq
  have hsorted : ∀ t ∈ e.terms.mergeSort writtenBefore, Readable resolve t.1 :=
    fun t ht => h t (List.mem_mergeSort.mp ht)
  exact ((denotes_writtenSum hsorted).congr hvalue).toExpr_eq he

end Expr

end ProbLoop
