import Mathlib.Algebra.Order.Field.Rat
import Mathlib.Data.List.Induction
import Mathlib.Data.Nat.Digits.Defs
import ProbLoop.Proofs.Source.Written

/-!
# How phrases are spelled

The rules by which a text is an arithmetic phrase, without a reader: sums and products associate to the
left, products bind tighter than sums, signs tighter than products, powers tighter than signs, and
brackets and literals tightest. Between the parts of a phrase there may be blanks.
-/

set_option autoImplicit false

namespace ProbLoop.Source

/-- The digit that a character stands for. -/
def digit (c : Char) : Nat := c.toNat - '0'.toNat

/-- The number that a row of digits stands for in base ten. -/
def numeral (ds : List Char) : Nat := Nat.ofDigits 10 (ds.reverse.map digit)

/-- One digit or more. -/
def IsDigits (s : List Char) : Prop := s ≠ [] ∧ ∀ c ∈ s, isDigit c = true

/-- Blanks and tabulators. -/
def IsBlank (s : List Char) : Prop := ∀ c ∈ s, c = ' ' ∨ c = '\t'

/-- Literals. The digits on one side of a point may be missing. -/
inductive SpellsNumber : List Char → Rat → Prop
  | whole {ds : List Char} (h : IsDigits ds) : SpellsNumber ds (numeral ds)
  | point {ds fs : List Char} (hds : ∀ c ∈ ds, isDigit c = true) (hfs : ∀ c ∈ fs, isDigit c = true)
      (hne : ds ≠ [] ∨ fs ≠ []) :
      SpellsNumber (ds ++ '.' :: fs) (numeral ds + numeral fs / 10 ^ fs.length)

/-- How tightly the outermost operator of a phrase binds. -/
inductive Binding where
  | sum
  | product
  | signed
  | power
  | atom

/-- The text is the phrase, and its outermost operator binds at least as tightly as is said. -/
inductive Spells (line : Nat) : Binding → List Char → Phrase → Prop
  | number {s : List Char} {q : Rat} (h : SpellsNumber s q) : Spells line .atom s (.number q)
  | name {s : String} (h : isIdentifier s = true) : Spells line .atom s.toList (.name s)
  | brackets {l s r : List Char} {f : Phrase} (hl : IsBlank l) (h : Spells line .sum s f)
      (hr : IsBlank r) : Spells line .atom ('(' :: (l ++ (s ++ (r ++ [')'])))) f
  | atom {s : List Char} {f : Phrase} (h : Spells line .atom s f) : Spells line .power s f
  | raised {s l r ds : List Char} {f : Phrase} {op : String} (h : Spells line .atom s f)
      (hl : IsBlank l) (hop : op = "**" ∨ op = "^") (hr : IsBlank r) (hds : IsDigits ds) :
      Spells line .power (s ++ (l ++ (op.toList ++ (r ++ ds)))) (.raised line f (String.ofList ds))
  | power {s : List Char} {f : Phrase} (h : Spells line .power s f) : Spells line .signed s f
  | minus {l s : List Char} {f : Phrase} (hl : IsBlank l) (h : Spells line .signed s f) :
      Spells line .signed ('-' :: (l ++ s)) (.negated f)
  | plus {l s : List Char} {f : Phrase} (hl : IsBlank l) (h : Spells line .signed s f) :
      Spells line .signed ('+' :: (l ++ s)) f
  | signed {s : List Char} {f : Phrase} (h : Spells line .signed s f) : Spells line .product s f
  | product {s l r t : List Char} {a b : Phrase} (ha : Spells line .product s a) (hl : IsBlank l)
      (hr : IsBlank r) (hb : Spells line .signed t b) :
      Spells line .product (s ++ (l ++ '*' :: (r ++ t))) (.product a b)
  | quotient {s l r t : List Char} {a b : Phrase} (ha : Spells line .product s a) (hl : IsBlank l)
      (hr : IsBlank r) (hb : Spells line .signed t b) :
      Spells line .product (s ++ (l ++ '/' :: (r ++ t))) (.quotient line a b)
  | term {s : List Char} {f : Phrase} (h : Spells line .product s f) : Spells line .sum s f
  | sum {s l r t : List Char} {a b : Phrase} (ha : Spells line .sum s a) (hl : IsBlank l)
      (hr : IsBlank r) (hb : Spells line .product t b) :
      Spells line .sum (s ++ (l ++ '+' :: (r ++ t))) (.sum a b)
  | difference {s l r t : List Char} {a b : Phrase} (ha : Spells line .sum s a) (hl : IsBlank l)
      (hr : IsBlank r) (hb : Spells line .product t b) :
      Spells line .sum (s ++ (l ++ '-' :: (r ++ t))) (.difference a b)

/-- Blanks, perhaps with a comment behind them that has no line end. -/
def IsTrailer (s : List Char) : Prop :=
  ∃ blanks comment, s = blanks ++ comment ∧ IsBlank blanks ∧
    (comment = [] ∨ ∃ t, comment = '#' :: t ∧ ∀ c ∈ t, c ≠ '\n' ∧ c ≠ '\r')

/-- The whole text is the phrase. -/
def SpellsText (text : String) (f : Phrase) : Prop :=
  ∃ l s r, text.toList = l ++ (s ++ r) ∧ IsBlank l ∧ Spells 1 .sum s f ∧ IsTrailer r

/-! ### Numbers -/

theorem numeral_append (ds fs : List Char) :
    numeral (ds ++ fs) = numeral ds * 10 ^ fs.length + numeral fs := by
  rw [numeral, List.reverse_append, List.map_append, Nat.ofDigits_append, List.length_map,
    List.length_reverse, add_comm, mul_comm]
  rfl

theorem digitsValue_eq_numeral (ds : List Char) : digitsValue ds = numeral ds := by
  induction ds using List.reverseRecOn with
  | nil => rfl
  | append_singleton ds c ih =>
    have hone : numeral [c] = digit c := Nat.ofDigits_singleton
    rw [numeral_append, hone, ← ih, digitsValue, List.foldl_append]
    exact congrArg (· + digit c) (mul_comm 10 _)

/-- The digits behind the point are as many places below one. -/
theorem decimalValue_eq (ds fs : List Char) :
    decimalValue ds fs = numeral ds + numeral fs / 10 ^ fs.length := by
  have hpos : (10 : Rat) ^ fs.length ≠ 0 := pow_ne_zero _ (by norm_num)
  have hcast : ((Nat.pow 10 fs.length : Nat) : Rat) = 10 ^ fs.length := Nat.cast_pow 10 fs.length
  rw [decimalValue, digitsValue_eq_numeral, numeral_append, Rat.mkRat_eq_div, Int.cast_natCast, hcast,
    Nat.cast_add, Nat.cast_mul, Nat.cast_pow, add_div, Nat.cast_ofNat, mul_div_cancel_right₀ _ hpos]

/-! ### First characters -/

variable {line : Nat} {b : Binding} {s : List Char} {f : Phrase} {q : Rat} {c : Char}

theorem IsDigits.exists_head (h : IsDigits s) : ∃ c tail, s = c :: tail ∧ isDigit c = true := by
  obtain ⟨c, tail, rfl⟩ := List.exists_cons_of_ne_nil h.1
  exact ⟨c, tail, rfl, h.2 c List.mem_cons_self⟩

/-- The characters with which powers begin. -/
def isPowerStart (c : Char) : Bool := isNameChar c || c == '.' || c == '('

/-- The characters with which phrases begin: those of powers, and signs. -/
def isPhraseStart (c : Char) : Bool := isPowerStart c || c == '-' || c == '+'

def Binding.isStart : Binding → Char → Bool
  | .power | .atom => isPowerStart
  | _ => isPhraseStart

theorem isPowerStart_of_isNameChar (h : isNameChar c = true) : isPowerStart c = true := by
  rw [isPowerStart, h, Bool.true_or, Bool.true_or]

theorem isPhraseStart_of_isPowerStart (h : isPowerStart c = true) : isPhraseStart c = true := by
  rw [isPhraseStart, h, Bool.true_or, Bool.true_or]

theorem Binding.isPhraseStart_of_isStart (h : b.isStart c = true) : isPhraseStart c = true := by
  cases b with
  | power | atom => exact isPhraseStart_of_isPowerStart h
  | sum | product | signed => exact h

theorem SpellsNumber.exists_head (h : SpellsNumber s q) :
    ∃ c tail, s = c :: tail ∧ isPowerStart c = true := by
  cases h with
  | whole h =>
    obtain ⟨c, tail, rfl, hc⟩ := h.exists_head
    exact ⟨c, tail, rfl, isPowerStart_of_isNameChar (isNameChar_of_isDigit hc)⟩
  | @point ds fs hds _ _ =>
    cases ds with
    | nil => exact ⟨'.', fs, rfl, rfl⟩
    | cons c ds =>
      have hc := hds c List.mem_cons_self
      exact ⟨c, _, rfl, isPowerStart_of_isNameChar (isNameChar_of_isDigit hc)⟩

theorem Spells.exists_head (h : Spells line b s f) : ∃ c tail, s = c :: tail ∧ b.isStart c = true := by
  induction h with
  | number h => exact h.exists_head
  | name h =>
    obtain ⟨c, tail, hs, hc, -⟩ := exists_of_isIdentifier h
    exact ⟨c, tail, hs, isPowerStart_of_isNameChar (isNameChar_of_isLetter hc)⟩
  | brackets => exact ⟨'(', _, rfl, rfl⟩
  | minus => exact ⟨'-', _, rfl, rfl⟩
  | plus => exact ⟨'+', _, rfl, rfl⟩
  | atom _ ih | signed _ ih | term _ ih => exact ih
  | power _ ih =>
    obtain ⟨c, tail, rfl, hc⟩ := ih
    exact ⟨c, tail, rfl, isPhraseStart_of_isPowerStart hc⟩
  | raised _ _ _ _ _ ih | product _ _ _ _ ih | quotient _ _ _ _ ih | sum _ _ _ _ ih
  | difference _ _ _ _ ih =>
    obtain ⟨c, tail, rfl, hc⟩ := ih
    exact ⟨c, _, rfl, hc⟩

/-- A phrase does not begin with a character of another kind. -/
theorem ne_of_isPhraseStart {d : Char} (h : isPhraseStart c = true) (hd : isPhraseStart d = false) :
    c ≠ d := by
  rintro rfl
  rw [h] at hd
  cases hd

end ProbLoop.Source
