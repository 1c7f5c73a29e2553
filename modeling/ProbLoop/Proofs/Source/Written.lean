import ProbLoop.Proofs.Source.Reading
import ProbLoop.Source.Grammar

/-!
# Sums as they are written

The text of an expression is a row of terms with signs between blanks, and a term is a row of numbers
and powers with product signs and strokes. The grammar reads such a row back into a phrase that
associates to the left, with the sign of the first term on its first factor.
-/

set_option autoImplicit false

namespace ProbLoop.Source

open Reader

variable {line : Nat} {rest text : List Char}

/-- Holds of a word that the grammar reads as a name. -/
def isIdentifier (s : String) : Bool :=
  match s.toList with
  | [] => false
  | c :: rest => isLetter c && rest.all isNameChar

/-- The decimal digits of a number. -/
def digits (k : Nat) : List Char := (toString k).toList

/-- A factor of a term: a number or a power of a name. -/
inductive WrittenFactor where
  | number (k : Nat)
  | power (name : String) (k : Nat)

namespace WrittenFactor

/-- The exponent one is not written. -/
def chars : WrittenFactor → List Char
  | number k => digits k
  | power name k => if k = 1 then name.toList else name.toList ++ ('*' :: '*' :: digits k)

def phrase (line : Nat) : WrittenFactor → Phrase
  | number k => .number k
  | power name k => if k = 1 then .name name else .raised line (.name name) (toString k)

def Named : WrittenFactor → Prop
  | number _ => True
  | power name _ => isIdentifier name = true

end WrittenFactor

/-- A term without its sign. The other factors are multiplied by, or they divide. -/
structure WrittenTerm where
  first : WrittenFactor
  others : List (Bool × WrittenFactor)

namespace WrittenTerm

/-- A factor behind its sign. -/
def laterChars (f : Bool × WrittenFactor) : List Char :=
  (if f.1 then '*' else '/') :: f.2.chars

def chars (t : WrittenTerm) : List Char :=
  t.first.chars ++ t.others.flatMap laterChars

/-- The factors are taken together from the left. -/
def phraseFrom (line : Nat) (t : WrittenTerm) (first : Phrase) : Phrase :=
  t.others.foldl (fun acc f =>
    if f.1 then .product acc (f.2.phrase line) else .quotient line acc (f.2.phrase line)) first

def phrase (line : Nat) (t : WrittenTerm) : Phrase := t.phraseFrom line (t.first.phrase line)

def Named (t : WrittenTerm) : Prop :=
  t.first.Named ∧ ∀ f ∈ t.others, f.2.Named

end WrittenTerm

/-- A sum of terms, each with its sign. The sign of the first term is written if it is a minus. -/
structure WrittenSum where
  negative : Bool
  first : WrittenTerm
  others : List (Bool × WrittenTerm)

namespace WrittenSum

/-- A term behind its sign, which is positive if the flag is set. -/
def laterChars (t : Bool × WrittenTerm) : List Char :=
  ' ' :: (if t.1 then '+' else '-') :: ' ' :: t.2.chars

def chars (s : WrittenSum) : List Char :=
  (if s.negative then ['-'] else []) ++ s.first.chars ++ s.others.flatMap laterChars

/-- A sign binds tighter than a product, so that of the first term applies to its first factor. -/
def firstPhrase (line : Nat) (s : WrittenSum) : Phrase :=
  s.first.phraseFrom line
    (if s.negative then .negated (s.first.first.phrase line) else s.first.first.phrase line)

def phrase (line : Nat) (s : WrittenSum) : Phrase :=
  s.others.foldl (fun acc t =>
    if t.1 then .sum acc (t.2.phrase line) else .difference acc (t.2.phrase line))
    (s.firstPhrase line)

def Named (s : WrittenSum) : Prop :=
  s.first.Named ∧ ∀ t ∈ s.others, t.2.Named

end WrittenSum

/-- The characters that may follow a sum where it is part of a larger phrase. -/
def isStop (c : Char) : Bool := [';', ',', ')', '@', '>', ':', '\n'].contains c

/-- The characters that may follow a term: those that may follow a sum, and signs. -/
def isStopOrSign (c : Char) : Bool := isStop c || c == '+' || c == '-'

/-- What may follow a sum. -/
abbrev EndsSum : List Char → Prop := Ends isStop

/-- What may follow a term. -/
abbrev EndsTerm : List Char → Prop := Ends isStopOrSign

/-- What may follow a factor. A product sign is not the beginning of a power sign. -/
inductive EndsFactor : List Char → Prop
  | term {text : List Char} (h : EndsTerm text) : EndsFactor text
  | times {c : Char} (h : c ≠ '*') (text : List Char) : EndsFactor ('*' :: c :: text)
  | divided (text : List Char) : EndsFactor ('/' :: text)

section Characters

theorem isDigit_eq (c : Char) : isDigit c = c.isDigit := rfl

theorem digits_eq (k : Nat) : digits k = Nat.toDigits 10 k := Nat.toList_repr

theorem isDigit_of_mem_digits {k : Nat} : ∀ c ∈ digits k, isDigit c = true := by
  intro c hc
  rw [digits_eq] at hc
  rw [isDigit_eq]
  exact Nat.isDigit_of_mem_toDigits (by decide) le_rfl hc

theorem digits_ne_nil (k : Nat) : digits k ≠ [] := by
  rw [digits_eq]
  exact Nat.toDigits_ne_nil

theorem digitsValue_digits (k : Nat) : digitsValue (digits k) = k := by
  rw [digits_eq]
  exact Nat.ofDigitChars_toDigits (by decide) le_rfl

theorem isNameChar_of_isDigit {c : Char} (h : isDigit c = true) : isNameChar c = true := by
  rw [isNameChar, h, Bool.or_true]

theorem isNameChar_of_isLetter {c : Char} (h : isLetter c = true) : isNameChar c = true := by
  rw [isNameChar, h, Bool.true_or]

/-- A character that the grammar uses for anything but words and numbers is not part of a word. -/
theorem ne_of_isNameChar {c d : Char} (h : isNameChar c = true) (hd : isNameChar d = false) :
    c ≠ d := by
  rintro rfl
  rw [h] at hd
  exact absurd hd (by decide)

theorem isDigit_eq_false_of_isLetter {c : Char} (h : isLetter c = true) : isDigit c = false := by
  have hle : ∀ a b : Char, a ≤ b ↔ a.toNat ≤ b.toNat := fun a b => UInt32.le_iff_toNat_le
  have hs : c = '_' → isDigit c = false := by
    rintro rfl
    decide
  simp only [isLetter, Bool.or_eq_true, Bool.and_eq_true, decide_eq_true_eq, beq_iff_eq, hle] at h
  rcases h with (h | h) | h
  · have hlow : 'a'.toNat = 97 := rfl
    have h9 : '9'.toNat = 57 := rfl
    simp only [isDigit, hle, Bool.and_eq_false_iff, decide_eq_false_iff_not]
    omega
  · have hlow : 'A'.toNat = 65 := rfl
    have h9 : '9'.toNat = 57 := rfl
    simp only [isDigit, hle, Bool.and_eq_false_iff, decide_eq_false_iff_not]
    omega
  · exact hs h

theorem exists_of_isIdentifier {s : String} (h : isIdentifier s = true) :
    ∃ c tail, s.toList = c :: tail ∧ isLetter c = true ∧ ∀ d ∈ tail, isNameChar d = true := by
  unfold isIdentifier at h
  split at h
  · simp at h
  · next c tail hs =>
    rw [Bool.and_eq_true, List.all_eq_true] at h
    exact ⟨c, tail, hs, h.1, h.2⟩

end Characters

/-- A factor begins with a letter or a digit. -/
theorem WrittenFactor.Named.exists_head {f : WrittenFactor} (h : f.Named) :
    ∃ c tail, f.chars = c :: tail ∧ isNameChar c = true := by
  cases f with
  | number k =>
    obtain ⟨c, tail, hc⟩ := List.exists_cons_of_ne_nil (digits_ne_nil k)
    have hmem : c ∈ digits k := hc ▸ List.mem_cons_self
    exact ⟨c, tail, hc, isNameChar_of_isDigit (isDigit_of_mem_digits c hmem)⟩
  | power s k =>
    obtain ⟨c, tail, hs, hc, -⟩ := exists_of_isIdentifier h
    rw [WrittenFactor.chars, hs]
    split
    · exact ⟨c, tail, rfl, isNameChar_of_isLetter hc⟩
    · exact ⟨c, _, rfl, isNameChar_of_isLetter hc⟩

/-- No character that may follow a term is of use inside one. -/
theorem ne_of_isStopOrSign {c d : Char} (h : isStopOrSign c = true) (hd : isStopOrSign d = false) :
    c ≠ d := by
  rintro rfl
  rw [h] at hd
  exact absurd hd (by decide)

theorem space_of_isStopOrSign (c : Char) (h : isStopOrSign c = true) :
    c ≠ ' ' ∧ c ≠ '\t' ∧ c ≠ '#' :=
  ⟨ne_of_isStopOrSign h rfl, ne_of_isStopOrSign h rfl, ne_of_isStopOrSign h rfl⟩

theorem isStopOrSign_of_isStop (c : Char) (h : isStop c = true) : isStopOrSign c = true := by
  rw [isStopOrSign, h, Bool.true_or, Bool.true_or]

theorem EndsSum.endsTerm (h : EndsSum rest) : EndsTerm rest := h.mono isStopOrSign_of_isStop

theorem isNameChar_eq_false_of_isStopOrSign {c : Char} (h : isStopOrSign c = true) :
    isNameChar c = false := by
  simp only [isStopOrSign, isStop, List.contains_eq_mem, List.mem_cons, List.not_mem_nil, or_false,
    Bool.or_eq_true, decide_eq_true_eq, beq_iff_eq] at h
  rcases h with ((rfl | rfl | rfl | rfl | rfl | rfl | rfl) | rfl) | rfl <;> rfl

theorem EndsFactor.head {c : Char} (h : EndsFactor rest) (hc : c ∈ rest.head?) :
    isNameChar c = false ∧ c ≠ '.' := by
  cases h with
  | term h =>
    cases h with
    | nil => simp at hc
    | here h text =>
      obtain rfl := Option.some.inj hc
      exact ⟨isNameChar_eq_false_of_isStopOrSign h, ne_of_isStopOrSign h rfl⟩
    | blank h text =>
      obtain rfl := Option.some.inj hc
      decide
  | times h text =>
    obtain rfl := Option.some.inj hc
    decide
  | divided text =>
    obtain rfl := Option.some.inj hc
    decide

/-- What may follow a name or a number is not part of it. -/
theorem EndsFactor.isDigit_eq_false (h : EndsFactor rest) :
    ∀ c ∈ rest.head?, isDigit c = false := by
  intro c hc
  have hname := (h.head hc).1
  rw [isNameChar, Bool.or_eq_false_iff] at hname
  exact hname.2

/-- In front of a word or a number there is nothing to skip. -/
theorem takes_gap_of_isNameChar {c : Char} (hc : isNameChar c = true) (text : List Char) :
    Takes line gap [] () (c :: text) :=
  takes_gap ⟨ne_of_isNameChar hc (by decide), ne_of_isNameChar hc (by decide),
    ne_of_isNameChar hc (by decide)⟩ text

/-- Nothing that begins like a word or a number is a literal of other characters. -/
theorem misses_literal_of_isNameChar {c : Char} (hc : isNameChar c = true) (text : List Char)
    {s : String} {d : Char} {tail : List Char} (hs : s.toList = d :: tail)
    (hd : isNameChar d = false) : Misses line (literal s) (c :: text) := by
  apply misses_literal
  rw [hs, behind, if_neg (ne_of_isNameChar hc hd).symm]

theorem misses_literal_of_isStopOrSign {c : Char} (hc : isStopOrSign c = true) (text : List Char)
    {s : String} {d : Char} {tail : List Char} (hs : s.toList = d :: tail)
    (hd : isStopOrSign d = false) : Misses line (literal s) (c :: text) := by
  apply misses_literal
  rw [hs, behind, if_neg (ne_of_isStopOrSign hc hd).symm]

theorem takes_number {k : Nat} (hrest : EndsFactor rest) :
    Takes line number (digits k) (.number k) rest := by
  apply Takes.construct
  apply Takes.after (takes_run isDigit_of_mem_digits hrest.isDigit_eq_false)
  have hpoint : Misses line (literal "." >>= fun _ => run isDigit) rest := by
    apply Misses.bind
    apply misses_literal
    cases rest with
    | nil => rfl
    | cons c text => exact if_neg (hrest.head rfl).2.symm
  have hvalue : decimalValue (digits k) [] = k := by
    rw [decimalValue, List.append_nil, digitsValue_digits]
    exact Rat.mkRat_one _
  cases hk : digits k with
  | nil => exact absurd hk (digits_ne_nil k)
  | cons c tail =>
    rw [← hvalue, hk]
    exact hpoint.optional.before (takes_pure _ rest)

theorem takes_name {s : String} (hs : isIdentifier s = true)
    (hrest : ∀ d ∈ rest.head?, isNameChar d = false) : Takes line name s.toList s rest := by
  obtain ⟨c, tail, hchars, hc, htail⟩ := exists_of_isIdentifier hs
  apply Takes.construct
  have hall : ∀ d ∈ s.toList, isNameChar d = true := by
    rw [hchars]
    exact List.forall_mem_cons.mpr ⟨isNameChar_of_isLetter hc, htail⟩
  apply Takes.after (takes_run hall hrest)
  have hword : String.ofList (c :: tail) = s := by rw [← hchars, String.ofList_toList]
  rw [hchars]
  dsimp only
  rw [if_pos hc, hword]
  exact takes_pure s rest

theorem misses_number {s : String} (hs : isIdentifier s = true) (text : List Char) :
    Misses line number (s.toList ++ text) := by
  obtain ⟨c, tail, hchars, hc, -⟩ := exists_of_isIdentifier hs
  rw [hchars]
  apply Misses.construct
  apply Takes.misses (t := []) (a := [])
  · apply takes_run (by simp)
    intro d hd
    obtain rfl := Option.some.inj hd
    exact isDigit_eq_false_of_isLetter hc
  · exact (misses_literal_of_isNameChar (isNameChar_of_isLetter hc) _ rfl (by decide)).bind

theorem sign_ne (plus : Bool) : (if plus then '+' else '-') ≠ ' ' ∧
    (if plus then '+' else '-') ≠ '\t' ∧ (if plus then '+' else '-') ≠ '#' := by
  cases plus <;> decide

section Exponent

/-- Neither of the power signs. -/
theorem misses_powerSign {text : List Char} (h : behind "**".toList text = none)
    (hcaret : behind "^".toList text = none) :
    Misses line (literal "**" <|> literal "^") text :=
  (misses_literal h).orElse (misses_literal hcaret)

/-- The exponent of a power with its sign. -/
abbrev exponentPart : Reader String := do
  gap
  literal "**" <|> literal "^"
  gap
  exponent

theorem takes_exponentPart {k : Nat} (hrest : EndsFactor rest) :
    Takes line exponentPart ('*' :: '*' :: digits k) (toString k) rest := by
  obtain ⟨c, tail, hk⟩ := List.exists_cons_of_ne_nil (digits_ne_nil k)
  have hc : isNameChar c = true :=
    isNameChar_of_isDigit (isDigit_of_mem_digits c (hk ▸ List.mem_cons_self))
  have hexponent : Takes line exponent (digits k) (toString k) rest := by
    apply Takes.construct
    apply Takes.after (takes_nonemptyRun (digits_ne_nil k) isDigit_of_mem_digits
      hrest.isDigit_eq_false)
    rw [digits, String.ofList_toList]
    exact takes_pure _ rest
  apply Takes.before (takes_gap (by decide) _)
  apply Takes.bind (s := ['*', '*']) (takes_literal "**" _).orElse
  have hgap : Takes line gap [] () (digits k ++ rest) := by
    rw [hk]
    exact takes_gap_of_isNameChar hc _
  exact hgap.before hexponent

theorem misses_exponentPart (hrest : EndsFactor rest) : Misses line exponentPart rest := by
  cases hrest with
  | term h =>
    refine h.misses_gap space_of_isStopOrSign (misses_powerSign rfl rfl).bind fun c text hc => ?_
    exact ((misses_literal_of_isStopOrSign hc text rfl rfl).orElse
      (misses_literal_of_isStopOrSign hc text rfl rfl)).bind
  | times h text =>
    apply Takes.misses (t := []) (takes_gap (by decide) _)
    refine (misses_powerSign ?_ rfl).bind
    exact if_neg h.symm
  | divided text =>
    apply Takes.misses (t := []) (takes_gap (by decide) _)
    exact (misses_powerSign rfl rfl).bind

end Exponent

variable {inner : Reader Phrase} {f : WrittenFactor} {t : WrittenTerm} {s : WrittenSum} {depth : Nat}

theorem takes_power (hf : f.Named) (hrest : EndsFactor rest) :
    Takes line (power inner) f.chars (f.phrase line) rest := by
  apply Takes.construct
  apply Takes.before (takes_lineNumber _)
  cases f with
  | number k =>
    apply Takes.after (takes_number hrest).orElse
    exact (misses_exponentPart hrest).optional.before (takes_pure _ rest)
  | power name k =>
    have hname : ∀ text : List Char, (∀ d ∈ text.head?, isNameChar d = false) →
        Takes line (atom inner) name.toList (.name name) text := by
      intro text htext
      apply (misses_number hf text).orElse_takes
      apply Takes.orElse
      exact (takes_name hf htext).after (takes_pure _ text)
    rw [WrittenFactor.chars, WrittenFactor.phrase]
    split
    · apply Takes.after (hname rest fun d hd => (hrest.head hd).1)
      exact (misses_exponentPart hrest).optional.before (takes_pure _ rest)
    · apply Takes.bind (hname _ fun d hd => ?_)
      · exact (takes_exponentPart hrest).optional.after (takes_pure _ rest)
      · obtain rfl := Option.some.inj hd
        decide

/-- A word or a number has no sign in front of it. -/
theorem misses_signOp {c : Char} (hc : isNameChar c = true) (text : List Char) :
    Misses line signOp (c :: text) :=
  ((misses_literal_of_isNameChar hc text rfl (by decide)).bind.orElse
    (misses_literal_of_isNameChar hc text rfl (by decide)).bind).construct

theorem takes_unary (hf : f.Named) (hrest : EndsFactor rest) :
    Takes line (unary inner (depth + 1)) f.chars (f.phrase line) rest := by
  obtain ⟨c, tail, hchars, hc⟩ := hf.exists_head
  have hsign : Misses line signOp (f.chars ++ rest) := by
    rw [hchars]
    exact misses_signOp hc _
  exact (hsign.bind.orElse_takes (takes_power hf hrest)).construct

theorem takes_unary_negated (hf : f.Named) (hrest : EndsFactor rest) :
    Takes line (unary inner (depth + 2)) ('-' :: f.chars) (.negated (f.phrase line)) rest := by
  obtain ⟨c, tail, hchars, hc⟩ := hf.exists_head
  have hsign : Takes line signOp ['-'] true (f.chars ++ rest) := by
    apply Takes.construct
    apply Takes.orElse
    exact (takes_literal "-" _).after (takes_pure true _)
  have hgap : Takes line gap [] () (f.chars ++ rest) := by
    rw [hchars]
    exact takes_gap_of_isNameChar hc _
  apply Takes.construct
  apply Takes.orElse
  apply Takes.bind (s := ['-']) hsign
  exact hgap.before ((takes_unary hf hrest).after (takes_pure _ rest))

/-- A factor behind its sign in a product. -/
abbrev factorPart (inner : Reader Phrase) (depth : Nat) : Reader (Bool × Phrase) := do
  gap
  let times ← mulOp
  gap
  return (times, ← unary inner depth)

theorem takes_factorPart {g : Bool × WrittenFactor} (hg : g.2.Named) (hrest : EndsFactor rest) :
    Takes line (factorPart inner (depth + 1)) (WrittenTerm.laterChars g) (g.1, g.2.phrase line)
      rest := by
  obtain ⟨times, f⟩ := g
  obtain ⟨c, tail, hchars, hc⟩ := WrittenFactor.Named.exists_head hg
  have hgap : Takes line gap [] () (f.chars ++ rest) := by
    rw [hchars]
    exact takes_gap_of_isNameChar hc _
  have hop : Takes line mulOp [if times then '*' else '/'] times (f.chars ++ rest) := by
    apply Takes.construct
    cases times with
    | true =>
      apply Takes.orElse
      have habsent : behind "**".toList ('*' :: (f.chars ++ rest)) = none := by
        rw [hchars]
        exact if_neg (ne_of_isNameChar hc (by decide)).symm
      exact (takes_absent habsent).before ((takes_literal "*" _).after (takes_pure _ _))
    | false =>
      apply Misses.orElse_takes
      · exact Takes.misses (t := []) (takes_absent rfl) (misses_literal rfl).bind
      · exact (takes_literal "/" _).after (takes_pure _ _)
  apply Takes.before (takes_gap (by cases times <;> simp) _)
  apply Takes.bind (s := [if times then '*' else '/']) hop
  exact hgap.before ((takes_unary hg hrest).after (takes_pure _ rest))

theorem misses_mulOp (htimes : behind "*".toList text = none) (hover : behind "/".toList text = none) :
    Misses line mulOp text := by
  apply Misses.construct
  apply Misses.orElse
  · cases habsent : behind "**".toList text with
    | none => exact Takes.misses (t := []) (takes_absent habsent) (misses_literal htimes).bind
    | some _ =>
      apply Misses.bind
      intro offset reach
      exact ⟨reach, by rw [absent, habsent]⟩
  · exact (misses_literal hover).bind

theorem misses_factorPart (hrest : EndsTerm rest) :
    Misses line (factorPart inner depth) rest := by
  refine hrest.misses_gap space_of_isStopOrSign (misses_mulOp rfl rfl).bind fun c text hc => ?_
  refine (misses_mulOp ?_ ?_).bind <;> exact if_neg (ne_of_isStopOrSign hc rfl).symm

theorem laterChars_endsFactor {g : Bool × WrittenFactor} (hg : g.2.Named) (text : List Char) :
    EndsFactor (WrittenTerm.laterChars g ++ text) := by
  obtain ⟨times, f⟩ := g
  obtain ⟨c, tail, hchars, hc⟩ := WrittenFactor.Named.exists_head hg
  rw [WrittenTerm.laterChars, hchars]
  cases times with
  | true => exact .times (ne_of_isNameChar hc (by decide)) _
  | false => exact .divided _

/-- The other factors of a term are read in front of whatever may follow the term. -/
theorem takes_factors (line : Nat) (inner : Reader Phrase) (depth : Nat) (ht : t.Named)
    (hrest : EndsTerm rest) :
    EndsFactor (t.others.flatMap WrittenTerm.laterChars ++ rest) ∧
      Takes line (many (factorPart inner (depth + 1))) (t.others.flatMap WrittenTerm.laterChars)
        (t.others.map fun g => (g.1, g.2.phrase line)) rest := by
  apply takes_many EndsFactor
  · intro g _
    exact List.cons_ne_nil _ _
  · intro g hg text _
    exact laterChars_endsFactor (ht.2 g hg) text
  · intro g hg text htext
    exact takes_factorPart (ht.2 g hg) htext
  · exact .term hrest
  · exact misses_factorPart hrest

theorem takes_term (ht : t.Named) (hrest : EndsTerm rest) :
    Takes line (term inner (depth + 1)) t.chars (t.phrase line) rest := by
  obtain ⟨hends, hothers⟩ := takes_factors line inner depth ht hrest
  apply Takes.construct
  apply Takes.before (takes_lineNumber _)
  apply Takes.bind (takes_unary ht.1 hends)
  apply hothers.after
  rw [List.foldl_map]
  exact takes_pure _ rest

theorem takes_term_negated (ht : t.Named) (hrest : EndsTerm rest) :
    Takes line (term inner (depth + 2)) ('-' :: t.chars)
      (t.phraseFrom line (.negated (t.first.phrase line))) rest := by
  obtain ⟨hends, hothers⟩ := takes_factors line inner (depth + 1) ht hrest
  apply Takes.construct
  apply Takes.before (takes_lineNumber _)
  apply Takes.bind (s := '-' :: t.first.chars) (takes_unary_negated ht.1 hends)
  apply hothers.after
  rw [List.foldl_map]
  exact takes_pure _ rest

/-- A term behind its sign in a sum. -/
abbrev summandPart (part : Reader Phrase) : Reader (Bool × Phrase) := do
  gap
  let plus ← addOp
  gap
  return (plus, ← part)

theorem takes_summandPart {u : Bool × WrittenTerm} (hu : u.2.Named) (hrest : EndsTerm rest) :
    Takes line (summandPart (term inner (depth + 1))) (WrittenSum.laterChars u)
      (u.1, u.2.phrase line) rest := by
  obtain ⟨plus, t⟩ := u
  obtain ⟨c, tail, hchars, hc⟩ := hu.1.exists_head
  have hgap : Takes line gap [' '] () (t.chars ++ rest) := by
    rw [WrittenTerm.chars, hchars]
    exact takes_gap_blank ⟨ne_of_isNameChar hc (by decide), ne_of_isNameChar hc (by decide),
      ne_of_isNameChar hc (by decide)⟩ _
  have hop : Takes line addOp [if plus then '+' else '-'] plus (' ' :: (t.chars ++ rest)) := by
    apply Takes.construct
    cases plus with
    | true =>
      apply Takes.orElse
      exact (takes_literal "+" _).after (takes_pure _ _)
    | false =>
      apply Misses.orElse_takes
      · exact (misses_literal rfl).bind
      · exact (takes_literal "-" _).after (takes_pure _ _)
  apply Takes.bind (s := [' ']) (takes_gap_blank (sign_ne plus) _)
  apply Takes.bind (s := [if plus then '+' else '-']) hop
  apply Takes.bind (s := [' ']) hgap
  exact (takes_term hu hrest).after (takes_pure _ rest)

theorem misses_summandPart {part : Reader Phrase} (hrest : EndsSum rest) :
    Misses line (summandPart part) rest := by
  have hop : ∀ text : List Char, behind "+".toList text = none → behind "-".toList text = none →
      Misses line addOp text := fun text hplus hminus =>
    ((misses_literal hplus).bind.orElse (misses_literal hminus).bind).construct
  have hne : ∀ c d, isStop c = true → isStop d = false → d ≠ c := by
    rintro c d hc hd rfl
    rw [hc] at hd
    exact absurd hd (by decide)
  refine hrest.misses_gap (fun c hc => space_of_isStopOrSign c (isStopOrSign_of_isStop c hc))
    (hop [] rfl rfl).bind fun c text hc => ?_
  refine (hop _ ?_ ?_).bind <;> exact if_neg (hne c _ hc rfl)

/-- The other terms of a sum are read up to what follows the sum. -/
theorem takes_summands (line : Nat) (inner : Reader Phrase) (depth : Nat) (hs : s.Named)
    (hrest : EndsSum rest) :
    EndsTerm (s.others.flatMap WrittenSum.laterChars ++ rest) ∧
      Takes line (many (summandPart (term inner (depth + 1))))
        (s.others.flatMap WrittenSum.laterChars) (s.others.map fun u => (u.1, u.2.phrase line))
        rest := by
  apply takes_many EndsTerm
  · intro u _
    exact List.cons_ne_nil _ _
  · intro u _ text _
    exact .blank (c := if u.1 then '+' else '-') (by cases u.1 <;> rfl) _
  · intro u hu text htext
    exact takes_summandPart (hs.2 u hu) htext
  · exact hrest.endsTerm
  · exact misses_summandPart hrest

/-- Two levels are enough, one for the expression and one for the sign of its first term. -/
theorem takes_expression (line depth : Nat) (hs : s.Named) (hrest : EndsSum rest) :
    Takes line (expression (depth + 2)) s.chars (s.phrase line) rest := by
  obtain ⟨hends, hothers⟩ := takes_summands line (expression (depth + 1)) (depth + 1) hs hrest
  have hfirst : Takes line (term (expression (depth + 1)) (depth + 2))
      ((if s.negative then ['-'] else []) ++ s.first.chars) (s.firstPhrase line)
      (s.others.flatMap WrittenSum.laterChars ++ rest) := by
    rw [WrittenSum.firstPhrase]
    cases s.negative with
    | true => exact takes_term_negated hs.1 hends
    | false => exact takes_term hs.1 hends
  apply Takes.construct
  apply Takes.bind hfirst
  apply hothers.after
  rw [List.foldl_map]
  exact takes_pure _ rest

/-- A sum begins with a minus, a letter or a digit. -/
theorem WrittenSum.Named.exists_head (hs : s.Named) :
    ∃ c tail, s.chars = c :: tail ∧ (c ≠ ' ' ∧ c ≠ '\t' ∧ c ≠ '#') ∧ c ≠ '=' := by
  obtain ⟨c, tail, hchars, hc⟩ := hs.1.1.exists_head
  rw [WrittenSum.chars, WrittenTerm.chars, hchars]
  cases s.negative with
  | true => exact ⟨'-', _, rfl, by decide, by decide⟩
  | false =>
    exact ⟨c, _, rfl, ⟨ne_of_isNameChar hc rfl, ne_of_isNameChar hc rfl, ne_of_isNameChar hc rfl⟩,
      ne_of_isNameChar hc rfl⟩

theorem chars_length_pos (hs : s.Named) : 0 < s.chars.length := by
  obtain ⟨c, tail, hchars, -⟩ := hs.exists_head
  rw [hchars]
  exact Nat.succ_pos _

theorem takes_phrase (hs : s.Named) (hrest : EndsSum rest) :
    Takes line phrase s.chars (s.phrase line) rest := by
  intro offset reach
  obtain ⟨depth, hdepth⟩ : ∃ depth, (s.chars ++ rest).length + 1 = depth + 2 := by
    obtain ⟨k, hk⟩ := Nat.exists_eq_add_of_lt (chars_length_pos hs)
    exact ⟨k + rest.length, by rw [List.length_append]; omega⟩
  have htakes := takes_expression line depth hs hrest offset reach
  rw [Source.phrase, hdepth]
  exact htakes

/-- A sum is read back as it was written. -/
theorem readPhrase_eq_ok (hs : s.Named) {text : String} (htext : text.toList = s.chars) :
    readPhrase text = .ok (s.phrase 1) := by
  apply readAll_eq_ok
  rw [htext]
  have hgap : Takes 1 gap [] () (s.chars ++ []) := by
    obtain ⟨c, tail, hchars, hc, -⟩ := hs.exists_head
    rw [hchars]
    exact takes_gap hc _
  apply Takes.construct
  apply hgap.before
  apply (takes_phrase hs .nil).after
  exact takes_gap_nil.before (takes_endOfText.before (takes_pure _ []))

end ProbLoop.Source
