import ProbLoop.Proofs.Source.Finding

/-!
# Texts that are read

Whatever is spelled by the rules is read, and so exactly the texts that are spelled by them are read, each
as one phrase.
-/

set_option autoImplicit false

namespace ProbLoop.Source

open Reader

variable {line : Nat} {b : Binding} {l r s t rest text : List Char} {f : Phrase}
  {inner : Reader Phrase} {q : Rat} {c : Char}

/-! ### What follows a phrase -/

/-- What is left behind blanks and comments. -/
def ahead (text : List Char) : List Char := (skipped false text).1

theorem ahead_append (hl : IsBlank l) (text : List Char) : ahead (l ++ text) = ahead text := by
  induction l with
  | nil => rfl
  | cons c l ih =>
    obtain ⟨hc, hl⟩ := List.forall_mem_cons.mp hl
    rw [← ih hl]
    simp [ahead, skipped, hc]

theorem ahead_cons (hc : c ≠ ' ' ∧ c ≠ '\t' ∧ c ≠ '#') (text : List Char) :
    ahead (c :: text) = c :: text := by
  simp [ahead, skipped, hc]

theorem IsTrailer.ahead_eq (hr : IsTrailer r) : ahead r = [] := by
  have hcomment : ∀ t : List Char, (∀ c ∈ t, c ≠ '\n' ∧ c ≠ '\r') → (skipped true t).1 = [] := by
    intro t ht
    induction t with
    | nil => rfl
    | cons c t ih =>
      obtain ⟨hc, ht⟩ := List.forall_mem_cons.mp ht
      simp [skipped, hc, ih ht]
  obtain ⟨blanks, comment, rfl, hblanks, hcases⟩ := hr
  rw [ahead_append hblanks]
  rcases hcases with rfl | ⟨t, rfl, ht⟩
  · rfl
  · simp [ahead, skipped, hcomment t ht]

theorem takes_gap_ahead (h : ahead (l ++ text) = text) : Takes line gap l () text := by
  intro offset reach
  refine ⟨offset + (skipped false (l ++ text)).2, reach, ?_⟩
  change (some ((), Cursor.mk (ahead (l ++ text)) _ _), reach) = _
  rw [h]

theorem IsBlank.takes_gap (hl : IsBlank l) (htext : ahead text = text) : Takes line gap l () text :=
  takes_gap_ahead ((ahead_append hl text).trans htext)

theorem misses_gap {β : Type} {f : Unit → Reader β} (h : Misses line (f ()) (ahead text)) :
    Misses line (gap >>= f) text :=
  fun _ reach => h _ reach

/-- The operators that would make a phrase longer. -/
def Binding.operators : Binding → List String
  | .atom => []
  | .power | .signed => ["**", "^"]
  | .product => ["**", "^", "*", "/"]
  | .sum => ["**", "^", "*", "/", "+", "-"]

/-- The text may follow a phrase: it makes neither the last word nor the phrase longer. -/
structure Follows (b : Binding) (rest : List Char) : Prop where
  apart : ∀ c ∈ rest.head?, isNameChar c = false ∧ c ≠ '.'
  free : ∀ op ∈ b.operators, behind op.toList (ahead rest) = none

theorem Follows.isDigit_eq_false (h : Follows b rest) : ∀ c ∈ rest.head?, isDigit c = false := by
  intro c hc
  have hname := (h.apart c hc).1
  rw [isNameChar, Bool.or_eq_false_iff] at hname
  exact hname.2

theorem Follows.mono {b' : Binding} (h : Follows b rest) (hb : b'.operators ⊆ b.operators) :
    Follows b' rest :=
  ⟨h.apart, fun op hop => h.free op (hb hop)⟩

/-- A blank ends a word, and so do most characters. -/
theorem follows_append (hl : IsBlank l) (hc : c ≠ ' ' ∧ c ≠ '\t' ∧ c ≠ '#')
    (hapart : isNameChar c = false ∧ c ≠ '.')
    (hfree : ∀ op ∈ b.operators, behind op.toList (c :: text) = none) :
    Follows b (l ++ c :: text) := by
  constructor
  · intro d hd
    cases l with
    | nil =>
      obtain rfl := Option.some.inj hd
      exact hapart
    | cons e l =>
      obtain rfl := Option.some.inj hd
      rcases hl e List.mem_cons_self with rfl | rfl <;> decide
  · rwa [ahead_append hl, ahead_cons hc]

/-- No operator begins with the character. -/
theorem follows_other (hl : IsBlank l) (hc : c ≠ ' ' ∧ c ≠ '\t' ∧ c ≠ '#')
    (hapart : isNameChar c = false ∧ c ≠ '.') (hne : ∀ op ∈ b.operators, op.toList.headD c ≠ c) :
    Follows b (l ++ c :: text) := by
  refine follows_append hl hc hapart fun op hop => ?_
  have h := hne op hop
  cases hchars : op.toList with
  | nil => rw [hchars] at h; exact absurd rfl h
  | cons d tail => rw [hchars] at h; exact if_neg h

theorem IsTrailer.follows (hr : IsTrailer r) : Follows .sum r := by
  constructor
  · obtain ⟨blanks, comment, rfl, hblanks, hcases⟩ := hr
    intro c hc
    cases blanks with
    | nil =>
      rcases hcases with rfl | ⟨t, rfl, -⟩
      · cases hc
      · obtain rfl := Option.some.inj hc
        decide
    | cons d blanks =>
      obtain rfl := Option.some.inj hc
      rcases hblanks d List.mem_cons_self with rfl | rfl <;> decide
  · rw [hr.ahead_eq]
    decide

theorem Spells.ahead_eq (h : Spells line b s f) (rest : List Char) :
    ahead (s ++ rest) = s ++ rest := by
  obtain ⟨c, tail, rfl, hc⟩ := h.exists_head
  have hstart := Binding.isPhraseStart_of_isStart hc
  exact ahead_cons ⟨ne_of_isPhraseStart hstart rfl, ne_of_isPhraseStart hstart rfl,
    ne_of_isPhraseStart hstart rfl⟩ _

/-! ### Literals and names -/

theorem takes_spelledNumber (h : SpellsNumber s q) (hrest : Follows b rest) :
    Takes line number s (.number q) rest := by
  have hdigit := hrest.isDigit_eq_false
  apply Takes.construct
  cases h with
  | whole h =>
    have hpoint : Misses line (literal "." >>= fun _ => run isDigit) rest := by
      apply Misses.bind
      apply misses_literal
      cases rest with
      | nil => rfl
      | cons c rest => exact if_neg (hrest.apart c rfl).2.symm
    have hvalue : decimalValue s [] = numeral s := by simp [decimalValue_eq, numeral]
    apply Takes.after (takes_run h.2 hdigit)
    cases s with
    | nil => exact absurd rfl h.1
    | cons c s =>
      rw [← hvalue]
      exact hpoint.optional.before (takes_pure _ rest)
  | @point ds fs hds hfs hne =>
    have hpoint : ∀ c ∈ ('.' :: (fs ++ rest)).head?, isDigit c = false := by
      rintro _ ⟨⟩
      rfl
    apply Takes.bind (takes_run hds hpoint)
    rw [← decimalValue_eq]
    cases ds with
    | nil =>
      apply Takes.bind (s := ['.']) (takes_literal "." _)
      have hne : fs ≠ [] := hne.resolve_left fun h => h rfl
      exact (takes_nonemptyRun hne hfs hdigit).after (takes_pure _ rest)
    | cons c ds =>
      have hpart : Takes line (literal "." >>= fun _ => run isDigit) ('.' :: fs) fs rest :=
        Takes.bind (s := ['.']) (takes_literal "." _) (takes_run hfs hdigit)
      exact hpart.optional.after (takes_pure _ rest)

theorem misses_number_cons (hc : isDigit c = false ∧ c ≠ '.') (text : List Char) :
    Misses line number (c :: text) := by
  apply Misses.construct
  apply Takes.misses (t := []) (a := [])
  · apply takes_run (by simp)
    rintro _ ⟨⟩
    exact hc.1
  · have hpoint : behind ".".toList (c :: text) = none := if_neg hc.2.symm
    exact (misses_literal hpoint).bind

theorem misses_name_cons (hc : isNameChar c = false) (text : List Char) :
    Misses line name (c :: text) := by
  apply Misses.construct
  apply Takes.misses (t := []) (a := [])
  · apply takes_run (by simp)
    rintro _ ⟨⟩
    exact hc
  · exact fun offset reach => ⟨reach, rfl⟩

/-! ### Operators -/

theorem misses_exponentPart_ahead (h : Follows .power rest) : Misses line exponentPart rest :=
  misses_gap (misses_powerSign (h.free "**" (by decide)) (h.free "^" (by decide))).bind

theorem misses_factorPart_ahead {depth : Nat} (h : Follows .product rest) :
    Misses line (factorPart inner depth) rest :=
  misses_gap (misses_mulOp (h.free "*" (by decide)) (h.free "/" (by decide))).bind

theorem misses_summandPart_ahead {part : Reader Phrase} (h : Follows .sum rest) :
    Misses line (summandPart part) rest := by
  have hplus : Misses line (literal "+") (ahead rest) := misses_literal (h.free "+" (by decide))
  have hminus : Misses line (literal "-") (ahead rest) := misses_literal (h.free "-" (by decide))
  exact misses_gap (hplus.bind.orElse hminus.bind).construct.bind

theorem takes_exponentPart_spelled {op : String} (hl : IsBlank l) (hop : op = "**" ∨ op = "^")
    (hr : IsBlank r) (hs : IsDigits s) (hrest : Follows b rest) :
    Takes line exponentPart (l ++ (op.toList ++ (r ++ s))) (String.ofList s) rest := by
  have hexponent : Takes line exponent s (String.ofList s) rest := by
    apply Takes.construct
    exact (takes_nonemptyRun hs.1 hs.2 hrest.isDigit_eq_false).after (takes_pure _ rest)
  have hahead : ahead (s ++ rest) = s ++ rest := by
    obtain ⟨c, tail, rfl, hc⟩ := hs.exists_head
    have hname := isNameChar_of_isDigit hc
    exact ahead_cons ⟨ne_of_isNameChar hname rfl, ne_of_isNameChar hname rfl,
      ne_of_isNameChar hname rfl⟩ _
  rcases hop with rfl | rfl
  · apply Takes.bind (hl.takes_gap (ahead_cons (by decide) _))
    apply Takes.bind (takes_literal "**" _).orElse
    exact Takes.bind (hr.takes_gap hahead) hexponent
  · apply Takes.bind (hl.takes_gap (ahead_cons (by decide) _))
    apply Takes.bind ((misses_literal rfl).orElse_takes (takes_literal "^" _))
    exact Takes.bind (hr.takes_gap hahead) hexponent

theorem misses_signOp_cons (hc : c ≠ '-' ∧ c ≠ '+') (text : List Char) :
    Misses line signOp (c :: text) := by
  have hminus : behind "-".toList (c :: text) = none := if_neg hc.1.symm
  have hplus : behind "+".toList (c :: text) = none := if_neg hc.2.symm
  exact ((misses_literal hminus).bind.orElse (misses_literal hplus).bind).construct

/-- The second of two operators is tried where the first one does not stand. -/
theorem takes_either {yes no : String} (flag : Bool) (h : behind yes.toList (no.toList ++ rest) = none) :
    Takes line ((literal yes >>= fun _ => pure true) <|> (literal no >>= fun _ => pure false))
      (if flag then yes else no).toList flag rest := by
  cases flag with
  | true => exact ((takes_literal yes rest).after (takes_pure true rest)).orElse
  | false =>
    apply Misses.orElse_takes
    · exact (misses_literal h).bind
    · exact (takes_literal no rest).after (takes_pure false rest)

theorem takes_signOp (negative : Bool) (rest : List Char) :
    Takes line signOp [if negative then '-' else '+'] negative rest := by
  have h : Takes line signOp _ negative rest := (takes_either negative rfl).construct
  cases negative <;> exact h

theorem takes_addOp (plus : Bool) (rest : List Char) :
    Takes line addOp [if plus then '+' else '-'] plus rest := by
  have h : Takes line addOp _ plus rest := (takes_either plus rfl).construct
  cases plus <;> exact h

/-- A product sign is no power sign if no second one follows. -/
theorem takes_mulOp (times : Bool) (hrest : behind "*".toList rest = none) :
    Takes line mulOp [if times then '*' else '/'] times rest := by
  apply Takes.construct
  cases times with
  | true =>
    have habsent : behind "**".toList ('*' :: rest) = none := hrest
    apply Takes.orElse
    exact (takes_absent habsent).before ((takes_literal "*" rest).after (takes_pure true rest))
  | false =>
    apply Misses.orElse_takes
    · exact Takes.misses (t := []) (takes_absent rfl) (misses_literal rfl).bind
    · exact (takes_literal "/" rest).after (takes_pure false rest)

/-- Behind an operator stands no second one. -/
theorem behind_star (hr : IsBlank r) (ht : Spells line b t f) (rest : List Char) :
    behind "*".toList (r ++ (t ++ rest)) = none := by
  cases r with
  | nil =>
    obtain ⟨c, tail, rfl, hc⟩ := ht.exists_head
    exact if_neg (ne_of_isPhraseStart (Binding.isPhraseStart_of_isStart hc) rfl).symm
  | cons c r => rcases hr c List.mem_cons_self with rfl | rfl <;> rfl

/-! ### Phrases -/

/-- The grammar reads the text, if brackets and signs may be as deep as it is long. Products and sums go
on with what is read behind them. -/
def IsRead (line : Nat) : Binding → List Char → Phrase → Prop
  | .atom, s, f => ∀ depth rest, s.length ≤ depth → Follows .atom rest →
      Takes line (atom (expression depth)) s f rest
  | .power, s, f => ∀ depth rest, s.length ≤ depth → Follows .power rest →
      Takes line (power (expression depth)) s f rest
  | .signed, s, f => ∀ depth signs rest, s.length ≤ depth → s.length ≤ signs →
      Follows .signed rest → Takes line (unary (expression depth) signs) s f rest
  | .product, s, f => ∀ depth more factors rest, s.length ≤ depth → Follows .signed (more ++ rest) →
      Takes line (many (factorPart (expression depth) (depth + 1))) more factors rest →
      Takes line (term (expression depth) (depth + 1)) (s ++ more)
        (factors.foldl (fun acc g => if g.1 then .product acc g.2 else .quotient line acc g.2) f) rest
  | .sum, s, f => ∀ depth more summands rest, s.length ≤ depth → Follows .product (more ++ rest) →
      Takes line (many (summandPart (term (expression depth) (depth + 1)))) more summands rest →
      Takes line (expression (depth + 1)) (s ++ more)
        (summands.foldl (fun acc g => if g.1 then .sum acc g.2 else .difference acc g.2) f) rest

theorem IsRead.takes_term {depth : Nat} (h : IsRead line .product s f) (hdepth : s.length ≤ depth)
    (hrest : Follows .product rest) :
    Takes line (term (expression depth) (depth + 1)) s f rest := by
  have htakes := h depth [] [] rest hdepth (hrest.mono (by decide))
    (misses_factorPart_ahead hrest).many
  rwa [List.append_nil] at htakes

theorem IsRead.takes_expression {depth : Nat} (h : IsRead line .sum s f) (hdepth : s.length < depth)
    (hrest : Follows .sum rest) : Takes line (expression depth) s f rest := by
  obtain ⟨depth, rfl⟩ := Nat.exists_eq_succ_of_ne_zero (Nat.ne_zero_of_lt hdepth)
  have htakes := h depth [] [] rest (Nat.le_of_lt_succ hdepth) (hrest.mono (by decide))
    (misses_summandPart_ahead hrest).many
  rwa [List.append_nil] at htakes

theorem isRead_number (h : SpellsNumber s q) : IsRead line .atom s (.number q) :=
  fun _ _ _ hrest => (takes_spelledNumber h hrest).orElse

theorem isRead_name {s : String} (h : isIdentifier s = true) :
    IsRead line .atom s.toList (.name s) := by
  intro depth rest _ hrest
  apply (misses_number h rest).orElse_takes
  apply Takes.orElse
  exact (takes_name h fun d hd => (hrest.apart d hd).1).after (takes_pure _ rest)

theorem IsRead.brackets (h : IsRead line .sum s f) (hs : Spells line .sum s f) (hl : IsBlank l)
    (hr : IsBlank r) : IsRead line .atom ('(' :: (l ++ (s ++ (r ++ [')'])))) f := by
  intro depth rest hdepth hrest
  have hshorter : s.length < depth := by
    simp only [List.length_cons, List.length_append] at hdepth
    omega
  apply (misses_number_cons (by decide) _).orElse_takes
  apply (misses_name_cons (by decide) _).bind.orElse_takes
  apply Takes.bind (s := ['(']) (takes_literal "(" _)
  apply Takes.bind (hl.takes_gap (by rw [List.append_assoc]; exact hs.ahead_eq _))
  apply Takes.bind (h.takes_expression hshorter ?_)
  · apply Takes.bind (hr.takes_gap (ahead_cons (by decide) _))
    exact (takes_literal ")" rest).after (takes_pure f rest)
  · rw [List.append_assoc]
    exact follows_other hr (by decide) (by decide) (by decide)

theorem IsRead.of_atom (h : IsRead line .atom s f) : IsRead line .power s f := by
  intro depth rest hdepth hrest
  apply Takes.construct
  apply (takes_lineNumber _).before
  apply Takes.after (h depth rest hdepth (hrest.mono (by decide)))
  exact (misses_exponentPart_ahead hrest).optional.before (takes_pure f rest)

theorem IsRead.raised {op : String} {ds : List Char} (h : IsRead line .atom s f) (hl : IsBlank l)
    (hop : op = "**" ∨ op = "^") (hr : IsBlank r) (hds : IsDigits ds) :
    IsRead line .power (s ++ (l ++ (op.toList ++ (r ++ ds)))) (.raised line f (String.ofList ds)) := by
  intro depth rest hdepth hrest
  have hfollows : Follows .atom (l ++ (op.toList ++ (r ++ ds)) ++ rest) := by
    rw [List.append_assoc]
    rcases hop with rfl | rfl <;> exact follows_other hl (by decide) (by decide) (by decide)
  have hexponent : Takes line exponentPart (l ++ (op.toList ++ (r ++ ds))) (String.ofList ds) rest :=
    takes_exponentPart_spelled hl hop hr hds hrest
  rw [List.length_append] at hdepth
  apply Takes.construct
  apply (takes_lineNumber _).before
  apply Takes.bind (h depth _ (by omega) hfollows)
  exact hexponent.optional.after (takes_pure _ rest)

theorem IsRead.of_power (h : IsRead line .power s f) (hs : Spells line .power s f) :
    IsRead line .signed s f := by
  intro depth signs rest hdepth hsigns hrest
  obtain ⟨c, tail, rfl, hc⟩ := hs.exists_head
  obtain ⟨signs, rfl⟩ := Nat.exists_eq_succ_of_ne_zero (Nat.ne_zero_of_lt hsigns)
  have hsign : c ≠ '-' ∧ c ≠ '+' := by
    constructor <;> rintro rfl <;> cases hc
  apply Takes.construct
  exact (misses_signOp_cons hsign _).bind.orElse_takes
    (h depth rest hdepth (hrest.mono (by decide)))

theorem IsRead.signed_cons (negative : Bool) (h : IsRead line .signed s f)
    (hs : Spells line .signed s f) (hl : IsBlank l) :
    IsRead line .signed ((if negative then '-' else '+') :: (l ++ s))
      (if negative then .negated f else f) := by
  intro depth signs rest hdepth hsigns hrest
  rw [List.length_cons, List.length_append] at hdepth hsigns
  obtain ⟨signs, rfl⟩ := Nat.exists_eq_succ_of_ne_zero (Nat.ne_zero_of_lt hsigns)
  apply Takes.construct
  apply Takes.orElse
  apply Takes.bind (s := [if negative then '-' else '+']) (takes_signOp negative _)
  apply Takes.bind (hl.takes_gap (hs.ahead_eq rest))
  exact (h depth signs rest (by omega) (by omega) hrest).after (takes_pure _ rest)

theorem IsRead.of_signed (h : IsRead line .signed s f) : IsRead line .product s f := by
  intro depth more factors rest hdepth hfollows hmany
  apply Takes.construct
  apply (takes_lineNumber _).before
  apply Takes.bind (h depth (depth + 1) _ hdepth (by omega) hfollows)
  exact hmany.after (takes_pure _ rest)

/-- A product gets longer by a factor, whatever is read behind it. -/
theorem IsRead.factor (times : Bool) {g : Phrase} (hf : IsRead line .product s f)
    (hg : IsRead line .signed t g) (ht : Spells line .signed t g) (hl : IsBlank l) (hr : IsBlank r) :
    IsRead line .product (s ++ (l ++ (if times then '*' else '/') :: (r ++ t)))
      (if times then .product f g else .quotient line f g) := by
  intro depth more factors rest hdepth hfollows hmany
  rw [List.length_append, List.length_append, List.length_cons, List.length_append] at hdepth
  have hstar : ∀ rest, behind "*".toList (r ++ (t ++ rest)) = none := behind_star hr ht
  have hpart : Takes line (factorPart (expression depth) (depth + 1))
      (l ++ (if times then '*' else '/') :: (r ++ t)) (times, g) (more ++ rest) := by
    apply Takes.bind (hl.takes_gap (ahead_cons (by cases times <;> decide) _))
    apply Takes.bind (s := [if times then '*' else '/'])
      (takes_mulOp times ((List.append_assoc r t _).symm ▸ hstar _))
    apply Takes.bind (hr.takes_gap (ht.ahead_eq _))
    exact (hg depth (depth + 1) _ (by omega) (by omega) hfollows).after (takes_pure _ _)
  have hfollows' : Follows .signed (l ++ (if times then '*' else '/') :: (r ++ t) ++ more ++ rest) := by
    simp only [List.append_assoc, List.cons_append]
    cases times with
    | true =>
      refine follows_append hl (by decide) (by decide) fun op hop => ?_
      rcases List.mem_cons.mp hop with rfl | hop
      · exact hstar _
      · obtain rfl := List.mem_singleton.mp hop
        rfl
    | false => exact follows_other hl (by decide) (by decide) (by decide)
  have hne : l ++ (if times then '*' else '/') :: (r ++ t) ≠ [] := by simp
  have htakes := hf depth _ _ rest (by omega) hfollows' (hpart.many_cons hne hmany)
  rwa [← List.append_assoc] at htakes

theorem IsRead.of_product (h : IsRead line .product s f) : IsRead line .sum s f := by
  intro depth more summands rest hdepth hfollows hmany
  apply Takes.construct
  apply Takes.bind (h.takes_term hdepth hfollows)
  exact hmany.after (takes_pure _ rest)

/-- A sum gets longer by a summand, whatever is read behind it. -/
theorem IsRead.summand (plus : Bool) {g : Phrase} (hf : IsRead line .sum s f)
    (hg : IsRead line .product t g) (ht : Spells line .product t g) (hl : IsBlank l)
    (hr : IsBlank r) :
    IsRead line .sum (s ++ (l ++ (if plus then '+' else '-') :: (r ++ t)))
      (if plus then .sum f g else .difference f g) := by
  intro depth more summands rest hdepth hfollows hmany
  rw [List.length_append, List.length_append, List.length_cons, List.length_append] at hdepth
  have hpart : Takes line (summandPart (term (expression depth) (depth + 1)))
      (l ++ (if plus then '+' else '-') :: (r ++ t)) (plus, g) (more ++ rest) := by
    apply Takes.bind (hl.takes_gap (ahead_cons (by cases plus <;> decide) _))
    apply Takes.bind (s := [if plus then '+' else '-']) (takes_addOp plus _)
    apply Takes.bind (hr.takes_gap (ht.ahead_eq _))
    exact (hg.takes_term (by omega) hfollows).after (takes_pure _ _)
  have hfollows' : Follows .product (l ++ (if plus then '+' else '-') :: (r ++ t) ++ more ++ rest) := by
    simp only [List.append_assoc, List.cons_append]
    apply follows_other hl <;> cases plus <;> decide
  have hne : l ++ (if plus then '+' else '-') :: (r ++ t) ≠ [] := by simp
  have htakes := hf depth _ _ rest (by omega) hfollows' (hpart.many_cons hne hmany)
  rwa [← List.append_assoc] at htakes

theorem Spells.isRead (h : Spells line b s f) : IsRead line b s f := by
  induction h with
  | number h => exact isRead_number h
  | name h => exact isRead_name h
  | brackets hl hs hr ih => exact ih.brackets hs hl hr
  | atom _ ih => exact ih.of_atom
  | raised _ hl hop hr hds ih => exact ih.raised hl hop hr hds
  | power hs ih => exact ih.of_power hs
  | minus hl hs ih => exact ih.signed_cons true hs hl
  | plus hl hs ih => exact ih.signed_cons false hs hl
  | signed _ ih => exact ih.of_signed
  | product _ hl hr ht ihf ihg => exact ihf.factor true ihg ht hl hr
  | quotient _ hl hr ht ihf ihg => exact ihf.factor false ihg ht hl hr
  | term _ ih => exact ih.of_product
  | sum _ hl hr ht ihf ihg => exact ihf.summand true ihg ht hl hr
  | difference _ hl hr ht ihf ihg => exact ihf.summand false ihg ht hl hr

/-- A text is read exactly as it is spelled. -/
theorem readPhrase_eq_ok_iff {text : String} : readPhrase text = .ok f ↔ SpellsText text f := by
  refine ⟨spellsText_of_readPhrase, ?_⟩
  rintro ⟨l, s, r, htext, hl, hs, hr⟩
  have hphrase : Takes 1 phrase s f r := by
    intro offset reach
    have hdepth : s.length < (s ++ r).length + 1 := by
      rw [List.length_append]
      omega
    exact hs.isRead.takes_expression hdepth hr.follows offset reach
  have hend : Takes 1 (do gap; endOfText; return f) r f [] := by
    apply (takes_gap_ahead (by rw [List.append_nil, hr.ahead_eq])).after
    exact takes_endOfText.before (takes_pure f [])
  apply readAll_eq_ok
  rw [htext]
  apply Takes.construct
  apply Takes.bind (hl.takes_gap (by rw [List.append_assoc]; exact hs.ahead_eq _))
  rw [← List.append_nil r] at hphrase
  exact Takes.bind hphrase hend

end ProbLoop.Source
