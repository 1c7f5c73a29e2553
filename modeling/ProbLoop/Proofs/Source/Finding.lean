import ProbLoop.Proofs.Source.Lines
import ProbLoop.Proofs.Source.Spelling

/-!
# What readers find

Whatever a reader finds, it has taken the first part of the text in front of it. For every way of building
readers there is one lemma on how the part that was taken and what was found are related; so whatever the
grammar reads is spelled by the rules.
-/

set_option autoImplicit false

namespace ProbLoop.Source

namespace Reader

variable {α β : Type} {line : Nat} {p q : Reader α} {f : α → Reader β} {text : List Char} {a : α}
  {R S : List Char → α → Prop} {Q : List Char → β → Prop}

/-- If the reader finds something in front of the text, it stays on its line, and what it takes and what
it finds are related. -/
def Finds (line : Nat) (p : Reader α) (text : List Char) (R : List Char → α → Prop) : Prop :=
  ∀ c reach a c' reach', c.rest = text → c.line = line → p c reach = (some (a, c'), reach') →
    c'.line = line ∧ ∃ taken, text = taken ++ c'.rest ∧ R taken a

theorem Finds.mono (h : Finds line p text R) (hR : ∀ s a, R s a → S s a) : Finds line p text S := by
  intro c reach a c' reach' hrest hline hp
  obtain ⟨hline', taken, htext, ha⟩ := h c reach a c' reach' hrest hline hp
  exact ⟨hline', taken, htext, hR taken a ha⟩

theorem finds_pure (ha : R [] a) : Finds line (pure a) text R := by
  rintro c reach _ _ _ rfl rfl ⟨⟩
  exact ⟨rfl, [], rfl, ha⟩

theorem finds_reject : Finds line (reject : Reader α) text R := by
  rintro c reach _ _ _ rfl rfl ⟨⟩

theorem Finds.bind (hp : Finds line p text R)
    (hf : ∀ s a rest, text = s ++ rest → R s a → Finds line (f a) rest fun t b => Q (s ++ t) b) :
    Finds line (p >>= f) text Q := by
  intro c reach b c₂ reach₂ hrest hline h
  change andThen p f c reach = _ at h
  rw [andThen] at h
  split at h
  · cases h
  · next a c₁ reach₁ h₁ =>
    obtain ⟨hline₁, s, hs, ha⟩ := hp _ _ _ _ _ hrest hline h₁
    obtain ⟨hline₂, t, ht, hb⟩ := hf s a c₁.rest hs ha c₁ reach₁ b c₂ reach₂ rfl hline₁ h
    exact ⟨hline₂, s ++ t, by rw [hs, ht, List.append_assoc], hb⟩

theorem Finds.construct (hp : Finds line p text R) : Finds line (construct p) text R := by
  intro c reach a c' reach' hrest hline h
  rw [Reader.construct] at h
  split at h
  · cases h
  · exact hp _ _ _ _ _ hrest hline h

theorem Finds.orElse (hp : Finds line p text R) (hq : Finds line q text R) :
    Finds line (p <|> q) text R := by
  intro c reach a c' reach' hrest hline h
  change Reader.orElse p (fun _ => q) c reach = _ at h
  rw [Reader.orElse] at h
  split at h
  · exact hq _ _ _ _ _ hrest hline h
  · exact hp _ _ _ _ _ hrest hline h

theorem Finds.optional (hp : Finds line p text R) : Finds line (optional p) text fun s o =>
    (s = [] ∧ o = none) ∨ ∃ a, o = some a ∧ R s a := by
  intro c reach o c' reach' hrest hline h
  rw [Reader.optional] at h
  split at h
  · cases h
    exact ⟨hline, [], hrest.symm, Or.inl ⟨rfl, rfl⟩⟩
  · next a c₁ reach₁ h₁ =>
    cases h
    obtain ⟨hline₁, s, hs, ha⟩ := hp _ _ _ _ _ hrest hline h₁
    exact ⟨hline₁, s, hs, Or.inr ⟨a, rfl, ha⟩⟩

/-- A row of texts and of what was found in them. -/
inductive Rows (R : List Char → α → Prop) : List Char → List α → Prop
  | nil : Rows R [] []
  | cons {s t : List Char} {a : α} {as : List α} (ha : R s a) (hs : Rows R t as) :
      Rows R (s ++ t) (a :: as)

theorem Finds.manyFrom (hp : ∀ text, Finds line p text R) (c : Cursor) (reach : Reach)
    (hline : c.line = line) : (manyFrom p c reach).2.1.line = line ∧
      ∃ taken, c.rest = taken ++ (manyFrom p c reach).2.1.rest ∧
        Rows R taken (manyFrom p c reach).1 := by
  induction c, reach using manyFrom.induct p with
  | case1 c reach reach' h =>
    rw [Reader.manyFrom, h]
    exact ⟨hline, [], rfl, .nil⟩
  | case2 c reach a c' reach' h hshorter _ _ _ _ ih =>
    obtain ⟨hline', s, hs, ha⟩ := hp _ _ _ _ _ _ rfl hline h
    obtain ⟨hline'', t, ht, hrows⟩ := ih hline'
    rw [Reader.manyFrom, h]
    simp only [hshorter, if_true]
    exact ⟨hline'', s ++ t, by rw [hs, List.append_assoc, ← ht], .cons ha hrows⟩
  | case3 c reach a c' reach' h hlonger =>
    obtain ⟨hline', s, hs, ha⟩ := hp _ _ _ _ _ _ rfl hline h
    rw [Reader.manyFrom, h]
    simp only [hlonger, if_false]
    exact ⟨hline', s, hs, List.append_nil s ▸ .cons ha .nil⟩

theorem Finds.many (hp : ∀ text, Finds line p text R) : Finds line (many p) text (Rows R) := by
  rintro c reach as c' reach' rfl hline h
  rw [Reader.many] at h
  cases h
  exact Finds.manyFrom hp c reach hline

theorem finds_lineNumber : Finds line lineNumber text fun s k => s = [] ∧ k = line := by
  rintro c reach _ _ _ rfl hline ⟨⟩
  exact ⟨hline, [], rfl, rfl, hline⟩

theorem finds_literal (s : String) : Finds line (literal s) text fun t _ => t = s.toList := by
  intro c reach a c' reach' hrest hline h
  rw [literal] at h
  split at h
  · cases h
  · next rest hbehind =>
    cases h
    exact ⟨hline, s.toList, hrest ▸ eq_append_of_behind hbehind, rfl⟩

theorem finds_absent (s : String) : Finds line (absent s) text fun t _ => t = [] := by
  intro c reach a c' reach' hrest hline h
  rw [absent] at h
  split at h
  · cases h
    exact ⟨hline, [], hrest.symm, rfl⟩
  · cases h

theorem finds_run (ofClass : Char → Bool) :
    Finds line (run ofClass) text fun s t => t = s ∧ ∀ c ∈ s, ofClass c = true := by
  rintro c reach _ _ _ rfl hline ⟨⟩
  refine ⟨hline, c.rest.takeWhile ofClass, ?_, rfl, fun d hd => List.mem_takeWhile_imp hd⟩
  exact (List.takeWhile_append_dropWhile).symm

theorem finds_nonemptyRun (ofClass : Char → Bool) : Finds line (nonemptyRun ofClass) text fun s t =>
    t = s ∧ s ≠ [] ∧ ∀ c ∈ s, ofClass c = true := by
  refine (finds_run ofClass).bind fun s t rest _ h => ?_
  obtain ⟨rfl, ht⟩ := h
  cases t with
  | nil => exact finds_reject
  | cons c t => exact finds_pure (by simpa using ht)

theorem finds_endOfText : Finds line endOfText text fun s _ => s = [] ∧ text = [] := by
  apply Finds.construct
  rintro c reach _ _ _ rfl hline h
  simp only at h
  split at h
  · next hempty =>
    cases h
    exact ⟨hline, [], rfl, rfl, List.isEmpty_iff.mp hempty⟩
  · cases h

/-! ### Gaps -/

/-- What is skipped are blanks, and behind them a comment if the rest of the line is skipped. -/
theorem exists_of_skipped (text : List Char) : ∃ blanks comment,
    text = blanks ++ (comment ++ (skipped false text).1) ∧ IsBlank blanks ∧ (comment = [] ∨
      (∃ t, comment = '#' :: t ∧ ∀ c ∈ t, c ≠ '\n' ∧ c ≠ '\r') ∧
        ∀ c ∈ (skipped false text).1.head?, c = '\n' ∨ c = '\r') := by
  have hcomment : ∀ text : List Char, ∃ t, text = t ++ (skipped true text).1 ∧
      (∀ c ∈ t, c ≠ '\n' ∧ c ≠ '\r') ∧ ∀ c ∈ (skipped true text).1.head?, c = '\n' ∨ c = '\r' := by
    intro text
    induction text with
    | nil => exact ⟨[], rfl, by simp, by simp [skipped]⟩
    | cons c text ih =>
      by_cases hc : c = '\n' ∨ c = '\r'
      · exact ⟨[], by simp [skipped, hc], by simp, by simp [skipped, hc]⟩
      · obtain ⟨t, ht, hall, hhead⟩ := ih
        refine ⟨c :: t, ?_, ?_, ?_⟩
        · simpa [skipped, hc] using ht
        · exact List.forall_mem_cons.mpr ⟨not_or.mp hc, hall⟩
        · simpa [skipped, hc] using hhead
  induction text with
  | nil => exact ⟨[], [], rfl, by simp [IsBlank], Or.inl rfl⟩
  | cons c text ih =>
    by_cases hblank : c = ' ' ∨ c = '\t'
    · obtain ⟨blanks, comment, htext, hblanks, hcases⟩ := ih
      have hskipped : (skipped false (c :: text)).1 = (skipped false text).1 := by
        simp [skipped, hblank]
      rw [hskipped]
      refine ⟨c :: blanks, comment, congrArg (List.cons c) htext, ?_, hcases⟩
      exact List.forall_mem_cons.mpr ⟨hblank, hblanks⟩
    · by_cases hsign : c = '#'
      · obtain ⟨t, ht, hall, hhead⟩ := hcomment text
        have hskipped : (skipped false (c :: text)).1 = (skipped true text).1 := by
          simp [skipped, hsign]
        rw [hskipped, hsign]
        exact ⟨[], '#' :: t, congrArg (List.cons '#') ht, by simp [IsBlank],
          Or.inr ⟨⟨t, rfl, hall⟩, hhead⟩⟩
      · exact ⟨[], [], by simp [skipped, hblank, hsign], by simp [IsBlank], Or.inl rfl⟩

theorem finds_gap : Finds line gap text fun s _ => IsTrailer s := by
  rintro c reach _ _ _ rfl hline ⟨⟩
  obtain ⟨blanks, comment, htext, hblanks, hcases⟩ := exists_of_skipped c.rest
  refine ⟨hline, blanks ++ comment, by rw [List.append_assoc, ← htext], blanks, comment, rfl, hblanks, ?_⟩
  rcases hcases with rfl | ⟨ht, -⟩
  · exact Or.inl rfl
  · exact Or.inr ht

/-- Holds of texts that begin on the line, with a character of their own. -/
def Begins (s : List Char) : Prop := ∃ c tail, s = c :: tail ∧ c ≠ '\n' ∧ c ≠ '\r'

/-- In front of a part on the same line there are only blanks. -/
theorem Finds.gap_before {f : Unit → Reader β} {Q : List Char → List Char → β → Prop}
    (hf : ∀ rest, Finds line (f ()) rest fun t b => Begins t ∧ Q rest t b) :
    Finds line (gap >>= f) text fun s b =>
      ∃ l rest t, text = l ++ rest ∧ s = l ++ t ∧ IsBlank l ∧ Q rest t b := by
  intro c reach b c₂ reach₂ hrest hline h
  obtain ⟨blanks, comment, htext, hblanks, hcases⟩ := exists_of_skipped c.rest
  obtain ⟨hline₂, t, ht, ⟨d, tail, rfl, hd⟩, hb⟩ := hf (skipped false c.rest).1
    ⟨_, c.offset + (skipped false c.rest).2, c.line⟩ reach b c₂ reach₂ rfl hline h
  -- A comment would leave a line end or nothing, and the part begins with neither.
  have hcomment : comment = [] := by
    rcases hcases with hcomment | ⟨-, hhead⟩
    · exact hcomment
    · rcases hhead d (by rw [ht]; rfl) with rfl | rfl
      · exact absurd rfl hd.1
      · exact absurd rfl hd.2
  rw [hcomment, List.nil_append, hrest] at htext
  refine ⟨hline₂, blanks ++ d :: tail, ?_, blanks, _, d :: tail, htext, rfl, hblanks, hrest ▸ hb⟩
  rw [List.append_assoc, ← ht, hrest, ← htext]

theorem Finds.gap {f : Unit → Reader β}
    (hf : ∀ rest, Finds line (f ()) rest fun t b => Begins t ∧ Q t b) :
    Finds line (gap >>= f) text fun s b => ∃ l t, s = l ++ t ∧ IsBlank l ∧ Q t b := by
  refine (Finds.gap_before (Q := fun _ => Q) hf).mono ?_
  rintro s b ⟨l, -, t, -, hs⟩
  exact ⟨l, t, hs⟩

end Reader

/-! ### The grammar -/

open Reader

variable {line : Nat} {b : Binding} {s text : List Char} {f : Phrase} {inner : Reader Phrase}

theorem Spells.begins (h : Spells line b s f) (rest : List Char) : Begins (s ++ rest) := by
  obtain ⟨c, tail, rfl, hc⟩ := h.exists_head
  have hstart := Binding.isPhraseStart_of_isStart hc
  exact ⟨c, tail ++ rest, rfl, ne_of_isPhraseStart hstart rfl, ne_of_isPhraseStart hstart rfl⟩

theorem finds_number : Finds line number text (Spells line .atom) := by
  refine Finds.construct ((finds_run isDigit).bind fun ds whole rest _ h => ?_)
  obtain ⟨rfl, hwhole⟩ := h
  cases whole with
  | nil =>
    refine (finds_literal ".").bind fun point _ rest _ hpoint => ?_
    refine (finds_nonemptyRun isDigit).bind fun fs fraction rest _ h => finds_pure ?_
    obtain ⟨rfl, hne, hfraction⟩ := h
    rw [hpoint, decimalValue_eq, List.append_nil]
    exact .number (.point (by simp) hfraction (Or.inr hne))
  | cons c ds =>
    have hpart : ∀ text, Finds line (literal "." >>= fun _ => run isDigit) text fun s fs =>
        s = '.' :: fs ∧ ∀ c ∈ fs, isDigit c = true := fun text =>
      (finds_literal ".").bind fun point _ rest _ hpoint => (finds_run isDigit).mono fun fs _ h =>
        ⟨by rw [hpoint, h.1]; rfl, h.1 ▸ h.2⟩
    refine (hpart rest).optional.bind fun part fraction rest _ h => finds_pure ?_
    rw [decimalValue_eq, List.append_nil]
    rcases h with ⟨rfl, rfl⟩ | ⟨fs, rfl, rfl, hfs⟩
    · have hzero : (numeral [] / 10 ^ ([] : List Char).length : Rat) = 0 := by simp [numeral]
      rw [Option.getD_none, hzero, add_zero, List.append_nil]
      exact .number (.whole ⟨List.cons_ne_nil c ds, hwhole⟩)
    · exact .number (.point hwhole hfs (Or.inl (List.cons_ne_nil c ds)))

theorem finds_name : Finds line name text fun t s => t = s.toList ∧ isIdentifier s = true := by
  refine Finds.construct ((finds_run isNameChar).bind fun t word rest _ h => ?_)
  obtain ⟨rfl, hword⟩ := h
  cases word with
  | nil => exact finds_reject
  | cons c word =>
    by_cases hc : isLetter c = true
    · have hall : word.all isNameChar = true :=
        List.all_eq_true.mpr (List.forall_mem_cons.mp hword).2
      simp only [hc, if_true]
      refine finds_pure ⟨by simp, ?_⟩
      simp only [isIdentifier, String.toList_ofList, hc, hall, Bool.and_self]
    · simp only [hc, Bool.false_eq_true, if_false]
      exact finds_reject

theorem finds_closing : Finds line (gap >>= fun _ => literal ")" >>= fun _ => pure f) text
    fun t g => g = f ∧ ∃ r, t = r ++ [')'] ∧ IsBlank r := by
  refine (Finds.gap (Q := fun t g => t = [')'] ∧ g = f) fun rest => ?_).mono ?_
  · refine (finds_literal ")").bind fun t _ rest _ ht => finds_pure ?_
    rw [ht]
    exact ⟨⟨')', [], rfl, by decide⟩, rfl, rfl⟩
  · rintro _ _ ⟨r, _, rfl, hr, rfl, rfl⟩
    exact ⟨rfl, r, rfl, hr⟩

theorem finds_atom (hinner : ∀ text, Finds line inner text (Spells line .sum)) :
    Finds line (atom inner) text (Spells line .atom) := by
  refine finds_number.orElse (Finds.orElse ?_ ?_)
  · refine finds_name.bind fun t s rest _ h => finds_pure ?_
    rw [List.append_nil, h.1]
    exact .name h.2
  · refine (finds_literal "(").bind fun t _ rest _ ht => ?_
    rw [ht]
    refine (Finds.gap (Q := fun t f => ∃ s r, t = s ++ (r ++ [')']) ∧ IsBlank r ∧
      Spells line .sum s f) fun rest => ?_).mono ?_
    · refine (hinner rest).bind fun s f rest _ hs => finds_closing.mono ?_
      rintro _ _ ⟨rfl, r, rfl, hr⟩
      exact ⟨hs.begins _, s, r, rfl, hr, hs⟩
    · rintro _ f ⟨l, _, rfl, hl, s, r, rfl, hr, hs⟩
      exact .brackets hl hs hr

theorem finds_exponentPart : Finds line exponentPart text fun t digits => ∃ l op r ds,
    t = l ++ (op ++ (r ++ ds)) ∧ IsBlank l ∧ (op = "**".toList ∨ op = "^".toList) ∧ IsBlank r ∧
      IsDigits ds ∧ digits = String.ofList ds := by
  have hexponent : ∀ text, Finds line exponent text fun ds digits =>
      Begins ds ∧ IsDigits ds ∧ digits = String.ofList ds := fun text => by
    refine Finds.construct ((finds_nonemptyRun isDigit).bind fun ds _ rest _ h => finds_pure ?_)
    obtain ⟨rfl, hds⟩ := h
    rw [List.append_nil]
    obtain ⟨c, tail, rfl, hc⟩ := IsDigits.exists_head hds
    have hname := isNameChar_of_isDigit hc
    exact ⟨⟨c, tail, rfl, ne_of_isNameChar hname rfl, ne_of_isNameChar hname rfl⟩, hds, rfl⟩
  refine (Finds.gap (Q := fun t digits => ∃ op r ds, t = op ++ (r ++ ds) ∧
    (op = "**".toList ∨ op = "^".toList) ∧ IsBlank r ∧ IsDigits ds ∧ digits = String.ofList ds)
    fun rest => ?_).mono ?_
  · have hop : Finds line (literal "**" <|> literal "^") rest fun t _ =>
        t = "**".toList ∨ t = "^".toList :=
      ((finds_literal "**").mono fun _ _ => Or.inl).orElse
        ((finds_literal "^").mono fun _ _ => Or.inr)
    refine hop.bind fun op _ rest _ hop => (Finds.gap hexponent).mono ?_
    rintro _ digits ⟨r, ds, rfl, hr, hds⟩
    refine ⟨?_, op, r, ds, rfl, hop, hr, hds⟩
    rcases hop with rfl | rfl
    · exact ⟨'*', _, rfl, by decide⟩
    · exact ⟨'^', _, rfl, by decide⟩
  · rintro _ digits ⟨l, _, rfl, hl, op, r, ds, rfl, hop, hr, hds⟩
    exact ⟨l, op, r, ds, rfl, hl, hop, hr, hds⟩

theorem finds_power (hinner : ∀ text, Finds line inner text (Spells line .sum)) :
    Finds line (power inner) text (Spells line .power) := by
  refine Finds.construct (finds_lineNumber.bind fun t start rest _ h => ?_)
  obtain ⟨rfl, rfl⟩ := h
  refine (finds_atom hinner).bind fun s f rest _ hs => ?_
  refine finds_exponentPart.optional.bind fun t digits rest _ h => ?_
  rcases h with ⟨rfl, rfl⟩ | ⟨_, rfl, l, op, r, ds, rfl, hl, hop, hr, hds, rfl⟩
  · refine finds_pure ?_
    simpa using Spells.atom hs
  · refine finds_pure ?_
    rw [List.append_nil]
    rcases hop with rfl | rfl
    · exact .raised hs hl (Or.inl rfl) hr hds
    · exact .raised hs hl (Or.inr rfl) hr hds

theorem finds_either (yes no : String) :
    Finds line ((literal yes >>= fun _ => pure true) <|> (literal no >>= fun _ => pure false)) text
      fun t flag => t = (if flag then yes else no).toList := by
  have hliteral : ∀ (s : String) (flag : Bool), Finds line (literal s >>= fun _ => pure flag) text
      fun t found => t = s.toList ∧ found = flag := fun s flag =>
    (finds_literal s).bind fun t _ rest _ ht => finds_pure ⟨(List.append_nil t).trans ht, rfl⟩
  apply Finds.orElse
  · refine (hliteral yes true).mono ?_
    rintro _ _ ⟨rfl, rfl⟩
    rfl
  · refine (hliteral no false).mono ?_
    rintro _ _ ⟨rfl, rfl⟩
    rfl

theorem finds_signOp : Finds line signOp text fun t negative =>
    t = [if negative then '-' else '+'] := by
  refine ((finds_either "-" "+").mono ?_).construct
  rintro _ negative rfl
  cases negative <;> rfl

/-- By induction on the number of signs. -/
theorem finds_unary (hinner : ∀ text, Finds line inner text (Spells line .sum)) (depth : Nat) :
    Finds line (unary inner depth) text (Spells line .signed) := by
  induction depth generalizing text with
  | zero => exact finds_reject
  | succ depth ih =>
    refine Finds.construct (Finds.orElse ?_ ((finds_power hinner).mono fun _ _ => .power))
    refine finds_signOp.bind fun t negative rest _ ht => ?_
    refine (Finds.gap (Q := fun t g => ∃ f, Spells line .signed t f ∧
      g = if negative then .negated f else f) fun rest => ?_).mono ?_
    · refine ih.bind fun s f rest _ hs => finds_pure ?_
      rw [List.append_nil]
      exact ⟨List.append_nil s ▸ hs.begins [], f, hs, rfl⟩
    · rintro _ _ ⟨l, s, rfl, hl, f, hs, rfl⟩
      rw [ht, List.singleton_append]
      cases negative with
      | true => exact .minus hl hs
      | false => exact .plus hl hs

/-- An operator and what stands behind it. -/
def IsOperation (line : Nat) (b : Binding) (yes no : Char) (t : List Char) (g : Bool × Phrase) : Prop :=
  ∃ l r u, t = l ++ (if g.1 then yes else no) :: (r ++ u) ∧ IsBlank l ∧ IsBlank r ∧
    Spells line b u g.2

/-- Operators of either kind are read in one way. -/
theorem finds_operation {op : Reader Bool} {operand : Reader Phrase} {yes no : Char}
    (hop : ∀ text, Finds line op text fun t flag => t = [if flag then yes else no])
    (hyes : yes ≠ '\n' ∧ yes ≠ '\r') (hno : no ≠ '\n' ∧ no ≠ '\r')
    (hoperand : ∀ text, Finds line operand text (Spells line b)) :
    Finds line (do gap; let flag ← op; gap; return (flag, ← operand)) text
      (IsOperation line b yes no) := by
  refine (Finds.gap (Q := fun t g => ∃ r u, t = (if g.1 then yes else no) :: (r ++ u) ∧
    IsBlank r ∧ Spells line b u g.2) fun rest => ?_).mono ?_
  · refine (hop rest).bind fun t flag rest _ ht => ?_
    refine (Finds.gap (Q := fun u g => g.1 = flag ∧ Spells line b u g.2) fun rest => ?_).mono ?_
    · refine (hoperand rest).bind fun u f rest _ hu => finds_pure ?_
      rw [List.append_nil]
      exact ⟨List.append_nil u ▸ hu.begins [], rfl, hu⟩
    · rintro _ g ⟨r, u, rfl, hr, rfl, hu⟩
      rw [ht]
      refine ⟨⟨_, r ++ u, rfl, ?_⟩, r, u, rfl, hr, hu⟩
      split
      · exact hyes
      · exact hno
  · rintro _ g ⟨l, _, rfl, hl, r, u, rfl, hr, hu⟩
    exact ⟨l, r, u, rfl, hl, hr, hu⟩

theorem finds_mulOp : Finds line mulOp text fun t times => t = [if times then '*' else '/'] := by
  apply Finds.construct
  apply Finds.orElse
  · refine (finds_absent "**").bind fun t _ rest _ ht => ?_
    exact (finds_literal "*").bind fun u _ rest _ hu => finds_pure (by rw [ht, hu]; rfl)
  · exact (finds_literal "/").bind fun t _ rest _ ht => finds_pure (by rw [ht]; rfl)

theorem finds_addOp : Finds line addOp text fun t plus => t = [if plus then '+' else '-'] := by
  refine ((finds_either "+" "-").mono ?_).construct
  rintro _ plus rfl
  cases plus <;> rfl

/-- What one operation does to a phrase, a row of them does. -/
theorem Spells.foldl {α : Type} {R : List Char → α → Prop} {join : Phrase → α → Phrase}
    {more : List Char} {as : List α} (h : Rows R more as) (hs : Spells line b s f)
    (hjoin : ∀ s f t a, Spells line b s f → R t a → Spells line b (s ++ t) (join f a)) :
    Spells line b (s ++ more) (as.foldl join f) := by
  induction h generalizing s f with
  | nil => rwa [List.append_nil]
  | @cons t more a as ha _ ih =>
    rw [← List.append_assoc, List.foldl_cons]
    exact ih (hjoin s f t a hs ha)

/-- A row of factors makes a longer product of a product. -/
theorem Spells.factors {more : List Char} {factors : List (Bool × Phrase)}
    (h : Rows (IsOperation line .signed '*' '/') more factors) (hs : Spells line .product s f) :
    Spells line .product (s ++ more)
      (factors.foldl (fun acc g => if g.1 then .product acc g.2 else .quotient line acc g.2) f) := by
  refine hs.foldl h ?_
  rintro s f _ ⟨times, g⟩ hs ⟨l, r, u, rfl, hl, hr, hu⟩
  cases times with
  | true => exact .product hs hl hr hu
  | false => exact .quotient hs hl hr hu

theorem Spells.summands {more : List Char} {summands : List (Bool × Phrase)}
    (h : Rows (IsOperation line .product '+' '-') more summands) (hs : Spells line .sum s f) :
    Spells line .sum (s ++ more)
      (summands.foldl (fun acc g => if g.1 then .sum acc g.2 else .difference acc g.2) f) := by
  refine hs.foldl h ?_
  rintro s f _ ⟨plus, g⟩ hs ⟨l, r, u, rfl, hl, hr, hu⟩
  cases plus with
  | true => exact .sum hs hl hr hu
  | false => exact .difference hs hl hr hu

theorem finds_term (hinner : ∀ text, Finds line inner text (Spells line .sum)) (depth : Nat) :
    Finds line (term inner depth) text (Spells line .product) := by
  refine Finds.construct (finds_lineNumber.bind fun t start rest _ h => ?_)
  obtain ⟨rfl, rfl⟩ := h
  refine (finds_unary hinner depth).bind fun s f rest _ hs => ?_
  have hmany : Finds start _ rest _ := Finds.many fun _ => finds_operation (fun _ => finds_mulOp)
    (by decide) (by decide) fun _ => finds_unary hinner depth
  refine hmany.bind fun more factors rest _ hfactors => finds_pure ?_
  rw [List.append_nil, List.nil_append]
  exact .factors hfactors (.signed hs)

/-- By induction on the depth of brackets. -/
theorem finds_expression (depth : Nat) : Finds line (expression depth) text (Spells line .sum) := by
  induction depth generalizing text with
  | zero => exact finds_reject
  | succ depth ih =>
    have hterm : ∀ text, Finds line (term (expression depth) (depth + 1)) text
        (Spells line .product) := fun _ => finds_term (fun _ => ih) (depth + 1)
    refine Finds.construct ((hterm text).bind fun s f rest _ hs => ?_)
    have hmany : Finds line _ rest _ := Finds.many fun _ => finds_operation (fun _ => finds_addOp)
      (by decide) (by decide) hterm
    refine hmany.bind fun more summands rest _ hsummands => finds_pure ?_
    rw [List.append_nil]
    exact .summands hsummands (.term hs)

/-- What is read is spelled. -/
theorem spellsText_of_readPhrase {text : String} (h : readPhrase text = .ok f) :
    SpellsText text f := by
  have hend : ∀ (f : Phrase) rest, Finds 1 (do gap; endOfText; return f) rest fun t g =>
      t = rest ∧ IsTrailer t ∧ g = f := fun f rest => by
    refine finds_gap.bind fun r _ rest hrest hr => ?_
    refine finds_endOfText.bind fun t _ _ _ ht => finds_pure ?_
    rw [hrest, ht.1, ht.2]
    exact ⟨rfl, by simpa using hr, rfl⟩
  have hwhole : ∀ rest, Finds 1 (do let f ← phrase; gap; endOfText; return f) rest fun t f =>
      Begins t ∧ t = rest ∧ ∃ s r, t = s ++ r ∧ Spells 1 .sum s f ∧ IsTrailer r := fun rest => by
    have hphrase : Finds 1 phrase rest (Spells 1 .sum) := fun c => finds_expression _ c
    refine hphrase.bind fun s f rest hrest hs => (hend f rest).mono ?_
    rintro _ _ ⟨rfl, hr, rfl⟩
    exact ⟨hs.begins _, hrest.symm, s, _, rfl, hs, hr⟩
  obtain ⟨c, reach, h⟩ := readAll_eq_ok_iff.mp h
  obtain ⟨-, taken, -, l, _, t, htext, -, hl, rfl, s, r, rfl, hs, hr⟩ := Finds.construct
    (Finds.gap_before (f := fun _ => do let f ← phrase; gap; endOfText; return f) hwhole)
    (Cursor.start text) Reach.start f c reach rfl rfl h
  exact ⟨l, s, r, htext, hl, hs, hr⟩

end ProbLoop.Source
