import ProbLoop.Proofs.Expr.Text
import ProbLoop.Proofs.Program.WellFormed
import ProbLoop.Proofs.Source.Lines

/-!
# Right-hand sides as they are written

The text of an update, in front of the end of its line, is read back as a phrase that stands for the
update, whatever its names stand for.
-/

set_option autoImplicit false

namespace ProbLoop

open Source Reader

variable {line : Nat} {rest : List Char} {resolve : Resolver}

/-- The names of an expression stand for its symbols. -/
def Expr.ResolvedBy (resolve : Resolver) (e : Expr) : Prop :=
  ∀ t ∈ e.terms, ∀ p ∈ t.1.powers, resolve p.1.name = some p.1

/-- All exponents may be written in a source. -/
def Expr.ExponentsFit (e : Expr) : Prop :=
  ∀ t ∈ e.terms, ∀ p ∈ t.1.powers, p.2 ≤ maxExponent

instance (e : Expr) : Decidable e.ExponentsFit :=
  inferInstanceAs (Decidable (∀ t ∈ e.terms, ∀ p ∈ t.1.powers, p.2 ≤ maxExponent))

/-- The phrase stands for the expression if its names stand for the symbols, and for nothing if an
exponent is too large. -/
structure Source.Phrase.Means (f : Phrase) (e : Expr) : Prop where
  toExpr_eq : ∀ resolve : Resolver, e.ResolvedBy resolve → e.ExponentsFit → f.toExpr resolve = .ok e
  fits : ∀ (resolve : Resolver) (x : Expr), f.toExpr resolve = .ok x → e.ExponentsFit

/-- An expression whose text may stand in a program. -/
structure Expr.Legible (e : Expr) : Prop where
  canonical : e.Canonical
  plain : ∀ t ∈ e.terms, t.1.base = 1
  names : ∀ t ∈ e.terms, ∀ p ∈ t.1.powers, isIdentifier p.1.name = true ∧ p.1.name ≠ "RV"

/-! ### Exponents -/

namespace Source

/-- The phrase stands for some expression. -/
def Phrase.IsMeant (resolve : Resolver) (f : Phrase) : Prop := ∃ x, f.toExpr resolve = .ok x

theorem WrittenFactor.le_of_isMeant {name : String} {k : Nat}
    (h : ((power name k).phrase line).IsMeant resolve) : k ≤ maxExponent := by
  rw [phrase] at h
  split at h
  · next hone =>
    rw [hone]
    decide
  · obtain ⟨x, hx⟩ := h
    obtain ⟨y, -, hy⟩ := except_bind_eq_ok.mp hx
    have hdigits : digitsValue (toString k).toList = k := digitsValue_digits k
    rw [raise, hdigits] at hy
    split at hy
    · assumption
    · cases hy

/-- The parts of a product stand for expressions if the product does. -/
theorem isMeant_of_joinFactor {others : List (Bool × WrittenFactor)} {f : Phrase}
    (h : (others.foldl (Expr.joinFactor line) f).IsMeant resolve) :
    f.IsMeant resolve ∧ ∀ g ∈ others, (g.2.phrase line).IsMeant resolve := by
  induction others generalizing f with
  | nil => exact ⟨h, by simp⟩
  | cons g others ih =>
    obtain ⟨⟨x, hx⟩, hothers⟩ := ih h
    suffices hparts : f.IsMeant resolve ∧ (g.2.phrase line).IsMeant resolve from
      ⟨hparts.1, List.forall_mem_cons.mpr ⟨hparts.2, hothers⟩⟩
    unfold Expr.joinFactor at hx
    split at hx <;>
    · obtain ⟨y, hy, hx⟩ := except_bind_eq_ok.mp hx
      obtain ⟨z, hz, -⟩ := except_bind_eq_ok.mp hx
      exact ⟨⟨y, hy⟩, z, hz⟩

/-- The parts of a sum stand for expressions if the sum does. -/
theorem isMeant_of_joinTerm {others : List (Bool × WrittenTerm)} {f : Phrase}
    (h : (others.foldl (Expr.joinTerm line) f).IsMeant resolve) :
    f.IsMeant resolve ∧ ∀ t ∈ others, (t.2.phrase line).IsMeant resolve := by
  induction others generalizing f with
  | nil => exact ⟨h, by simp⟩
  | cons t others ih =>
    obtain ⟨⟨x, hx⟩, hothers⟩ := ih h
    suffices hparts : f.IsMeant resolve ∧ (t.2.phrase line).IsMeant resolve from
      ⟨hparts.1, List.forall_mem_cons.mpr ⟨hparts.2, hothers⟩⟩
    unfold Expr.joinTerm at hx
    split at hx <;>
    · obtain ⟨y, hy, hx⟩ := except_bind_eq_ok.mp hx
      obtain ⟨z, hz, -⟩ := except_bind_eq_ok.mp hx
      exact ⟨⟨y, hy⟩, z, hz⟩

end Source

namespace Expr

/-- The powers of a term are among its written factors. -/
theorem le_of_isMeant_writtenTerm {t : Monomial × Rat}
    (hfirst : ((writtenTerm t).first.phrase line).IsMeant resolve)
    (hothers : ∀ g ∈ (writtenTerm t).others, (g.2.phrase line).IsMeant resolve) :
    ∀ p ∈ t.1.powers, p.2 ≤ maxExponent := by
  have hlater : ∀ powers : List (Symbol × Nat),
      (∀ g ∈ powers.map laterPower, (g.2.phrase line).IsMeant resolve) →
        ∀ p ∈ powers, p.2 ≤ maxExponent := fun powers h p hp =>
    WrittenFactor.le_of_isMeant (h _ (List.mem_map_of_mem hp))
  unfold writtenTerm at hfirst hothers
  cases hp : t.1.powers with
  | nil => simp
  | cons p powers =>
    simp only [hp] at hfirst hothers
    split at hfirst
    · next hone =>
      rw [if_pos hone] at hothers
      exact List.forall_mem_cons.mpr ⟨WrittenFactor.le_of_isMeant hfirst, hlater powers hothers⟩
    · next hone =>
      rw [if_neg hone] at hothers
      exact hlater _ fun g hg => hothers g (List.mem_append_right _ hg)

/-- Exponents that are too large have no meaning. -/
theorem le_of_isMeant_writtenSum {ts : List (Monomial × Rat)}
    (h : ((writtenSum ts).phrase line).IsMeant resolve) :
    ∀ t ∈ ts, ∀ p ∈ t.1.powers, p.2 ≤ maxExponent := by
  cases ts with
  | nil => simp
  | cons t ts =>
    obtain ⟨hfirst, hothers⟩ := isMeant_of_joinTerm h
    refine List.forall_mem_cons.mpr ⟨?_, fun u hu => ?_⟩
    · obtain ⟨hsigned, hfactors⟩ := isMeant_of_joinFactor hfirst
      refine le_of_isMeant_writtenTerm ?_ hfactors
      split at hsigned
      · obtain ⟨x, hx⟩ := hsigned
        obtain ⟨y, hy, -⟩ := except_bind_eq_ok.mp hx
        exact ⟨y, hy⟩
      · exact hsigned
    · obtain ⟨hfirst, hfactors⟩ := isMeant_of_joinFactor (hothers _ (List.mem_map_of_mem hu))
      exact le_of_isMeant_writtenTerm hfirst hfactors

end Expr

/-! ### Expressions -/

namespace Expr

variable {e : Expr}

/-- The row of terms as which an expression is written. -/
abbrev written (e : Expr) : WrittenSum := writtenSum (e.terms.mergeSort writtenBefore)

theorem Legible.toList_text (he : e.Legible) : e.text.toList = e.written.chars :=
  toList_text_eq he.plain

theorem Legible.named (he : e.Legible) : e.written.Named :=
  named_writtenSum fun t ht p hp => (he.names t (List.mem_mergeSort.mp ht) p hp).1

theorem Legible.means (he : e.Legible) (line : Nat) : (e.written.phrase line).Means e where
  toExpr_eq _ hr hfits := toExpr_writtenSum he.canonical (fun t ht =>
    ⟨he.plain t ht, hfits t ht, fun p hp => (he.names t ht p hp).1, hr t ht⟩) line
  fits _ x hx t ht := le_of_isMeant_writtenSum ⟨x, hx⟩ t (List.mem_mergeSort.mpr ht)

/-- The first word is not the one that introduces a draw. -/
theorem Legible.first_ne (he : e.Legible) (k : Nat) : e.written.first.first ≠ .power "RV" k := by
  have hterm : ∀ t : Monomial × Rat, (∀ p ∈ t.1.powers, p.1.name ≠ "RV") →
      (writtenTerm t).first ≠ .power "RV" k := by
    intro t ht
    unfold writtenTerm
    split
    · simp
    · next p powers hp =>
      have hne := ht p (hp ▸ List.mem_cons_self)
      dsimp only
      split
      · intro h
        exact hne (WrittenFactor.power.inj h).1
      · simp
  unfold written
  cases hts : e.terms.mergeSort writtenBefore with
  | nil => simp [writtenSum]
  | cons t ts =>
    have ht : t ∈ e.terms := List.mem_mergeSort.mp (hts ▸ List.mem_cons_self)
    exact hterm t fun p hp => (he.names t ht p hp).2

theorem Legible.reads (he : e.Legible) (hrest : EndsSum rest) :
    Reads phrase e.text.toList (·.Means e) rest := by
  rw [he.toList_text]
  exact Takes.reads (fun line => takes_phrase he.named hrest) he.means

theorem Legible.takes_gap (he : e.Legible) (rest : List Char) :
    Takes line gap [] () (e.text.toList ++ rest) := by
  obtain ⟨c, tail, hchars, hc, -⟩ := he.named.exists_head
  rw [he.toList_text, hchars]
  exact Reader.takes_gap hc _

theorem legible_const (q : Rat) : (const q).Legible := by
  have hpowers : ∀ t ∈ (const q).terms, t.1 = Monomial.one := by
    unfold const term nonzero?
    split <;> simp [Assoc.consSome]
  refine ⟨canonical_const q, fun t ht => by rw [hpowers t ht]; rfl, fun t ht p hp => ?_⟩
  rw [hpowers t ht] at hp
  exact absurd hp List.not_mem_nil

theorem resolvedBy_const (q : Rat) : (const q).ResolvedBy resolve := by
  unfold const term nonzero?
  split <;> simp [ResolvedBy, Assoc.consSome, Monomial.one]

theorem exponentsFit_const (q : Rat) : (const q).ExponentsFit := by
  unfold const term nonzero?
  split <;> simp [ExponentsFit, Assoc.consSome, Monomial.one]

theorem exponentsFit_ofSymbol (s : Symbol) : (ofSymbol s).ExponentsFit := by
  have hterms : (ofSymbol s).terms = [(Monomial.ofSymbol s 1, 1)] := rfl
  intro t ht x hx
  rw [hterms, List.mem_singleton] at ht
  rw [ht] at hx
  obtain rfl := List.mem_singleton.mp hx
  exact (by decide : 1 ≤ maxExponent)

/-- Numbers are written in the same way wherever they stand. -/
theorem text_const (q : Rat) : (const q).text = Number.text q := by
  by_cases hq : q = 0
  · subst hq
    decide +kernel
  · have hterms : (const q).terms = [(Monomial.one, q)] := by
      simp [const, term, nonzero?, hq, Assoc.consSome]
    have htext : (const q).text = firstText (Monomial.one, q) := by
      simp [text, hterms, String.join]
    rw [htext, firstText, magnitudeText]
    have hone : Monomial.one.isOne = true := rfl
    simp only [hone, if_true]
    by_cases hneg : q < 0
    · have hnum : toString q.num = "-" ++ toString (-q.num) := by
        have hlt : q.num < 0 := Rat.num_neg.mpr hneg
        obtain ⟨k, hk⟩ := Int.eq_negSucc_of_lt_zero hlt
        rw [hk]
        rfl
      have habs : Number.abs q = -q := by rw [Number.abs, if_pos hneg]
      rw [if_pos hneg, habs, Number.text, Number.text, Rat.den_neg_eq_den, Rat.num_neg_eq_neg_num,
        hnum]
      split
      · rfl
      · simp only [String.append_assoc]
    · have habs : Number.abs q = q := by rw [Number.abs, if_neg hneg]
      rw [if_neg hneg, habs, String.empty_append]

end Expr

/-! ### Expressions are no draws -/

section NoDraws

variable {name word tail : List Char}

/-- In front of a longer word a literal leaves the rest of it, and in front of another word nothing. -/
theorem behind_word (hword : ∀ c ∈ word, isNameChar c = true) (hname : ∀ c ∈ name, isNameChar c = true)
    (htail : ∀ c ∈ tail.head?, isNameChar c = false) (hne : name ≠ word) :
    behind word (name ++ tail) = none ∨
      ∃ c more, behind word (name ++ tail) = some (c :: more) ∧ isNameChar c = true := by
  induction word generalizing name with
  | nil =>
    obtain ⟨c, more, rfl⟩ := List.exists_cons_of_ne_nil hne
    exact Or.inr ⟨c, more ++ tail, rfl, hname c List.mem_cons_self⟩
  | cons a word ih =>
    obtain ⟨ha, hword⟩ := List.forall_mem_cons.mp hword
    cases name with
    | nil =>
      left
      cases tail with
      | nil => rfl
      | cons d tail => exact if_neg (ne_of_isNameChar ha (htail d rfl))
    | cons b name =>
      rw [List.cons_append, behind]
      by_cases hab : a = b
      · rw [if_pos hab]
        exact ih hword (List.forall_mem_cons.mp hname).2 fun h => hne (by rw [hab, h])
      · exact Or.inl (if_neg hab)

/-- What does not begin with the word of a draw and a bracket is none. -/
theorem misses_randomDraw_of_word (name : List Char) (hname : ∀ c ∈ name, isNameChar c = true)
    (htail : ∀ c ∈ tail.head?, isNameChar c = false) (hne : name ≠ "RV".toList) :
    Misses line randomDraw (name ++ tail) := by
  apply Misses.construct
  have hword : ∀ c ∈ "RV".toList, isNameChar c = true :=
    List.forall_mem_cons.mpr ⟨rfl, List.forall_mem_cons.mpr ⟨rfl, List.forall_mem_nil _⟩⟩
  rcases behind_word hword hname htail hne with h | ⟨c, more, h, hc⟩
  · exact (misses_literal h).bind
  · rw [eq_append_of_behind h]
    apply Takes.misses (takes_literal "RV" _)
    apply Takes.misses (t := []) (takes_gap_of_isNameChar hc _)
    exact (misses_literal_of_isNameChar hc _ rfl rfl).bind

/-- A sum is not a draw. -/
theorem misses_randomDraw {s : WrittenSum} (hs : s.Named) (hne : ∀ k, s.first.first ≠ .power "RV" k)
    (hrest : EndsSum rest) : Misses line randomDraw (s.chars ++ rest) := by
  have hends : EndsFactor (s.first.others.flatMap WrittenTerm.laterChars ++
      (s.others.flatMap WrittenSum.laterChars ++ rest)) :=
    (takes_factors line (expression 0) 0 hs.1 (takes_summands line (expression 0) 0 hs hrest).1).1
  have hchars : s.chars ++ rest = (if s.negative then ['-'] else []) ++ (s.first.first.chars ++
      (s.first.others.flatMap WrittenTerm.laterChars ++
        (s.others.flatMap WrittenSum.laterChars ++ rest))) := by
    rw [WrittenSum.chars, WrittenTerm.chars]
    simp only [List.append_assoc]
  rw [hchars]
  cases s.negative with
  | true => exact misses_randomDraw_of_word [] (by simp) (by simp; rfl) (by decide)
  | false =>
    change Misses line randomDraw (s.first.first.chars ++ _)
    have hnamed := hs.1.1
    have hhead := fun c hc => (hends.head (c := c) hc).1
    cases hfirst : s.first.first with
    | number k =>
      refine misses_randomDraw_of_word (digits k)
        (fun c hc => isNameChar_of_isDigit (isDigit_of_mem_digits c hc)) hhead fun h => ?_
      have hmem : 'R' ∈ digits k := by
        rw [h]
        exact List.mem_cons_self
      exact absurd (isDigit_of_mem_digits 'R' hmem) (by decide)
    | power word k =>
      rw [hfirst] at hnamed
      obtain ⟨c, more, hword, hc, hmore⟩ := exists_of_isIdentifier hnamed
      have hchars : ∀ d ∈ word.toList, isNameChar d = true := by
        rw [hword]
        exact List.forall_mem_cons.mpr ⟨isNameChar_of_isLetter hc, hmore⟩
      have hne : word.toList ≠ "RV".toList := fun h =>
        hne k (by rw [hfirst, String.toList_inj.mp h])
      rw [WrittenFactor.chars]
      split
      · exact misses_randomDraw_of_word _ hchars hhead hne
      · rw [List.append_assoc]
        exact misses_randomDraw_of_word _ hchars (by simp; rfl) hne

end NoDraws

/-! ### Updates -/

namespace Update

/-- The names of an update stand for its symbols. -/
def ResolvedBy (resolve : Resolver) : Update → Prop
  | branches bs => ∀ b ∈ bs, b.1.ResolvedBy resolve
  | random _ => True

/-- All exponents may be written in a source. -/
def ExponentsFit : Update → Prop
  | branches bs => ∀ b ∈ bs, b.1.ExponentsFit
  | random _ => True

instance : (u : Update) → Decidable u.ExponentsFit
  | branches bs => inferInstanceAs (Decidable (∀ b ∈ bs, b.1.ExponentsFit))
  | random _ => .isTrue trivial

/-- An update whose text may stand in a program. -/
def Legible : Update → Prop
  | branches bs => IsChoice bs ∧ ∀ b ∈ bs, b.1.Legible
  | random d => d.check = .ok d ∧ ∀ s, d ≠ .unknown s

end Update

/-- The right-hand side stands for the update if its names stand for the symbols, and for nothing if
an exponent is too large. -/
structure Source.UpdatePhrase.Means (f : UpdatePhrase) (u : Update) : Prop where
  toUpdate_eq : ∀ resolve : Resolver, u.ResolvedBy resolve → u.ExponentsFit →
    ∀ name line, toUpdate resolve name ⟨line, f⟩ = .ok u
  fits : ∀ (resolve : Resolver) (name : String) (line : Nat) (x : Update),
    toUpdate resolve name ⟨line, f⟩ = .ok x → u.ExponentsFit

/-- The characters that may follow a branch. -/
def isBranchEnd (c : Char) : Bool := c == ';' || c == '\n'

/-- The character that may follow a right-hand side. -/
def isLineEnd (c : Char) : Bool := c == '\n'

theorem isBranchEnd_of_isLineEnd (c : Char) (h : isLineEnd c = true) : isBranchEnd c = true := by
  rw [isBranchEnd, show (c == '\n') = true from h, Bool.or_true]

theorem isStop_of_isBranchEnd (c : Char) (h : isBranchEnd c = true) : isStop c = true := by
  simp only [isBranchEnd, Bool.or_eq_true, beq_iff_eq] at h
  rcases h with rfl | rfl <;> rfl

theorem space_of_isBranchEnd (c : Char) (h : isBranchEnd c = true) :
    c ≠ ' ' ∧ c ≠ '\t' ∧ c ≠ '#' :=
  space_of_isStopOrSign c (isStopOrSign_of_isStop c (isStop_of_isBranchEnd c h))

theorem toNumber_eq_ok {q : Rat} {l : Located Phrase} (h : l.value.Means (.const q)) :
    toNumber l = .ok q := by
  have hvalue := h.toExpr_eq (fun _ => none) (Expr.resolvedBy_const q) (Expr.exponentsFit_const q)
  refine except_bind_eq_ok.mpr ⟨.const q, hvalue, ?_⟩
  rw [Expr.constant?_const]

/-- A number behind a blank. -/
theorem reads_number (q : Rat) (hrest : EndsSum rest) :
    Reads (gap >>= fun _ => located phrase) (' ' :: (Number.text q).toList)
      (fun l => toNumber l = .ok q) rest := by
  have hq := Expr.legible_const q
  rw [← Expr.text_const]
  exact Takes.then_reads (s := [' ']) (fun _ => (hq.takes_gap rest).gap_cons)
    ((hq.reads hrest).located.mono fun _ => toNumber_eq_ok)

/-! ### Draws -/

section Draws

variable {d : Distribution}

theorem toList_text_draw (d : Distribution) : d.text.toList =
    "RV".toList ++ ("(".toList ++ (d.name.toList ++
      (d.parameters.flatMap (fun q => ',' :: ' ' :: (Number.text q).toList) ++ [')']))) := by
  rw [Distribution.text, String.toList_append, String.toList_append, Expr.toList_intercalate_cons,
    List.flatMap_map]
  simp only [List.append_assoc]
  rfl

/-- A parameter behind its comma. -/
abbrev parameterPart : Reader (Located Phrase) := do gap; literal ","; gap; located phrase

theorem reads_parameterPart (q : Rat) (hrest : EndsSum rest) :
    Reads parameterPart (',' :: ' ' :: (Number.text q).toList) (fun l => toNumber l = .ok q) rest :=
  Takes.before_reads (fun _ => takes_gap (by decide) _)
    (Takes.then_reads (s := [',']) (fun _ => takes_literal "," _) (reads_number q hrest))

theorem isIdentifier_name (d : Distribution) : isIdentifier d.name = true := by
  cases d <;> simp only [Distribution.name] <;> decide +kernel

theorem reads_randomDraw (d : Distribution) (rest : List Char) :
    Reads randomDraw d.text.toList (fun f => ∃ ps, f = .draw d.name ps ∧
      List.Forall₂ (fun q l => toNumber l = .ok q) d.parameters ps) rest := by
  have hclose : EndsSum (')' :: rest) := .here rfl rest
  obtain ⟨hends, hparameters⟩ := reads_many (p := parameterPart) EndsSum d.parameters
    (fun _ _ => List.cons_ne_nil _ _) (fun _ _ text _ => .here rfl _)
    (fun q _ text htext => reads_parameterPart q htext) hclose (fun _ => Takes.misses (t := []) (takes_gap (by decide) _)
      (misses_literal rfl).bind)
  have hname : ∀ line, Takes line name d.name.toList d.name
      ((d.parameters.flatMap (fun q => ',' :: ' ' :: (Number.text q).toList) ++ [')']) ++ rest) := by
    intro line
    rw [List.append_assoc]
    refine takes_name (isIdentifier_name d) fun c hc => ?_
    exact ((EndsFactor.term hends.endsTerm).head hc).1
  have hhead : ∀ text : List Char, ∀ line, Takes line gap [] () (d.name.toList ++ text) := by
    intro text line
    obtain ⟨c, tail, hchars, hc, -⟩ := exists_of_isIdentifier (isIdentifier_name d)
    rw [hchars]
    exact takes_gap_of_isNameChar (isNameChar_of_isLetter hc) _
  rw [toList_text_draw]
  apply Reads.construct
  apply Takes.then_reads fun _ => takes_literal "RV" _
  apply Takes.before_reads fun _ => takes_gap (by decide) _
  apply Takes.then_reads fun _ => takes_literal "(" _
  apply Takes.before_reads fun line => by
    rw [List.append_assoc]
    exact hhead _ line
  apply Takes.then_reads hname
  apply hparameters.bind
  intro ps hps
  apply Takes.before_reads fun _ => takes_gap (by decide) _
  exact Takes.then_reads (t := []) (fun _ => takes_literal ")" _) (reads_pure ⟨ps, rfl, hps⟩ rest)

/-- The text of a distribution names it and its parameters. -/
theorem ofName_name (hd : ∀ s, d ≠ .unknown s) :
    Distribution.ofName d.name d.parameters = d.check := by
  cases d with
  | unknown s => exact absurd rfl (hd s)
  | _ => rfl

theorem means_draw (hd : (Update.random d).Legible) {ps : List (Located Phrase)}
    (hps : List.Forall₂ (fun q l => toNumber l = .ok q) d.parameters ps) :
    (UpdatePhrase.draw d.name ps).Means (.random d) := by
  refine ⟨fun resolve _ _ name line => ?_, fun _ _ _ _ _ => trivial⟩
  have hname : Distribution.ofName d.name d.parameters = .ok d := (ofName_name hd.2).trans hd.1
  refine except_bind_eq_ok.mpr ⟨d.parameters, except_mapM_eq_ok_iff.mpr hps.flip, ?_⟩
  rw [hname]

end Draws

/-! ### Branches -/

/-- What is read of a branch: its probability is left out if it is one. -/
def BranchMeans (a : Expr × Rat) (b : Phrase × Option (Located Phrase)) : Prop :=
  b.1.Means a.1 ∧ if a.2 = 1 then b.2 = none else ∃ l, b.2 = some l ∧ toNumber l = .ok a.2

section Branches

variable {a : Expr × Rat} {bs : List (Expr × Rat)}

theorem toList_branchText (a : Expr × Rat) : (Update.branchText a).toList =
    a.1.text.toList ++ if a.2 = 1 then [] else ' ' :: '@' :: ' ' :: (Number.text a.2).toList := by
  rw [Update.branchText]
  split
  · exact (List.append_nil _).symm
  · rw [String.toList_append, String.toList_append, List.append_assoc]
    rfl

/-- The probability of a branch behind its sign. -/
abbrev probabilityPart : Reader (Located Phrase) := do gap; literal "@"; gap; located phrase

theorem reads_branch (ha : a.1.Legible) (hrest : Ends isBranchEnd rest) :
    Reads branch (Update.branchText a).toList (BranchMeans a) rest := by
  have hsum : EndsSum rest := hrest.mono isStop_of_isBranchEnd
  rw [toList_branchText]
  apply Reads.construct
  by_cases hp : a.2 = 1
  · rw [if_pos hp, List.append_nil]
    refine (ha.reads hsum).after fun f hf => ?_
    have hmiss : ∀ line, Misses line probabilityPart rest :=
      fun _ => hrest.misses_gap_literal space_of_isBranchEnd rfl rfl
    exact Takes.before_reads (fun line => (hmiss line).optional)
      (reads_pure ⟨hf, by rw [if_pos hp]⟩ rest)
  · rw [if_neg hp]
    have hprobability : Reads probabilityPart (' ' :: '@' :: ' ' :: (Number.text a.2).toList)
        (fun l => toNumber l = .ok a.2) rest :=
      Takes.then_reads (s := [' ']) (fun _ => takes_gap_blank (by decide) _)
        (Takes.then_reads (s := ['@']) (fun _ => takes_literal "@" _) (reads_number a.2 hsum))
    refine Reads.bind (R := (·.Means a.1)) (ha.reads (.blank rfl _)) fun f hf =>
      hprobability.optional.after ?_
    rintro _ ⟨l, rfl, hl⟩
    exact reads_pure ⟨hf, by rw [if_neg hp]; exact ⟨l, rfl, hl⟩⟩ rest

/-- A branch behind its separator. -/
abbrev branchPart : Reader (Phrase × Option (Located Phrase)) := do gap; literal ";"; gap; branch

theorem reads_branchPart (ha : a.1.Legible) (hrest : Ends isBranchEnd rest) :
    Reads branchPart (';' :: ' ' :: (Update.branchText a).toList) (BranchMeans a) rest := by
  have hgap : ∀ line, Takes line gap [' '] () ((Update.branchText a).toList ++ rest) := by
    intro line
    rw [toList_branchText, List.append_assoc]
    exact (ha.takes_gap _).gap_cons
  exact Takes.before_reads (fun _ => takes_gap (by decide) _)
    (Takes.then_reads (s := [';']) (fun _ => takes_literal ";" _)
      (Takes.then_reads (s := [' ']) hgap (reads_branch ha hrest)))

theorem toList_text_branches (a : Expr × Rat) (others : List (Expr × Rat)) :
    (Update.branches (a :: others)).text.toList = (Update.branchText a).toList ++
      others.flatMap fun b => ';' :: ' ' :: (Update.branchText b).toList := by
  rw [Update.text, List.map_cons, Expr.toList_intercalate_cons, List.flatMap_map]
  rfl

theorem reads_branches (hne : bs ≠ []) (h : ∀ b ∈ bs, b.1.Legible) (hrest : Ends isLineEnd rest) :
    Reads branches (Update.branches bs).text.toList
      (fun f => ∃ fs, f = .choice fs ∧ List.Forall₂ BranchMeans bs fs) rest := by
  obtain ⟨a, others, rfl⟩ := List.exists_cons_of_ne_nil hne
  obtain ⟨ha, hothers⟩ := List.forall_mem_cons.mp h
  obtain ⟨hends, hreads⟩ := reads_many (p := branchPart) (Ends isBranchEnd) others
    (fun _ _ => List.cons_ne_nil _ _) (fun _ _ text _ => .here rfl _)
    (fun b hb text htext => reads_branchPart (hothers b hb) htext)
    (hrest.mono isBranchEnd_of_isLineEnd)
    fun _ => hrest.misses_gap_literal
      (fun c hc => space_of_isBranchEnd c (isBranchEnd_of_isLineEnd c hc)) rfl rfl
  rw [toList_text_branches]
  apply Reads.construct
  refine (reads_branch ha hends).bind fun f hf => hreads.after fun fs hfs => ?_
  exact reads_pure ⟨f :: fs, rfl, .cons hf hfs⟩ rest

/-- Branches are not a draw. -/
theorem misses_randomDraw_branches (hne : bs ≠ []) (h : ∀ b ∈ bs, b.1.Legible)
    (hrest : Ends isLineEnd rest) :
    Misses line randomDraw ((Update.branches bs).text.toList ++ rest) := by
  obtain ⟨a, others, rfl⟩ := List.exists_cons_of_ne_nil hne
  have ha := h a List.mem_cons_self
  have hothers : EndsSum ((others.flatMap fun b => ';' :: ' ' :: (Update.branchText b).toList) ++
      rest) := by
    cases others with
    | nil => exact hrest.mono fun c hc => isStop_of_isBranchEnd c (isBranchEnd_of_isLineEnd c hc)
    | cons b others => exact .here rfl _
  rw [toList_text_branches, toList_branchText, List.append_assoc, List.append_assoc, ha.toList_text]
  apply misses_randomDraw ha.named ha.first_ne
  split
  · exact hothers
  · exact .blank rfl _

/-- The probability one excludes other branches. -/
theorem IsChoice.single_or (h : IsChoice bs) : (∃ e, bs = [(e, 1)]) ∨ ∀ b ∈ bs, b.2 ≠ 1 := by
  by_cases hone : ∀ b ∈ bs, b.2 ≠ 1
  · exact Or.inr hone
  · left
    simp only [not_forall, not_not] at hone
    obtain ⟨⟨e, p⟩, hb, rfl⟩ := hone
    obtain ⟨before, after, rfl⟩ := List.append_of_mem hb
    have hnil : ∀ l : List (Expr × Rat), (∀ b ∈ l, 0 < b.2) → (l.map (·.2)).sum ≤ 0 → l = [] := by
      intro l hl hsum
      by_contra hne
      exact absurd (List.sum_pos _ (List.forall_mem_map.mpr hl) (by simpa using hne)) (not_lt.mpr hsum)
    obtain ⟨hbefore, hafter⟩ := List.forall_mem_append.mp h.1
    have hafter := (List.forall_mem_cons.mp hafter).2
    have hsum := h.2
    rw [List.map_append, List.map_cons, List.sum_append, List.sum_cons] at hsum
    have hb0 : 0 ≤ (before.map (·.2)).sum :=
      List.sum_nonneg (List.forall_mem_map.mpr fun b hb => (hbefore b hb).le)
    have ha0 : 0 ≤ (after.map (·.2)).sum :=
      List.sum_nonneg (List.forall_mem_map.mpr fun b hb => (hafter b hb).le)
    rw [hnil before hbefore (by linarith), hnil after hafter (by linarith)]
    exact ⟨e, rfl⟩

/-- Branches that are written with their probabilities are collected in their order. -/
theorem foldlM_addBranch {fs : List (Phrase × Option (Located Phrase))} (line : Nat)
    (h : List.Forall₂ BranchMeans bs fs) (hp : ∀ b ∈ bs, b.2 ≠ 1 ∧ b.2 ≠ 0)
    (hr : ∀ b ∈ bs, b.1.ResolvedBy resolve) (hfits : ∀ b ∈ bs, b.1.ExponentsFit)
    (known : List (Expr × Rat)) :
    fs.foldlM (addBranch resolve line) (known, none) = .ok (known ++ bs, none) := by
  induction h generalizing known with
  | nil => exact congrArg (fun l => Except.ok (l, none)) (List.append_nil known).symm
  | @cons a f bs fs haf _ ih =>
    obtain ⟨ha, hp⟩ := List.forall_mem_cons.mp hp
    obtain ⟨hra, hr⟩ := List.forall_mem_cons.mp hr
    obtain ⟨hfa, hfits⟩ := List.forall_mem_cons.mp hfits
    obtain ⟨hmeans, hprobability⟩ := haf
    rw [if_neg ha.1] at hprobability
    obtain ⟨l, hl, hnumber⟩ := hprobability
    have hstep : addBranch resolve line (known, none) f = .ok (known ++ [a], none) := by
      rw [addBranch, hmeans.toExpr_eq resolve hra hfa, hl]
      change (toNumber l >>= fun p => _) = _
      rw [hnumber]
      exact congrArg Except.ok (if_neg ha.2)
    rw [List.foldlM_cons, hstep, List.append_cons known a bs]
    exact ih hp hr hfits _

/-- All branches stand for expressions if they can be collected. -/
theorem exponentsFit_of_foldlM {fs : List (Phrase × Option (Located Phrase))}
    (h : List.Forall₂ BranchMeans bs fs) {line : Nat} {known result : Alternatives}
    (hok : fs.foldlM (addBranch resolve line) known = .ok result) :
    ∀ b ∈ bs, b.1.ExponentsFit := by
  induction h generalizing known with
  | nil => simp
  | @cons a f bs fs haf _ ih =>
    rw [List.foldlM_cons] at hok
    obtain ⟨next, hstep, hok⟩ := except_bind_eq_ok.mp hok
    obtain ⟨x, hx, -⟩ := except_bind_eq_ok.mp hstep
    exact List.forall_mem_cons.mpr ⟨haf.1.fits resolve x hx, ih hok⟩

/-- Branches stand for themselves: the one without a probability is alone. -/
theorem toUpdate_choice (hbs : IsChoice bs) {fs : List (Phrase × Option (Located Phrase))}
    (h : List.Forall₂ BranchMeans bs fs) (hr : ∀ b ∈ bs, b.1.ResolvedBy resolve)
    (hfits : ∀ b ∈ bs, b.1.ExponentsFit) (name : String) (line : Nat) :
    toUpdate resolve name ⟨line, .choice fs⟩ = .ok (.branches bs) := by
  rw [toUpdate]
  dsimp only
  rcases hbs.single_or with ⟨e, rfl⟩ | hne
  · obtain ⟨f, _, hf, hnil, rfl⟩ := List.forall₂_cons_left_iff.mp h
    obtain rfl := List.forall₂_nil_left_iff.mp hnil
    obtain ⟨hmeans, hprobability⟩ := hf
    rw [if_pos rfl] at hprobability
    have hstep : addBranch resolve line ([], none) f = .ok ([], some e) := by
      rw [addBranch, hmeans.toExpr_eq resolve (hr _ List.mem_cons_self)
        (hfits _ List.mem_cons_self), hprobability]
      rfl
    have hsettle : settle ([], some e) = [(e, 1)] := by simp [settle, Number.sum]
    rw [List.foldlM_cons, hstep]
    exact congrArg (fun bs => Except.ok (Update.branches bs)) hsettle
  · have hpos : ∀ b ∈ bs, b.2 ≠ 1 ∧ b.2 ≠ 0 := fun b hb => ⟨hne b hb, (hbs.1 b hb).ne'⟩
    rw [foldlM_addBranch line h hpos hr hfits []]
    rfl

theorem means_choice (hbs : IsChoice bs) {fs : List (Phrase × Option (Located Phrase))}
    (h : List.Forall₂ BranchMeans bs fs) : (UpdatePhrase.choice fs).Means (.branches bs) where
  toUpdate_eq _ hr hfits name line := toUpdate_choice hbs h hr hfits name line
  fits _ _ _ _ hx := by
    obtain ⟨known, hknown, -⟩ := except_bind_eq_ok.mp hx
    exact exponentsFit_of_foldlM h hknown

end Branches

theorem Update.Legible.takes_gap {u : Update} (hu : u.Legible) (rest : List Char) :
    Takes line gap [] () (u.text.toList ++ rest) := by
  cases u with
  | random d =>
    rw [Update.text, toList_text_draw]
    exact Reader.takes_gap (by decide) _
  | branches bs =>
    cases bs with
    | nil => exact absurd hu.1.2 (by simp)
    | cons a others =>
      rw [toList_text_branches, toList_branchText, List.append_assoc, List.append_assoc]
      exact (hu.2 a List.mem_cons_self).takes_gap _

theorem reads_update {u : Update} (hu : u.Legible) (hrest : Ends isLineEnd rest) :
    Reads update u.text.toList (·.Means u) rest := by
  apply Reads.construct
  cases u with
  | random d =>
    refine ((reads_randomDraw d rest).mono ?_).orElse
    rintro _ ⟨ps, rfl, hps⟩
    exact means_draw hu hps
  | branches bs =>
    have hne : bs ≠ [] := by
      rintro rfl
      exact absurd hu.1.2 (by simp)
    refine Misses.orElse_reads (fun _ => misses_randomDraw_branches hne hu.2 hrest)
      ((reads_branches hne hu.2 hrest).mono ?_)
    rintro _ ⟨fs, rfl, hfs⟩
    exact means_choice hu.1 hfs

end ProbLoop
