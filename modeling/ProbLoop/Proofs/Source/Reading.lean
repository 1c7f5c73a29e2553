import Mathlib.Data.List.TakeWhile
import ProbLoop.Source.Reader

/-!
# What readers take

In front of a text a reader either takes the first part of it or misses. On a single line this depends
on the text alone, neither on the offset nor on the attempts made before. For every way of building
readers there is one lemma that says what they take.
-/

set_option autoImplicit false

namespace ProbLoop.Source.Reader

variable {α β : Type} {line : Nat} {p q : Reader α} {f : α → Reader β} {a : α} {b : β}
  {first taken more rest text : List Char}

/-- In front of the text `taken ++ rest` the reader takes `taken` and finds `a`. -/
def Takes (line : Nat) (p : Reader α) (taken : List Char) (a : α) (rest : List Char) : Prop :=
  ∀ offset reach, ∃ offset' reach',
    p ⟨taken ++ rest, offset, line⟩ reach = (some (a, ⟨rest, offset', line⟩), reach')

/-- In front of the text the reader finds nothing. -/
def Misses (line : Nat) (p : Reader α) (text : List Char) : Prop :=
  ∀ offset reach, ∃ reach', p ⟨text, offset, line⟩ reach = (none, reach')

theorem takes_pure (a : α) (rest : List Char) : Takes line (pure a) [] a rest :=
  fun offset reach => ⟨offset, reach, rfl⟩

theorem Takes.bind {s t : List Char} (hp : Takes line p s a (t ++ rest))
    (hf : Takes line (f a) t b rest) : Takes line (p >>= f) (s ++ t) b rest := by
  intro offset reach
  obtain ⟨offset₁, reach₁, h₁⟩ := hp offset reach
  obtain ⟨offset₂, reach₂, h₂⟩ := hf offset₁ reach₁
  refine ⟨offset₂, reach₂, ?_⟩
  change andThen p f _ _ = _
  rw [List.append_assoc, andThen, h₁]
  exact h₂

/-- A reader that takes nothing leaves the text to the next one. -/
theorem Takes.before (hp : Takes line p [] a (taken ++ rest)) (hf : Takes line (f a) taken b rest) :
    Takes line (p >>= f) taken b rest :=
  Takes.bind hp hf

/-- The last reader may take nothing. -/
theorem Takes.after (hp : Takes line p taken a rest) (hf : Takes line (f a) [] b rest) :
    Takes line (p >>= f) taken b rest := by
  have h := Takes.bind (t := []) hp hf
  rwa [List.append_nil] at h

theorem Misses.bind (hp : Misses line p text) : Misses line (p >>= f) text := by
  intro offset reach
  obtain ⟨reach₁, h⟩ := hp offset reach
  refine ⟨reach₁, ?_⟩
  change andThen p f _ _ = _
  rw [andThen, h]

theorem Takes.misses {t : List Char} (hp : Takes line p t a rest) (hf : Misses line (f a) rest) :
    Misses line (p >>= f) (t ++ rest) := by
  intro offset reach
  obtain ⟨offset₁, reach₁, h₁⟩ := hp offset reach
  obtain ⟨reach₂, h₂⟩ := hf offset₁ reach₁
  refine ⟨reach₂, ?_⟩
  change andThen p f _ _ = _
  rw [andThen, h₁]
  exact h₂

theorem Takes.orElse (hp : Takes line p taken a rest) : Takes line (p <|> q) taken a rest := by
  intro offset reach
  obtain ⟨offset₁, reach₁, h⟩ := hp offset reach
  refine ⟨offset₁, reach₁, ?_⟩
  change Reader.orElse p (fun _ => q) _ _ = _
  rw [Reader.orElse, h]

theorem Misses.orElse_takes (hp : Misses line p (taken ++ rest)) (hq : Takes line q taken a rest) :
    Takes line (p <|> q) taken a rest := by
  intro offset reach
  obtain ⟨reach₁, h₁⟩ := hp offset reach
  obtain ⟨offset₂, reach₂, h₂⟩ := hq offset reach₁
  refine ⟨offset₂, reach₂, ?_⟩
  change Reader.orElse p (fun _ => q) _ _ = _
  rw [Reader.orElse, h₁]
  exact h₂

theorem Misses.orElse (hp : Misses line p text) (hq : Misses line q text) :
    Misses line (p <|> q) text := by
  intro offset reach
  obtain ⟨reach₁, h₁⟩ := hp offset reach
  obtain ⟨reach₂, h₂⟩ := hq offset reach₁
  refine ⟨reach₂, ?_⟩
  change Reader.orElse p (fun _ => q) _ _ = _
  rw [Reader.orElse, h₁]
  exact h₂

theorem Takes.construct (hp : Takes line p taken a rest) : Takes line (construct p) taken a rest := by
  intro offset reach
  obtain ⟨offset₁, reach₁, h⟩ := hp offset reach
  exact ⟨offset₁, reach₁, by rw [Reader.construct, h]⟩

theorem Misses.construct (hp : Misses line p text) : Misses line (construct p) text := by
  intro offset reach
  obtain ⟨reach₁, h⟩ := hp offset reach
  exact ⟨_, by rw [Reader.construct, h]⟩

theorem Takes.optional (hp : Takes line p taken a rest) :
    Takes line (optional p) taken (some a) rest := by
  intro offset reach
  obtain ⟨offset₁, reach₁, h⟩ := hp offset reach
  exact ⟨offset₁, reach₁, by rw [Reader.optional, h]⟩

theorem Misses.optional (hp : Misses line p rest) : Takes line (optional p) [] none rest := by
  intro offset reach
  obtain ⟨reach₁, h⟩ := hp offset reach
  exact ⟨offset, reach₁, by rw [Reader.optional, List.nil_append, h]⟩

theorem Misses.many (hp : Misses line p rest) : Takes line (many p) [] [] rest := by
  intro offset reach
  obtain ⟨reach₁, h⟩ := hp offset reach
  refine ⟨offset, reach₁, ?_⟩
  rw [Reader.many, List.nil_append, manyFrom, h]

theorem Takes.many_cons {as : List α} (hp : Takes line p first a (more ++ rest)) (hne : first ≠ [])
    (hmany : Takes line (many p) more as rest) :
    Takes line (many p) (first ++ more) (a :: as) rest := by
  intro offset reach
  obtain ⟨offset₁, reach₁, h₁⟩ := hp offset reach
  obtain ⟨offset₂, reach₂, h₂⟩ := hmany offset₁ reach₁
  refine ⟨offset₂, reach₂, ?_⟩
  have hshorter : (more ++ rest).length < (first ++ more ++ rest).length := by
    have hpos := List.length_pos_iff.mpr hne
    simp only [List.length_append]
    omega
  rw [Reader.many] at h₂ ⊢
  rw [manyFrom, List.append_assoc, h₁]
  simp only [← List.append_assoc, hshorter, if_true]
  simp only [Prod.mk.injEq, Option.some.injEq] at h₂
  rw [h₂.1.1, h₂.1.2, h₂.2]

/-- A reader is run over a row of items if it takes each of them in front of what may follow. -/
theorem takes_many {ι : Type} {chars : ι → List Char} {value : ι → α} (Follows : List Char → Prop)
    {items : List ι} (hne : ∀ i ∈ items, chars i ≠ [])
    (hfollows : ∀ i ∈ items, ∀ text, Follows text → Follows (chars i ++ text))
    (htakes : ∀ i ∈ items, ∀ text, Follows text → Takes line p (chars i) (value i) text)
    (hrest : Follows rest) (hend : Misses line p rest) :
    Follows (items.flatMap chars ++ rest) ∧
      Takes line (many p) (items.flatMap chars) (items.map value) rest := by
  induction items with
  | nil => exact ⟨hrest, hend.many⟩
  | cons i items ih =>
    obtain ⟨hi, hne⟩ := List.forall_mem_cons.mp hne
    obtain ⟨hfi, hfollows⟩ := List.forall_mem_cons.mp hfollows
    obtain ⟨hti, htakes⟩ := List.forall_mem_cons.mp htakes
    obtain ⟨hf, ht⟩ := ih hne hfollows htakes
    rw [List.flatMap_cons, List.append_assoc]
    exact ⟨hfi _ hf, (hti _ hf).many_cons hi ht⟩

theorem takes_lineNumber (rest : List Char) : Takes line lineNumber [] line rest :=
  fun offset reach => ⟨offset, reach, rfl⟩

theorem takes_endOfText : Takes line endOfText [] () [] :=
  fun offset reach => ⟨offset, reach, rfl⟩

theorem behind_append (literal rest : List Char) : behind literal (literal ++ rest) = some rest := by
  induction literal with
  | nil => rfl
  | cons a literal ih => rw [List.cons_append, behind, if_pos rfl, ih]

theorem takes_literal (s : String) (rest : List Char) :
    Takes line (literal s) s.toList () rest := by
  intro offset reach
  exact ⟨_, reach, by rw [literal, behind_append]⟩

theorem misses_literal {s : String} (h : behind s.toList text = none) :
    Misses line (literal s) text := by
  intro offset reach
  exact ⟨reach, by rw [literal, h]⟩

theorem takes_absent {s : String} (h : behind s.toList rest = none) :
    Takes line (absent s) [] () rest := by
  intro offset reach
  exact ⟨offset, reach, by rw [absent, List.nil_append, h]⟩

theorem takes_run {ofClass : Char → Bool} (htaken : ∀ c ∈ taken, ofClass c = true)
    (hrest : ∀ c ∈ rest.head?, ofClass c = false) : Takes line (run ofClass) taken taken rest := by
  intro offset reach
  have htake : (taken ++ rest).takeWhile ofClass = taken := by
    rw [List.takeWhile_append_of_pos htaken]
    cases rest with
    | nil => simp
    | cons c rest => simp [hrest c rfl]
  have hdrop : (taken ++ rest).dropWhile ofClass = rest := by
    rw [List.dropWhile_append_of_pos htaken]
    cases rest with
    | nil => rfl
    | cons c rest => simp [hrest c rfl]
  exact ⟨_, reach, by rw [run, htake, hdrop]⟩

theorem takes_nonemptyRun {ofClass : Char → Bool} (hne : taken ≠ [])
    (htaken : ∀ c ∈ taken, ofClass c = true) (hrest : ∀ c ∈ rest.head?, ofClass c = false) :
    Takes line (nonemptyRun ofClass) taken taken rest := by
  refine (takes_run htaken hrest).after ?_
  cases taken with
  | nil => exact absurd rfl hne
  | cons c taken => exact takes_pure _ rest

theorem takes_gap_nil : Takes line gap [] () [] :=
  fun offset reach => ⟨offset, reach, rfl⟩

/-- In front of anything but space there is nothing to skip. -/
theorem takes_gap {c : Char} (hc : c ≠ ' ' ∧ c ≠ '\t' ∧ c ≠ '#') (text : List Char) :
    Takes line gap [] () (c :: text) := by
  intro offset reach
  exact ⟨offset, reach, by simp [gap, skipped, hc]⟩

theorem takes_gap_blank {c : Char} (hc : c ≠ ' ' ∧ c ≠ '\t' ∧ c ≠ '#') (text : List Char) :
    Takes line gap [' '] () (c :: text) := by
  intro offset reach
  exact ⟨offset + 1, reach, by simp [gap, skipped, hc]⟩

/-- The text is over, or a character of the class follows, perhaps behind a blank. -/
inductive Ends (ofClass : Char → Bool) : List Char → Prop
  | nil : Ends ofClass []
  | here {c : Char} (hc : ofClass c = true) (text : List Char) : Ends ofClass (c :: text)
  | blank {c : Char} (hc : ofClass c = true) (text : List Char) : Ends ofClass (' ' :: c :: text)

theorem Ends.mono {ofClass ofLarger : Char → Bool} (h : Ends ofClass text)
    (hclass : ∀ c, ofClass c = true → ofLarger c = true) : Ends ofLarger text := by
  cases h with
  | nil => exact .nil
  | here hc text => exact .here (hclass _ hc) text
  | blank hc text => exact .blank (hclass _ hc) text

/-- Behind the blank a reader that accepts no character of the class misses. -/
theorem Ends.misses_gap {ofClass : Char → Bool} {f : Unit → Reader β} (h : Ends ofClass text)
    (hspace : ∀ c, ofClass c = true → c ≠ ' ' ∧ c ≠ '\t' ∧ c ≠ '#')
    (hnil : Misses line (f ()) [])
    (hmiss : ∀ c text, ofClass c = true → Misses line (f ()) (c :: text)) :
    Misses line (gap >>= f) text := by
  cases h with
  | nil => exact Takes.misses (t := []) takes_gap_nil hnil
  | here hc text => exact Takes.misses (t := []) (takes_gap (hspace _ hc) text) (hmiss _ _ hc)
  | blank hc text =>
    exact Takes.misses (t := [' ']) (takes_gap_blank (hspace _ hc) text) (hmiss _ _ hc)

/-- Nor does a literal follow that begins with another character. -/
theorem Ends.misses_gap_literal {ofClass : Char → Bool} {f : Unit → Reader β}
    (h : Ends ofClass text) (hspace : ∀ c, ofClass c = true → c ≠ ' ' ∧ c ≠ '\t' ∧ c ≠ '#')
    {s : String} {d : Char} {tail : List Char} (hs : s.toList = d :: tail)
    (hd : ofClass d = false) : Misses line (gap >>= fun _ => literal s >>= f) text := by
  refine h.misses_gap hspace (Misses.bind (misses_literal (by rw [hs]; rfl))) fun c text hc => ?_
  have hne : d ≠ c := by
    rintro rfl
    rw [hc] at hd
    exact absurd hd (by decide)
  exact (misses_literal (by rw [hs]; exact if_neg hne)).bind

theorem eq_append_of_behind {literal : List Char} (h : behind literal text = some rest) :
    text = literal ++ rest := by
  induction literal generalizing text with
  | nil => exact Option.some.inj h
  | cons a literal ih =>
    cases text with
    | nil => cases h
    | cons b text =>
      rw [behind] at h
      split at h
      · next hab => rw [List.cons_append, hab, ih h]
      · cases h

/-- A blank more is skipped. -/
theorem Takes.gap_cons (h : Takes line gap taken () rest) :
    Takes line gap (' ' :: taken) () rest := by
  intro offset reach
  obtain ⟨offset', reach', h⟩ := h offset reach
  have hskip : skipped false (' ' :: (taken ++ rest)) =
      ((skipped false (taken ++ rest)).1, (skipped false (taken ++ rest)).2 + 1) := rfl
  simp only [gap, Prod.mk.injEq, Option.some.injEq, Cursor.mk.injEq] at h
  refine ⟨offset + ((skipped false (taken ++ rest)).2 + 1), reach, ?_⟩
  rw [gap, List.cons_append, hskip]
  simp only [h.1.2.1]

/-- A whole text is read if the reader takes all of it. -/
theorem readAll_eq_ok {text : String} (h : Takes 1 p text.toList a []) :
    readAll p text = .ok a := by
  obtain ⟨offset, reach, h⟩ := h 0 Reach.start
  rw [List.append_nil] at h
  rw [readAll, Cursor.start, h]

end ProbLoop.Source.Reader
