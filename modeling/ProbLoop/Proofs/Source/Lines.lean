import Mathlib.Data.List.Forall2
import ProbLoop.Proofs.Source.Reading
import ProbLoop.Source.Grammar

/-!
# What readers find on several lines

Over several lines what a reader finds depends on the line at which it starts, since phrases keep the
lines of their faults. What is known of it, on whatever line, is a property. Where nothing is known of
the text in front of a reader, something may still be known of what it finds.
-/

set_option autoImplicit false

namespace ProbLoop.Source.Reader

variable {α β ι : Type} {p q : Reader α} {f : α → Reader β} {a : α} {R R' : α → Prop} {S : β → Prop}
  {s t taken rest text : List Char}

/-- In front of the text `taken ++ rest`, on whatever line, the reader takes `taken` and finds
something with a property. -/
def Reads (p : Reader α) (taken : List Char) (R : α → Prop) (rest : List Char) : Prop :=
  ∀ line offset reach, ∃ a line' offset' reach',
    p ⟨taken ++ rest, offset, line⟩ reach = (some (a, ⟨rest, offset', line'⟩), reach') ∧ R a

theorem Takes.reads {v : Nat → α} (h : ∀ line, Takes line p taken (v line) rest)
    (hR : ∀ line, R (v line)) : Reads p taken R rest := by
  intro line offset reach
  obtain ⟨offset', reach', h⟩ := h line offset reach
  exact ⟨_, _, _, _, h, hR line⟩

theorem Reads.mono (h : Reads p taken R rest) (hR : ∀ a, R a → R' a) : Reads p taken R' rest := by
  intro line offset reach
  obtain ⟨a, line', offset', reach', h, ha⟩ := h line offset reach
  exact ⟨a, line', offset', reach', h, hR a ha⟩

theorem reads_pure (ha : R a) (rest : List Char) : Reads (pure a) [] R rest :=
  fun line offset reach => ⟨a, line, offset, reach, rfl, ha⟩

theorem Reads.bind (hp : Reads p s R (t ++ rest)) (hf : ∀ a, R a → Reads (f a) t S rest) :
    Reads (p >>= f) (s ++ t) S rest := by
  intro line offset reach
  obtain ⟨a, line₁, offset₁, reach₁, h₁, ha⟩ := hp line offset reach
  obtain ⟨b, line₂, offset₂, reach₂, h₂, hb⟩ := hf a ha line₁ offset₁ reach₁
  refine ⟨b, line₂, offset₂, reach₂, ?_, hb⟩
  change andThen p f _ _ = _
  rw [List.append_assoc, andThen, h₁]
  exact h₂

/-- The last reader may take nothing. -/
theorem Reads.after (hp : Reads p taken R rest) (hf : ∀ a, R a → Reads (f a) [] S rest) :
    Reads (p >>= f) taken S rest := by
  have h := Reads.bind (t := []) hp hf
  rwa [List.append_nil] at h

/-- What stands in front of the text of the next reader is the same on all lines. -/
theorem Takes.then_reads (hp : ∀ line, Takes line p s a (t ++ rest)) (hf : Reads (f a) t S rest) :
    Reads (p >>= f) (s ++ t) S rest :=
  Reads.bind (R := (· = a)) (Takes.reads (v := fun _ => a) hp fun _ => rfl)
    fun b hb => by rwa [hb]

/-- A reader that takes nothing leaves the text to the next one. -/
theorem Takes.before_reads (hp : ∀ line, Takes line p [] a (taken ++ rest))
    (hf : Reads (f a) taken S rest) : Reads (p >>= f) taken S rest :=
  Takes.then_reads hp hf

theorem reads_lineNumber {f : Nat → Reader β} (hf : ∀ line, Reads (f line) taken S rest) :
    Reads (lineNumber >>= f) taken S rest := fun line => hf line line

theorem Reads.construct (hp : Reads p taken R rest) : Reads (construct p) taken R rest := by
  intro line offset reach
  obtain ⟨a, line₁, offset₁, reach₁, h, ha⟩ := hp line offset reach
  exact ⟨a, line₁, offset₁, reach₁, by rw [Reader.construct, h], ha⟩

theorem Reads.orElse (hp : Reads p taken R rest) : Reads (p <|> q) taken R rest := by
  intro line offset reach
  obtain ⟨a, line₁, offset₁, reach₁, h, ha⟩ := hp line offset reach
  refine ⟨a, line₁, offset₁, reach₁, ?_, ha⟩
  change Reader.orElse p (fun _ => q) _ _ = _
  rw [Reader.orElse, h]

theorem Misses.orElse_reads (hp : ∀ line, Misses line p (taken ++ rest))
    (hq : Reads q taken R rest) : Reads (p <|> q) taken R rest := by
  intro line offset reach
  obtain ⟨reach₁, h₁⟩ := hp line offset reach
  obtain ⟨a, line₂, offset₂, reach₂, h₂, ha⟩ := hq line offset reach₁
  refine ⟨a, line₂, offset₂, reach₂, ?_, ha⟩
  change Reader.orElse p (fun _ => q) _ _ = _
  rw [Reader.orElse, h₁]
  exact h₂

theorem Reads.optional (hp : Reads p taken R rest) :
    Reads (optional p) taken (fun o => ∃ a, o = some a ∧ R a) rest := by
  intro line offset reach
  obtain ⟨a, line₁, offset₁, reach₁, h, ha⟩ := hp line offset reach
  exact ⟨some a, line₁, offset₁, reach₁, by rw [Reader.optional, h], a, rfl, ha⟩

theorem Reads.many_cons {R : List α → Prop} {S : α → Prop} {R' : List α → Prop} (hs : s ≠ [])
    (hp : Reads p s S (t ++ rest)) (hmany : Reads (many p) t R rest)
    (h : ∀ a as, S a → R as → R' (a :: as)) : Reads (many p) (s ++ t) R' rest := by
  intro line offset reach
  obtain ⟨a, line₁, offset₁, reach₁, h₁, ha⟩ := hp line offset reach
  obtain ⟨as, line₂, offset₂, reach₂, h₂, has⟩ := hmany line₁ offset₁ reach₁
  refine ⟨a :: as, line₂, offset₂, reach₂, ?_, h a as ha has⟩
  have hshorter : (t ++ rest).length < (s ++ t ++ rest).length := by
    have hpos := List.length_pos_iff.mpr hs
    simp only [List.length_append]
    omega
  rw [Reader.many] at h₂ ⊢
  rw [manyFrom, List.append_assoc, h₁]
  simp only [← List.append_assoc, hshorter, if_true]
  simp only [Prod.mk.injEq, Option.some.injEq] at h₂
  rw [h₂.1.1, h₂.1.2, h₂.2]

/-- A reader is run over a row of items if it reads each of them in front of what may follow. -/
theorem reads_many {chars : ι → List Char} {R : ι → α → Prop} (Follows : List Char → Prop)
    (items : List ι) (hne : ∀ i ∈ items, chars i ≠ [])
    (hfollows : ∀ i ∈ items, ∀ text, Follows text → Follows (chars i ++ text))
    (hreads : ∀ i ∈ items, ∀ text, Follows text → Reads p (chars i) (R i) text)
    (hrest : Follows rest) (hend : ∀ line, Misses line p rest) :
    Follows (items.flatMap chars ++ rest) ∧
      Reads (many p) (items.flatMap chars) (List.Forall₂ R items) rest := by
  induction items with
  | nil => exact ⟨hrest, Takes.reads (fun line => (hend line).many) fun _ => .nil⟩
  | cons i items ih =>
    obtain ⟨hi, hne⟩ := List.forall_mem_cons.mp hne
    obtain ⟨hfi, hfollows⟩ := List.forall_mem_cons.mp hfollows
    obtain ⟨hri, hreads⟩ := List.forall_mem_cons.mp hreads
    obtain ⟨hf, hr⟩ := ih hne hfollows hreads
    rw [List.flatMap_cons, List.append_assoc]
    exact ⟨hfi _ hf, (hri _ hf).many_cons hi hr fun _ _ ha has => .cons ha has⟩

theorem reads_lineBreak (rest : List Char) : Reads lineBreak ['\n'] (fun _ => True) rest :=
  fun line offset reach => ⟨(), line + 1, offset + 1, reach, rfl, trivial⟩

theorem Reads.located (hp : Reads p taken R rest) :
    Reads (located p) taken (fun l => R l.value) rest :=
  reads_lineNumber fun line => hp.after fun a ha =>
    reads_pure (a := (⟨line, a⟩ : Located α)) ha rest

/-- A whole text is read if the reader takes all of it. -/
theorem Reads.readAll {text : String} (h : Reads p text.toList R []) :
    ∃ a, readAll p text = .ok a ∧ R a := by
  obtain ⟨a, line, offset, reach, h, ha⟩ := h 1 0 Reach.start
  rw [List.append_nil] at h
  exact ⟨a, by rw [Reader.readAll, Cursor.start, h], ha⟩

/-! ### What is known of everything that a reader finds -/

/-- Whatever the reader finds has the property. -/
def Yields (p : Reader α) (R : α → Prop) : Prop :=
  ∀ c reach a c' reach', p c reach = (some (a, c'), reach') → R a

theorem yields_any (p : Reader α) : Yields p fun _ => True := fun _ _ _ _ _ _ => trivial

theorem yields_pure (ha : R a) : Yields (pure a) R := by
  rintro c reach b c' reach' ⟨⟩
  exact ha

theorem yields_reject : Yields (reject : Reader α) R := by
  rintro c reach a c' reach' ⟨⟩

theorem Yields.bind (hp : Yields p R) (hf : ∀ a, R a → Yields (f a) S) : Yields (p >>= f) S := by
  intro c reach b c' reach' h
  change andThen p f c reach = _ at h
  rw [andThen] at h
  split at h
  · cases h
  · next a c₁ reach₁ h₁ => exact hf a (hp _ _ _ _ _ h₁) _ _ _ _ _ h

/-- What the first reader finds does not matter. -/
theorem Yields.skip (hf : ∀ a, Yields (f a) S) : Yields (p >>= f) S :=
  (yields_any p).bind fun a _ => hf a

theorem Yields.construct (hp : Yields p R) : Yields (construct p) R := by
  intro c reach a c' reach' h
  rw [Reader.construct] at h
  split at h
  · cases h
  · exact hp _ _ _ _ _ h

theorem Yields.optional (hp : Yields p R) : Yields (optional p) fun o => ∀ a ∈ o, R a := by
  intro c reach o c' reach' h a ha
  rw [Reader.optional] at h
  split at h
  · cases h
    cases ha
  · next b c₁ reach₁ h₁ =>
    cases h
    obtain rfl := Option.some.inj ha
    exact hp _ _ _ _ _ h₁

theorem Yields.manyFrom (hp : Yields p R) (c : Cursor) (reach : Reach) :
    ∀ a ∈ (manyFrom p c reach).1, R a := by
  induction c, reach using manyFrom.induct p with
  | case1 c reach reach' h =>
    rw [Reader.manyFrom, h]
    simp
  | case2 c reach a c' reach' h hshorter _ _ _ _ ih =>
    rw [Reader.manyFrom, h]
    simp only [hshorter, if_true]
    exact List.forall_mem_cons.mpr ⟨hp _ _ _ _ _ h, ih⟩
  | case3 c reach a c' reach' h hlonger =>
    rw [Reader.manyFrom, h]
    simp only [hlonger, if_false]
    exact List.forall_mem_cons.mpr ⟨hp _ _ _ _ _ h, by simp⟩

theorem Yields.many (hp : Yields p R) : Yields (many p) fun as => ∀ a ∈ as, R a := by
  intro c reach as c' reach' h
  rw [Reader.many] at h
  have has : (Reader.manyFrom p c reach).1 = as := by
    cases h
    rfl
  exact has ▸ hp.manyFrom c reach

theorem yields_run (ofClass : Char → Bool) :
    Yields (run ofClass) fun taken => ∀ c ∈ taken, ofClass c = true := by
  rintro c reach taken c' reach' ⟨⟩
  exact fun d hd => List.mem_takeWhile_imp hd

theorem readAll_eq_ok_iff {text : String} :
    readAll p text = .ok a ↔ ∃ c reach, p (Cursor.start text) Reach.start = (some (a, c), reach) := by
  rw [readAll]
  split <;> simp_all

theorem Yields.readAll (hp : Yields p R) {text : String} (h : readAll p text = .ok a) : R a := by
  obtain ⟨c, reach, h⟩ := readAll_eq_ok_iff.mp h
  exact hp _ _ _ _ _ h

end ProbLoop.Source.Reader
