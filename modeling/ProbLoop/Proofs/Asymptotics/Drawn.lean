import ProbLoop.Proofs.Advances
import ProbLoop.Proofs.Expr.Uses

/-!
# Constants that have been drawn

The name of a drawn constant is a letter and the number of constants drawn before, so no constant is drawn
twice. Which symbols may be used depends on what has been drawn: splitting and folding expressions in the
symbols of one state of the supply leads to expressions in the symbols of a later one.
-/

set_option autoImplicit false

namespace ProbLoop

/-- A symbol that is not drawn: the counter, a variable, or a constant of unknown sign. -/
def Symbol.Given (s : Symbol) : Prop := s.isPositive = false

theorem Symbol.given_counter : counter.Given := rfl

theorem Symbol.given_real (name : String) : (real name).Given := rfl

theorem Symbol.given_of_isVar {s : Symbol} (h : s.isVar = true) : s.Given := by
  cases s <;> first | rfl | cases h

namespace Supply

/-- No constants are taken back. -/
def Later (s s' : Supply) : Prop := s.next ≤ s'.next

theorem Later.refl (s : Supply) : s.Later s := le_refl s.next

theorem Later.trans {s s' s'' : Supply} (h : s.Later s') (h' : s'.Later s'') : s.Later s'' :=
  Nat.le_trans h h'

theorem later_draw (s : Supply) : s.Later ⟨s.next + 1⟩ := Nat.le_succ _

theorem progress_later : Progress Later :=
  ⟨fun {_ s'} _ => .refl s', fun h h' => h.trans h'⟩

/-- A constant that is drawn between two states of the supply. Its name is one letter and the number of
constants drawn before it. -/
def Draws (first last : Supply) (c : Symbol) : Prop :=
  ∃ (letter : Char) (k : Nat), first.next ≤ k ∧ k < last.next ∧
    c = .positive (String.singleton letter ++ toString k)

variable {first last first' last' : Supply} {c : Symbol}

theorem draws_next (letter : Char) (supply : Supply) :
    supply.Draws ⟨supply.next + 1⟩ (.positive (String.singleton letter ++ toString supply.next)) :=
  ⟨letter, supply.next, le_rfl, Nat.lt_succ_self _, rfl⟩

theorem Draws.mono (h : first.Draws last c) (hfirst : first'.Later first) (hlast : last.Later last') :
    first'.Draws last' c := by
  obtain ⟨letter, k, hk, hk', rfl⟩ := h
  exact ⟨letter, k, hfirst.trans hk, hk'.trans_le hlast, rfl⟩

theorem Draws.isPositive (h : first.Draws last c) : c.isPositive = true := by
  obtain ⟨letter, k, -, -, rfl⟩ := h
  rfl

/-- A constant that has been drawn is not drawn again. -/
theorem Draws.not_draws (h : first.Draws last c) (hlater : last.Later first') :
    ¬first'.Draws last' c := by
  obtain ⟨letter, k, -, hk, rfl⟩ := h
  rintro ⟨letter', k', hk', -, heq⟩
  have hlist := congrArg String.toList (Symbol.positive.inj heq)
  simp only [String.toList_append, String.toList_singleton, List.singleton_append, List.cons.injEq,
    String.toList_inj] at hlist
  have hsame : k = k' := Nat.repr_injective hlist.2
  exact absurd (hk.trans_le (hlater.trans hk')) (hsame ▸ lt_irrefl _)

/-- A symbol that is not drawn from now on. -/
def Settled (s : Supply) (c : Symbol) : Prop := ∀ last, ¬s.Draws last c

end Supply

/-- Which symbols may be used at a state of the supply: those that are not drawn and those that have been
drawn, and whatever may be used at an earlier state. -/
structure Vocabulary (P : Supply → Symbol → Prop) : Prop where
  given : ∀ {s : Supply} {c : Symbol}, c.Given → P s c
  mono : ∀ {s s' : Supply} {c : Symbol}, s.Later s' → P s c → P s' c
  drawn : ∀ {first last : Supply} {c : Symbol}, first.Draws last c → P last c

theorem vocabulary_all : Vocabulary fun _ _ => True :=
  ⟨fun _ => trivial, fun _ _ => trivial, fun _ => trivial⟩

theorem vocabulary_settled : Vocabulary Supply.Settled where
  given hc last h := by simp [Symbol.Given, h.isPositive] at hc
  mono hlater h last hdraws := h last (hdraws.mono hlater (.refl last))
  drawn h last := h.not_draws (.refl _)

namespace Expr

variable {P : Supply → Symbol → Prop} {s : Supply} {e : Expr}

theorem Uses.later (hP : Vocabulary P) {s' : Supply} (he : e.Uses (P s)) (hlater : s.Later s') :
    e.Uses (P s') :=
  he.mono fun _ => hP.mono hlater

variable (hP : Vocabulary P) {H : Prop}
include hP

theorem advances_draw (letter : Char) (s : Supply) :
    (liftM (Supply.draw (String.singleton letter)) : Attempt Supply Symbol).Advances Supply.Later s P :=
  Attempt.advances_lift s.later_draw (hP.drawn (Supply.draws_next letter s))

/-- No constants are taken back, whatever the expression is; what is said of its symbols is said under a
hypothesis. -/
theorem advances_canonicalize (he : H → e.Uses (P s)) :
    (liftM e.canonicalize : Attempt Supply Expr).Advances Supply.Later s fun s' r =>
      H → r.Uses (P s') := by
  unfold canonicalize
  split
  · exact Attempt.advances_lift (.refl s) he
  · split
    · exact Attempt.advances_lift (.refl s) he
    · next make hmake =>
      exact Attempt.advances_lift s.later_draw fun _ =>
        Uses.canonicalOf? (hP.given Symbol.given_counter) hmake (hP.drawn (Supply.draws_next 'c' s))

theorem advances_eventualBound (direction : Direction) {fs : List Expr}
    (h : H → ∀ f ∈ fs, f.Uses (P s)) :
    (eventualBound direction fs).Advances Supply.Later s fun s' r => H → r.Uses (P s') := by
  cases fs with
  | nil => exact Attempt.advances_throw (.refl s) _
  | cons f fs =>
    refine advances_canonicalize hP fun hH => ?_
    obtain ⟨hf, hfs⟩ := List.forall_mem_cons.mp (h hH)
    rcases dominantOf_mem direction f fs with heq | hmem
    · rw [heq]
      exact hf
    · exact hfs _ hmem

theorem advances_splitSign (he : H → e.Uses (P s)) :
    e.splitSign.Advances Supply.Later s fun s' fs => H → ∀ f ∈ fs, f.Uses (P s') := by
  unfold splitSign
  split
  · next c hlimit =>
    split
    · exact Attempt.advances_throw (.refl s) _
    · next x hx =>
      apply (advances_draw hP 'e' s).bind Supply.progress_later
      intro positive s' hlater hpositive
      refine Attempt.advances_pure (.refl s') fun hH => ?_
      have hcandidate : ∀ target : Expr, target.Uses (P s') → (e.solveFor x target).Uses (P s') :=
        fun target htarget => ((he hH).later hP hlater).solveFor
          (((he hH).of_limit_signedInf hlimit).later hP hlater) hx htarget
      exact List.forall_mem_cons.mpr ⟨hcandidate _ (uses_ofSymbol hpositive).neg,
        List.forall_mem_singleton.mpr (hcandidate _ (uses_ofSymbol hpositive))⟩
  · exact Attempt.advances_pure (.refl s) fun hH => List.forall_mem_singleton.mpr (he hH)

/-- Splitting and folding a bound. -/
theorem advances_splitBound (direction : Direction) (he : H → e.Uses (P s)) :
    (do eventualBound direction (← e.splitSign) : Attempt Supply Expr).Advances Supply.Later s
      fun s' r => H → r.Uses (P s') :=
  (advances_splitSign hP he).bind Supply.progress_later fun _ _ _ hfs =>
    advances_eventualBound hP direction hfs

end Expr

end ProbLoop
