import ProbLoop.Program.Descent
import ProbLoop.Proofs.Expr.Powers

/-!
# Descent in the powers of variables

A list of exponents that is lexicographically smaller stays so when both lists go on. Replacing the
power of a variable by powers of the same degree, over variables that come later, goes down or leaves
the monomial as it is.
-/

set_option autoImplicit false

namespace ProbLoop

namespace LexLt

theorem append_right {as bs cs ds : List Nat} (h : LexLt as bs) (hl : cs.length = ds.length) :
    LexLt (as ++ cs) (bs ++ ds) := by
  induction as generalizing bs with
  | nil => exact absurd h (by simp [LexLt])
  | cons a as ih =>
    cases bs with
    | nil => exact absurd h (by simp [LexLt])
    | cons b bs =>
      rcases h with ⟨hab, hlen⟩ | ⟨hab, h⟩
      · exact Or.inl ⟨hab, by simp [hlen, hl]⟩
      · exact Or.inr ⟨hab, ih h⟩

theorem append_left (as : List Nat) {cs ds : List Nat} (h : LexLt cs ds) :
    LexLt (as ++ cs) (as ++ ds) := by
  induction as with
  | nil => exact h
  | cons a as ih => exact Or.inr ⟨rfl, ih⟩

theorem singleton {j k : Nat} (h : j < k) : LexLt [j] [k] := Or.inl ⟨h, rfl⟩

theorem irrefl (as : List Nat) : ¬LexLt as as := by
  induction as with
  | nil => simp [LexLt]
  | cons a as ih =>
    rintro (⟨h, -⟩ | ⟨-, h⟩)
    · exact lt_irrefl a h
    · exact ih h

theorem trans {as bs cs : List Nat} (h : LexLt as bs) (h' : LexLt bs cs) : LexLt as cs := by
  induction as generalizing bs cs with
  | nil => exact absurd h (by simp [LexLt])
  | cons a as ih =>
    cases bs with
    | nil => exact absurd h (by simp [LexLt])
    | cons b bs =>
      cases cs with
      | nil => exact absurd h' (by simp [LexLt])
      | cons c cs =>
        have hlen := h.length_eq
        have hlen' := h'.length_eq
        simp only [List.length_cons, Nat.add_right_cancel_iff] at hlen hlen'
        rcases h with ⟨hab, -⟩ | ⟨rfl, h⟩
        · rcases h' with ⟨hbc, -⟩ | ⟨rfl, -⟩
          · exact Or.inl ⟨hab.trans hbc, hlen.trans hlen'⟩
          · exact Or.inl ⟨hab, hlen.trans hlen'⟩
        · rcases h' with ⟨hbc, -⟩ | ⟨rfl, h'⟩
          · exact Or.inl ⟨hbc, hlen.trans hlen'⟩
          · exact Or.inr ⟨rfl, ih h h'⟩

end LexLt

namespace Rank

theorem below_wf : WellFounded Below := InvImage.wf exponents LexLt.wf

theorem below_trans {a b c : Rank} (h : a.Below b) (h' : b.Below c) : a.Below c :=
  LexLt.trans h h'

theorem below_irrefl (a : Rank) : ¬a.Below a := LexLt.irrefl a.exponents

end Rank

namespace Monomial

/-- A monomial that comes no later than `m` in the descent, as far as the given symbols tell. -/
def DescendsTo (k : Monomial) (ss : List Symbol) (m : Monomial) : Prop :=
  k = m ∨ LexLt (ss.map k.powerOf) (ss.map m.powerOf)

/-- The monomials of a `k`-th power: the power of the variable itself, or less of it. -/
def PowerBelow (s : Symbol) (k : Nat) (m : Monomial) : Prop :=
  m.Canonical ∧ (m = ofSymbol s k ∨ m.powerOf s < k)

theorem PowerBelow.mul {s : Symbol} {i j : Nat} {a b : Monomial} (ha : a.PowerBelow s i)
    (hb : b.PowerBelow s j) : (a * b).PowerBelow s (i + j) := by
  refine ⟨ha.1.mul hb.1, ?_⟩
  have hp := powerOf_mul ha.1 hb.1 s
  rcases ha.2 with hi | hi
  · rcases hb.2 with hj | hj
    · left
      rw [hi, hj, ofSymbol_mul]
    · right
      rw [hi, powerOf_ofSymbol] at hp
      rw [hi]
      omega
  · right
    rcases hb.2 with hj | hj
    · rw [hj, powerOf_ofSymbol] at hp
      rw [hj]
      omega
    · omega

section DescendsTo

variable {ss : List Symbol} {m k : Monomial}

theorem DescendsTo.keep (h : k.DescendsTo ss m) (s : Symbol) : k.DescendsTo (ss ++ [s]) m := by
  rcases h with rfl | h
  · exact Or.inl rfl
  · right
    rw [List.map_append, List.map_append]
    exact h.append_right rfl

/-- Replacing the power of a symbol by monomials of that power, over symbols that come later. -/
theorem DescendsTo.step (h : k.DescendsTo ss m) (hk : k.Canonical) {s : Symbol} {q : Monomial}
    (hq : q.PowerBelow s (k.powerOf s)) (hs : ∀ t ∈ ss, q.powerOf t = 0 ∧ t ≠ s) :
    (k.without s * q).DescendsTo (ss ++ [s]) m := by
  have hmul := powerOf_mul (hk.without s) hq.1
  have hsame : ss.map (k.without s * q).powerOf = ss.map k.powerOf := by
    apply List.map_congr_left
    intro t ht
    rw [hmul, (hs t ht).1, powerOf_without k (hs t ht).2, add_zero]
  rcases h with rfl | h
  · rcases hq.2 with rfl | hlt
    · left
      exact without_mul_ofSymbol hk s
    · right
      rw [List.map_append, List.map_append, hsame]
      apply LexLt.append_left
      apply LexLt.singleton
      rw [hmul, powerOf_without_self, zero_add]
      exact hlt
  · right
    rw [List.map_append, List.map_append, hsame]
    exact h.append_right rfl

end DescendsTo

end Monomial

end ProbLoop
