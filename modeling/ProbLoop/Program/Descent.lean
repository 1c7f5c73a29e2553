import ProbLoop.Program.Basic

/-!
# Descent through the monomials of a program

Moments and bounds of a monomial are computed from those of other monomials. The exponents of the
variables, the last updated one first, decrease lexicographically on the way, because a variable
occurs in its own update at most linearly and otherwise only with variables updated before it.
-/

set_option autoImplicit false

namespace ProbLoop

/-- Lexicographic order of lists of one length. -/
def LexLt : List Nat → List Nat → Prop
  | a :: as, b :: bs => (a < b ∧ as.length = bs.length) ∨ (a = b ∧ LexLt as bs)
  | _, _ => False

instance LexLt.decide : ∀ as bs : List Nat, Decidable (LexLt as bs)
  | [], _ => .isFalse (by simp [LexLt])
  | _ :: _, [] => .isFalse (by simp [LexLt])
  | a :: as, b :: bs =>
    have := LexLt.decide as bs
    inferInstanceAs (Decidable ((a < b ∧ as.length = bs.length) ∨ (a = b ∧ LexLt as bs)))

theorem LexLt.length_eq : ∀ {as bs : List Nat}, LexLt as bs → as.length = bs.length
  | [], _, h => by simp [LexLt] at h
  | _ :: _, [], h => by simp [LexLt] at h
  | _ :: as, _ :: bs, h => by
    rcases h with ⟨_, hlen⟩ | ⟨_, hlex⟩
    · simp [hlen]
    · simp [LexLt.length_eq hlex]

theorem LexLt.acc_cons (n : Nat) (shorter : ∀ as : List Nat, as.length = n → Acc LexLt as)
    (b : Nat) : ∀ bs : List Nat, bs.length = n → Acc LexLt (b :: bs) := by
  induction b using Nat.strongRecOn with
  | ind b ihb =>
    intro bs hbs
    induction shorter bs hbs with
    | intro bs _ ih =>
      refine Acc.intro _ fun y hy => ?_
      cases y with
      | nil => exact (by simp [LexLt] at hy)
      | cons a as =>
        rcases hy with ⟨hlt, hlen⟩ | ⟨heq, hlex⟩
        · exact ihb a hlt as (hlen.trans hbs)
        · subst heq
          exact ih as hlex (by rw [LexLt.length_eq hlex, hbs])

theorem LexLt.wf : WellFounded LexLt := by
  refine ⟨fun bs => ?_⟩
  generalize hn : bs.length = n
  induction n generalizing bs with
  | zero =>
    refine Acc.intro _ fun y hy => ?_
    cases bs with
    | nil => cases y <;> simp [LexLt] at hy
    | cons b bs => simp at hn
  | succ n ih =>
    cases bs with
    | nil => simp at hn
    | cons b bs => exact LexLt.acc_cons n (fun as has => ih as has) b bs (by simpa using hn)

/-- The place of a monomial in the descent. -/
structure Rank where
  exponents : List Nat
  deriving DecidableEq, Repr

def Rank.Below (a b : Rank) : Prop := LexLt a.exponents b.exponents

instance (a b : Rank) : Decidable (a.Below b) :=
  inferInstanceAs (Decidable (LexLt a.exponents b.exponents))

instance : WellFoundedRelation Rank := ⟨Rank.Below, InvImage.wf Rank.exponents LexLt.wf⟩

/-- Holds of a monomial in program variables alone. -/
def Monomial.isPlain (m : Monomial) : Bool :=
  m.base == 1 && m.symbols.all Symbol.isVar

/-- The exponents of the variables, the last updated one first. A factor that is not a power of a
variable counts last. -/
def Program.rank (p : Program) (m : Monomial) : Rank :=
  ⟨p.vars.reverse.map m.powerOf ++ [if m.isPlain then 0 else 1]⟩

end ProbLoop
