import Mathlib.Data.List.Forall2
import ProbLoop.Proofs.Memo

/-!
# What computations ensure

A computation that may fail keeps an invariant of its state whether or not it fails, and an answer of
it has a property. Computations are put together from others, and so are these statements.
-/

set_option autoImplicit false

namespace ProbLoop

variable {σ τ α β κ ν : Type}

/-- The computation keeps the invariant, and every answer has the property. -/
def Attempt.Ensures (I : σ → Prop) (x : Attempt σ α) (P : α → Prop) : Prop :=
  ∀ s, I s → I (x.run.run s).2 ∧ ∀ a, (x.run.run s).1 = .ok a → P a

namespace Attempt

variable {I : σ → Prop} {P Q : α → Prop}

theorem ensures_pure {a : α} (h : P a) : Ensures I (pure a) P := by
  intro s hs
  refine ⟨hs, fun b hb => ?_⟩
  rwa [← Except.ok.inj hb]

theorem ensures_throw (e : Error) : Ensures I (throw e : Attempt σ α) P :=
  fun _ hs => ⟨hs, fun b hb => by cases hb⟩

theorem ensures_ofExcept {x : Except Error α} (h : ∀ a, x = .ok a → P a) :
    Ensures I (ofExcept x) P :=
  fun _ hs => ⟨hs, h⟩

theorem Ensures.mono {x : Attempt σ α} (h : Ensures I x P) (hPQ : ∀ a, P a → Q a) :
    Ensures I x Q :=
  fun s hs => ⟨(h s hs).1, fun a ha => hPQ a ((h s hs).2 a ha)⟩

theorem Ensures.bind {x : Attempt σ α} {f : α → Attempt σ β} {R : β → Prop}
    (hx : Ensures I x P) (hf : ∀ a, P a → Ensures I (f a) R) : Ensures I (x >>= f) R := by
  intro s hs
  obtain ⟨hinv, hanswer⟩ := hx s hs
  rw [ExceptT.run_bind, StateT.run_bind]
  cases hrun : x.run.run s with
  | mk r s' =>
    rw [hrun] at hinv hanswer
    cases r with
    | error e => exact ⟨hinv, fun b hb => by cases hb⟩
    | ok a => exact hf a (hanswer a rfl) s' hinv

theorem ensures_ite {c : Prop} [Decidable c] {x y : Attempt σ α} (hx : Ensures I x P)
    (hy : Ensures I y P) : Ensures I (if c then x else y) P := by
  split
  · exact hx
  · exact hy

theorem Ensures.mapM {f : α → Attempt σ β} {l : List α} {R : α → β → Prop}
    (h : ∀ a ∈ l, Ensures I (f a) (R a)) : Ensures I (l.mapM f) (List.Forall₂ R l) := by
  induction l with
  | nil => exact ensures_pure List.Forall₂.nil
  | cons a l ih =>
    obtain ⟨ha, hl⟩ := List.forall_mem_cons.mp h
    rw [List.mapM_cons]
    apply ha.bind
    intro b hb
    apply (ih hl).bind
    exact fun bs hbs => ensures_pure (List.Forall₂.cons hb hbs)

theorem Ensures.forall_mapM {f : α → Attempt σ β} {l : List α} {P : β → Prop}
    (h : ∀ a ∈ l, Ensures I (f a) P) : Ensures I (l.mapM f) fun bs => ∀ b ∈ bs, P b := by
  apply (Ensures.mapM (R := fun _ => P) h).mono
  intro bs hbs
  induction hbs with
  | nil => simp
  | cons hb _ ih => exact List.forall_mem_cons.mpr ⟨hb, ih fun a ha => h a (.tail _ ha)⟩

/-- An answer that is always given is the only one. -/
theorem Keeps.ensures {x : Attempt σ α} {a : α} (h : x.Keeps I a) : x.Ensures I (· = a) := by
  intro s hs
  obtain ⟨s', hrun, hs'⟩ := h s hs
  rw [hrun]
  exact ⟨hs', fun b hb => (Except.ok.inj hb).symm⟩

/-- After a failure the computation goes on from where it failed. -/
theorem run_tryCatch (x : Attempt σ α) (handle : Error → Attempt σ α) (s : σ) :
    (tryCatch x handle).run.run s =
      match x.run.run s with
      | (.ok a, s') => (.ok a, s')
      | (.error e, s') => (handle e).run.run s' := by
  have hcatch : (tryCatch x handle).run.run s = (x.run >>= fun r =>
      match r with
      | .ok a => (pure (.ok a) : StateM σ (Except Error α))
      | .error e => (handle e).run).run s := by
    change (ExceptT.tryCatch x handle).run.run s = _
    unfold ExceptT.tryCatch
    change StateT.run (x.run >>= _) s = _
    congr 2
    funext r
    cases r <;> rfl
  rw [hcatch, StateT.run_bind]
  cases hrun : x.run.run s with
  | mk r s' => cases r <;> rfl

/-- A computation that goes on after a failure ensures what both ways ensure. -/
theorem ensures_tryCatch {x : Attempt σ α} {handle : Error → Attempt σ α} (hx : Ensures I x P)
    (h : ∀ e, Ensures I (handle e) P) : Ensures I (tryCatch x handle) P := by
  intro s hs
  obtain ⟨hinv, hanswer⟩ := hx s hs
  rw [run_tryCatch]
  cases hrun : x.run.run s with
  | mk r s' =>
    rw [hrun] at hinv hanswer
    cases r with
    | error e => exact h e s' hinv
    | ok a => exact ⟨hinv, fun b hb => hanswer b hb⟩

/-- The computation gives the answer from some state. -/
def Answers (x : Attempt σ α) (a : α) : Prop := ∃ s, (x.run.run s).1 = .ok a

theorem ensures_answers (x : Attempt σ α) : x.Ensures (fun _ => True) x.Answers :=
  fun s _ => ⟨trivial, fun _ ha => ⟨s, ha⟩⟩

/-- A computation on a part of the state ensures what it ensures there. -/
theorem Ensures.within {J : τ → Prop} {x : Attempt τ α} (hx : Ensures J x P) {part : σ → τ}
    {replace : σ → τ → σ} (hpart : ∀ s, I s → J (part s))
    (hreplace : ∀ s t, I s → J t → I (replace s t)) : Ensures I (x.within part replace) P := by
  intro s hs
  obtain ⟨hinv, hanswer⟩ := hx (part s) (hpart s hs)
  exact ⟨hreplace s _ hs hinv, hanswer⟩

end Attempt

end ProbLoop
