import ProbLoop.Proofs.Meets

/-!
# Computations that advance their state

A computation may only lead to states that come after the one it starts from: constants are drawn and
results are stored, but none are taken back. What it answers is a statement about the state in which it ends,
such as the constants that have been drawn by then. Statements that stay true in later states can be put
together like the computations.
-/

set_option autoImplicit false

namespace ProbLoop

variable {σ τ α β : Type}

/-- One state comes after another, and what comes after some state is a proper one. -/
structure Progress (T : σ → σ → Prop) : Prop where
  reached : ∀ {s s'}, T s s' → T s' s'
  trans : ∀ {s s' s''}, T s s' → T s' s'' → T s s''

/-- From the given state the computation ends in a later one, and an answer has a property there. -/
def Attempt.Advances (T : σ → σ → Prop) (s : σ) (x : Attempt σ α) (R : σ → α → Prop) : Prop :=
  T s (x.run.run s).2 ∧ ∀ a, (x.run.run s).1 = .ok a → R (x.run.run s).2 a

namespace Attempt

variable {T : σ → σ → Prop} {s : σ} {Q R : σ → α → Prop} {S : σ → β → Prop} {x : Attempt σ α}

theorem advances_pure {a : α} (hs : T s s) (h : R s a) : Advances T s (pure a) R :=
  ⟨hs, fun b hb => by rwa [← Except.ok.inj hb]⟩

theorem advances_throw (hs : T s s) (e : Error) : Advances T s (throw e : Attempt σ α) R :=
  ⟨hs, fun _ hb => (by cases hb)⟩

theorem advances_ofExcept {r : Except Error α} (hs : T s s) (h : ∀ a, r = .ok a → R s a) :
    Advances T s (ofExcept r) R :=
  ⟨hs, h⟩

theorem advances_lift {y : StateM σ α} (hs : T s (y.run s).2) (h : R (y.run s).2 (y.run s).1) :
    Advances T s (liftM y : Attempt σ α) R :=
  ⟨hs, fun a ha => by rwa [← Except.ok.inj ha]⟩

theorem Advances.mono (h : Advances T s x Q) (hQR : ∀ s' a, T s s' → Q s' a → R s' a) :
    Advances T s x R :=
  ⟨h.1, fun a ha => hQR _ a h.1 (h.2 a ha)⟩

theorem advances_ite {c : Prop} [Decidable c] {y : Attempt σ α} (hx : c → Advances T s x R)
    (hy : ¬c → Advances T s y R) : Advances T s (if c then x else y) R := by
  split
  · next h => exact hx h
  · next h => exact hy h

/-- A part of the state advances, and the state with it. -/
theorem Advances.within {U : τ → τ → Prop} {y : Attempt τ α} {part : σ → τ} {replace : σ → τ → σ}
    {R' : τ → α → Prop} (hy : Advances U (part s) y R')
    (hT : ∀ t, U (part s) t → T s (replace s t)) (hR : ∀ t a, R' t a → R (replace s t) a) :
    Advances T s (y.within part replace) R :=
  ⟨hT _ hy.1, fun a ha => hR _ a (hy.2 a ha)⟩

theorem ensures_of_advances {I : σ → Prop} {P : α → Prop}
    (h : ∀ s, I s → Advances (fun _ s' => I s') s x fun _ a => P a) : Ensures I x P :=
  fun s hs => h s hs

theorem Ensures.advances {I : σ → Prop} {P : α → Prop} (h : Ensures I x P) (hs : I s) :
    Advances (fun _ s' => I s') s x fun _ a => P a :=
  h s hs

section Progress

variable (hT : Progress T)
include hT

theorem Advances.bind {f : α → Attempt σ β} (hx : Advances T s x Q)
    (hf : ∀ a s', T s s' → Q s' a → Advances T s' (f a) S) : Advances T s (x >>= f) S := by
  obtain ⟨hlater, hanswer⟩ := hx
  cases hrun : x.run.run s with
  | mk r s' =>
    rw [hrun] at hlater hanswer
    cases r with
    | error e =>
      rw [Advances, run_bind_error hrun]
      exact ⟨hlater, fun _ hb => (by cases hb)⟩
    | ok a =>
      obtain ⟨hlater', hanswer'⟩ := hf a s' hlater (hanswer a rfl)
      rw [Advances, run_bind_ok hrun]
      exact ⟨hT.trans hlater hlater', hanswer'⟩

/-- Answers that stay right in later states are all right in the end. -/
theorem Advances.forall_mapM {f : β → Attempt σ α} {l : List β}
    (hmono : ∀ {s' s'' a}, T s' s'' → R s' a → R s'' a) (hs : T s s)
    (h : ∀ b ∈ l, ∀ s', T s s' → Advances T s' (f b) R) :
    Advances T s (l.mapM f) fun s' as => ∀ a ∈ as, R s' a := by
  induction l generalizing s with
  | nil => exact advances_pure hs fun _ ha => absurd ha List.not_mem_nil
  | cons b l ih =>
    obtain ⟨hb, hl⟩ := List.forall_mem_cons.mp h
    rw [List.mapM_cons]
    apply (hb s hs).bind hT
    intro a s' hs' ha
    apply (ih (hT.reached hs') fun c hc s'' hs'' => hl c hc s'' (hT.trans hs' hs'')).bind hT
    intro as s'' hs'' has
    exact advances_pure (hT.reached hs'') (List.forall_mem_cons.mpr ⟨hmono hs'' ha, has⟩)

end Progress

/-! ### Computations that only go on -/

/-- From every state that was reached, the computation ends in a later one. -/
def Continues (T : σ → σ → Prop) (x : Attempt σ α) : Prop :=
  ∀ s, T s s → T s (x.run.run s).2

theorem Continues.advances (h : Continues T x) (hs : T s s) : Advances T s x fun _ _ => True :=
  ⟨h s hs, fun _ _ => trivial⟩

theorem continues_pure (a : α) : Continues T (pure a) := fun _ hs => hs

theorem continues_throw (e : Error) : Continues T (throw e : Attempt σ α) := fun _ hs => hs

theorem continues_ite {c : Prop} [Decidable c] {y : Attempt σ α} (hx : Continues T x)
    (hy : Continues T y) : Continues T (if c then x else y) := by
  split
  · exact hx
  · exact hy

section Progress

variable (hT : Progress T)
include hT

theorem Continues.bind {f : α → Attempt σ β} (hx : Continues T x) (hf : ∀ a, Continues T (f a)) :
    Continues T (x >>= f) :=
  fun _ hs => ((hx.advances hs).bind hT fun a _ hs' _ => (hf a).advances (hT.reached hs')).1

theorem Continues.mapM {f : β → Attempt σ α} (h : ∀ b, Continues T (f b)) (l : List β) :
    Continues T (l.mapM f) := by
  induction l with
  | nil => exact continues_pure []
  | cons b l ih =>
    rw [List.mapM_cons]
    exact (h b).bind hT fun _ => ih.bind hT fun _ => continues_pure _

/-- After a failure the computation goes on from where it failed. -/
theorem Continues.tryCatch {handle : Error → Attempt σ α} (hx : Continues T x)
    (h : ∀ e, Continues T (handle e)) : Continues T (tryCatch x handle) := by
  intro s hs
  have hlater := hx s hs
  rw [run_tryCatch]
  cases hrun : x.run.run s with
  | mk r s' =>
    rw [hrun] at hlater
    cases r with
    | error e => exact hT.trans hlater (h e s' (hT.reached hlater))
    | ok a => exact hlater

end Progress

end Attempt

end ProbLoop
