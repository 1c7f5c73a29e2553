import ProbLoop.Proofs.Ensures
import ProbLoop.Proofs.Steady

/-!
# What answers and failures have in common

A computation that ensures something of its answers may in addition fail in some ways only. A remembered
computation marks its key while it runs, so its invariant is a family over the keys that are pending.
-/

set_option autoImplicit false

namespace ProbLoop

variable {σ τ α β κ ν : Type}

/-- The computation ensures a property of its answers, and every failure has a property as well. -/
def Attempt.Meets (I : σ → Prop) (x : Attempt σ α) (P : α → Prop) (E : Error → Prop) : Prop :=
  x.Ensures I P ∧ ∀ s, I s → ∀ e, (x.run.run s).1 = .error e → E e

namespace Attempt

variable {I : σ → Prop} {P Q : α → Prop} {E : Error → Prop}

theorem meets_pure {a : α} (h : P a) : Meets I (pure a) P E :=
  ⟨ensures_pure h, fun _ _ e he => (by cases he)⟩

theorem meets_throw {e : Error} (h : E e) : Meets I (throw e : Attempt σ α) P E :=
  ⟨ensures_throw e, fun _ _ e' he => by rwa [← Except.error.inj he]⟩

theorem meets_ofExcept {x : Except Error α} (hP : ∀ a, x = .ok a → P a)
    (hE : ∀ e, x = .error e → E e) : Meets I (ofExcept x) P E :=
  ⟨ensures_ofExcept hP, fun _ _ => hE⟩

theorem Ensures.meets {x : Attempt σ α} (h : x.Ensures I P) : Meets I x P fun _ => True :=
  ⟨h, fun _ _ _ _ => trivial⟩

theorem Steady.ensures {ι : Type} {J : ι → σ → Prop} {x : Attempt σ α} (h : x.Steady J) {i : ι} :
    x.Ensures (J i) fun _ => True :=
  fun s hs => ⟨(h i s hs).1, fun _ _ => trivial⟩

theorem Keeps.meets {x : Attempt σ α} {a : α} (h : x.Keeps I a) : Meets I x (· = a) E := by
  refine ⟨h.ensures, fun s hs e he => ?_⟩
  obtain ⟨s', hrun, -⟩ := h s hs
  rw [hrun] at he
  cases he

theorem Meets.mono {x : Attempt σ α} (h : Meets I x P E) (hPQ : ∀ a, P a → Q a) :
    Meets I x Q E :=
  ⟨h.1.mono hPQ, h.2⟩

theorem Meets.weaken {x : Attempt σ α} {E' : Error → Prop} (h : Meets I x P E)
    (hE : ∀ e, E e → E' e) : Meets I x P E' :=
  ⟨h.1, fun s hs e he => hE e (h.2 s hs e he)⟩

theorem Meets.any {x : Attempt σ α} (h : Meets I x P E) : Meets I x (fun _ => True) E :=
  h.mono fun _ _ => trivial

theorem Meets.bind {x : Attempt σ α} {f : α → Attempt σ β} {R : β → Prop} (hx : Meets I x P E)
    (hf : ∀ a, P a → Meets I (f a) R E) : Meets I (x >>= f) R E := by
  refine ⟨hx.1.bind fun a ha => (hf a ha).1, fun s hs e he => ?_⟩
  obtain ⟨hinv, hanswer⟩ := hx.1 s hs
  have hfailure := hx.2 s hs
  rw [ExceptT.run_bind, StateT.run_bind] at he
  cases hrun : x.run.run s with
  | mk r s' =>
    rw [hrun] at hinv hanswer hfailure he
    cases r with
    | error e' =>
      have heq : e' = e := Except.error.inj he
      exact hfailure e (by rw [heq])
    | ok a => exact (hf a (hanswer a rfl)).2 s' hinv e he

theorem meets_ite {c : Prop} [Decidable c] {x y : Attempt σ α} (hx : Meets I x P E)
    (hy : Meets I y P E) : Meets I (if c then x else y) P E := by
  split
  · exact hx
  · exact hy

theorem Meets.mapM {f : α → Attempt σ β} {l : List α} {R : α → β → Prop}
    (h : ∀ a ∈ l, Meets I (f a) (R a) E) : Meets I (l.mapM f) (List.Forall₂ R l) E := by
  induction l with
  | nil => exact meets_pure List.Forall₂.nil
  | cons a l ih =>
    obtain ⟨ha, hl⟩ := List.forall_mem_cons.mp h
    rw [List.mapM_cons]
    apply ha.bind
    intro b hb
    apply (ih hl).bind
    exact fun bs hbs => meets_pure (List.Forall₂.cons hb hbs)

/-- What is handled after a failure meets what both ways meet. -/
theorem Meets.tryCatch {x : Attempt σ α} {handle : Error → Attempt σ α} {E' : Error → Prop}
    (hx : Meets I x P E) (h : ∀ e, E e → Meets I (handle e) P E') :
    Meets I (tryCatch x handle) P E' := by
  have hrun : ∀ s, I s → I ((MonadExcept.tryCatch x handle).run.run s).2 ∧
      (∀ a, ((MonadExcept.tryCatch x handle).run.run s).1 = .ok a → P a) ∧
        ∀ e, ((MonadExcept.tryCatch x handle).run.run s).1 = .error e → E' e := by
    intro s hs
    obtain ⟨hinv, hanswer⟩ := hx.1 s hs
    have hfailure := hx.2 s hs
    rw [run_tryCatch]
    cases hrun : x.run.run s with
    | mk r s' =>
      rw [hrun] at hinv hanswer hfailure
      cases r with
      | error e =>
        have hhandled := h e (hfailure e rfl)
        exact ⟨(hhandled.1 s' hinv).1, (hhandled.1 s' hinv).2, hhandled.2 s' hinv⟩
      | ok a => exact ⟨hinv, hanswer, fun e he => by cases he⟩
  exact ⟨fun s hs => ⟨(hrun s hs).1, (hrun s hs).2.1⟩, fun s hs => (hrun s hs).2.2⟩

/-- A change of the state alone does not fail. -/
theorem meets_lift (x : StateM σ α) :
    Meets (fun _ => True) (liftM x : Attempt σ α) (fun _ => True) E :=
  ⟨fun _ _ => ⟨trivial, fun _ _ => trivial⟩, fun _ _ e he => (by cases he)⟩

theorem Meets.within {J : τ → Prop} {x : Attempt τ α} (hx : Meets J x P E) {part : σ → τ}
    {replace : σ → τ → σ} (hpart : ∀ s, I s → J (part s))
    (hreplace : ∀ s t, I s → J t → I (replace s t)) : Meets I (x.within part replace) P E :=
  ⟨hx.1.within hpart hreplace, fun s hs => hx.2 (part s) (hpart s hs)⟩

end Attempt

namespace Slot

/-- The invariant says that the entries of the table are right and which keys are pending, and it carries
over to every table of which this holds. -/
structure Tracks (slot : Slot σ κ ν) (I : List κ → σ → Prop) (P : κ → ν → Prop) : Prop where
  sound : ∀ {pending : List κ} {s : σ}, I pending s → (slot.get s).Sound P pending
  put : ∀ {pending pending' : List κ} {s : σ} {t : Memo κ ν}, I pending s → t.Sound P pending' →
    I pending' (slot.put s t)

variable [DecidableEq κ] {slot : Slot σ κ ν} {I : List κ → σ → Prop} {P : κ → ν → Prop}

/-- A remembered computation meets what the computation meets while its key is marked. -/
theorem Tracks.meets_remember (h : slot.Tracks I P) {E : Error → Prop} {key : κ} {pending : List κ}
    {cycle : Error} (hcycle : key ∈ pending → E cycle) {compute : Unit → Attempt σ ν}
    (hc : key ∉ pending → (compute ()).Meets (I (key :: pending)) (P key) E) :
    (slot.remember key cycle compute).Meets (I pending) (P key) E := by
  have hrun : ∀ s, I pending s → I pending ((slot.remember key cycle compute).run.run s).2 ∧
      (∀ v, ((slot.remember key cycle compute).run.run s).1 = .ok v → P key v) ∧
        ∀ e, ((slot.remember key cycle compute).run.run s).1 = .error e → E e := by
    intro s hs
    have hsound := h.sound hs
    cases hf : (slot.get s).get? key with
    | some v =>
      rw [slot.run_remember_hit cycle hf]
      refine ⟨h.put hs ⟨hsound.entries, hsound.pending_eq⟩, fun w hw => ?_, fun e he => (by cases he)⟩
      rw [← Except.ok.inj hw]
      exact hsound.entries _ (Assoc.mem_of_find? hf)
    | none =>
      by_cases hkey : key ∈ pending
      · rw [slot.run_remember_pending cycle hf (hsound.pending_eq ▸ hkey)]
        refine ⟨h.put hs ⟨hsound.entries, hsound.pending_eq⟩, fun w hw => (by cases hw), fun e he => ?_⟩
        rw [← Except.error.inj he]
        exact hcycle hkey
      · -- The mark of the key is dropped again, however the computation ends.
        rw [slot.run_remember_compute cycle hf (hsound.pending_eq ▸ hkey)]
        have hbegin := h.put hs (hsound.begin key)
        obtain ⟨hinv, hanswer⟩ := (hc hkey).1 _ hbegin
        have hfailure := (hc hkey).2 _ hbegin
        split
        · next v s' hcompute =>
          rw [hcompute] at hinv hanswer
          have hvalue := hanswer v rfl
          refine ⟨h.put hinv ((h.sound hinv).insert hkey hvalue), fun w hw => ?_,
            fun e he => (by cases he)⟩
          rwa [← Except.ok.inj hw]
        · next e s' hcompute =>
          rw [hcompute] at hinv hfailure
          refine ⟨h.put hinv ((h.sound hinv).release hkey), fun w hw => (by cases hw),
            fun e' he => ?_⟩
          rw [← Except.error.inj he]
          exact hfailure e rfl
  exact ⟨fun s hs => ⟨(hrun s hs).1, (hrun s hs).2.1⟩, fun s hs => (hrun s hs).2.2⟩

end Slot

end ProbLoop
