import ProbLoop.Proofs.Memo

/-!
# Computations that do not depend on the history

A computation with a memo table is steady if its answer, be it a result or a failure, is the same from
every state that occurs. What is pending differs between these states, so the invariant of the state is a
family: it is kept with the keys that were pending before. A table of steady computations is transparent.
-/

set_option autoImplicit false

namespace ProbLoop

variable {ι σ α β κ ν : Type}

/-- The computation keeps every invariant of the family, and gives one answer from all these states. -/
def Attempt.Steady (I : ι → σ → Prop) (x : Attempt σ α) : Prop :=
  ∀ i s, I i s → I i (x.run.run s).2 ∧ ∀ j t, I j t → (x.run.run t).1 = (x.run.run s).1

namespace Attempt

variable {I : ι → σ → Prop}

theorem run_bind_ok {x : Attempt σ α} {f : α → Attempt σ β} {s s' : σ} {a : α}
    (h : x.run.run s = (.ok a, s')) : (x >>= f).run.run s = (f a).run.run s' := by
  rw [ExceptT.run_bind, StateT.run_bind, h]
  rfl

theorem run_bind_error {x : Attempt σ α} {f : α → Attempt σ β} {s s' : σ} {e : Error}
    (h : x.run.run s = (.error e, s')) : (x >>= f).run.run s = (.error e, s') := by
  rw [ExceptT.run_bind, StateT.run_bind, h]
  rfl

theorem exists_of_run_bind {x : Attempt σ α} {f : α → Attempt σ β} {s s' : σ} {b : β}
    (h : (x >>= f).run.run s = (.ok b, s')) :
    ∃ a s₁, x.run.run s = (.ok a, s₁) ∧ (f a).run.run s₁ = (.ok b, s') := by
  cases hrun : x.run.run s with
  | mk r s₁ =>
    cases r with
    | error e =>
      rw [run_bind_error hrun] at h
      cases h
    | ok a =>
      rw [run_bind_ok hrun] at h
      exact ⟨a, s₁, rfl, h⟩

theorem steady_ofExcept (r : Except Error α) : Steady I (ofExcept r) :=
  fun _ _ hs => ⟨hs, fun _ _ _ => rfl⟩

theorem steady_pure (a : α) : Steady I (pure a) :=
  steady_ofExcept (.ok a)

theorem steady_throw (e : Error) : Steady I (throw e : Attempt σ α) :=
  steady_ofExcept (.error e)

theorem Steady.bind {x : Attempt σ α} {f : α → Attempt σ β} (hx : x.Steady I)
    (hf : ∀ a, (f a).Steady I) : (x >>= f).Steady I := by
  intro i s hs
  obtain ⟨hinv, hanswer⟩ := hx i s hs
  cases hrun : x.run.run s with
  | mk r s' =>
    rw [hrun] at hinv hanswer
    have hother : ∀ j t, I j t → ∃ t', x.run.run t = (r, t') ∧ I j t' := fun j t ht =>
      ⟨(x.run.run t).2, Prod.ext (hanswer j t ht) rfl, (hx j t ht).1⟩
    cases r with
    | error e =>
      rw [run_bind_error hrun]
      refine ⟨hinv, fun j t ht => ?_⟩
      obtain ⟨t', hrun', -⟩ := hother j t ht
      rw [run_bind_error hrun']
    | ok a =>
      rw [run_bind_ok hrun]
      obtain ⟨hinv', hanswer'⟩ := hf a i s' hinv
      refine ⟨hinv', fun j t ht => ?_⟩
      obtain ⟨t', hrun', ht'⟩ := hother j t ht
      rw [run_bind_ok hrun']
      exact hanswer' j t' ht'

/-- States of which the invariant holds with fewer keys pending give the same answer. -/
theorem Steady.mono {x : Attempt σ α} (hx : x.Steady I) {γ : Type} {J : γ → σ → Prop} {f : γ → ι}
    (hJ : ∀ j s, J j s → I (f j) s) (hI : ∀ j s t, J j s → I (f j) t → J j t) : x.Steady J := by
  intro j s hs
  obtain ⟨hinv, hanswer⟩ := hx (f j) s (hJ j s hs)
  exact ⟨hI j s _ hs hinv, fun k t ht => hanswer (f k) t (hJ k t ht)⟩

/-- Where a steady computation gives an answer from one state, it gives it from all. -/
theorem Steady.keeps {x : Attempt σ α} (hx : x.Steady I) {i : ι} {s : σ} (hs : I i s) {a : α}
    (h : (x.run.run s).1 = .ok a) (j : ι) : x.Keeps (I j) a := by
  intro t ht
  obtain ⟨hinv, -⟩ := hx j t ht
  exact ⟨_, Prod.ext (((hx i s hs).2 j t ht).trans h) rfl, hinv⟩

/-- A steady computation that always answers in states of another kind answers in all of its own, if
some state is of both kinds. -/
theorem Steady.keeps_of_keeps {x : Attempt σ α} (hx : x.Steady I) {J : σ → Prop} {a : α}
    (hJ : x.Keeps J a) {i : ι} {s : σ} (hs : I i s) (hs' : J s) (j : ι) : x.Keeps (I j) a := by
  obtain ⟨s', hrun, -⟩ := hJ s hs'
  exact hx.keeps hs (by rw [hrun]) j

end Attempt

namespace Slot

variable [DecidableEq κ] {P : κ → ν → Prop} {key : κ}

/-- A table that holds what a steady computation answers is transparent. -/
theorem steady_remember (slot : Slot σ κ ν) (hslot : ∀ s t, slot.get (slot.put s t) = t)
    {W : List κ → Prop} (hW : ∀ pending, W pending → key ∉ pending) (cycle : Error)
    {compute : Unit → Attempt σ ν}
    (hc : (compute ()).Steady fun pending s => W pending ∧ (slot.get s).Sound P (key :: pending))
    (hP : ∀ pending s, W pending → (slot.get s).Sound P (key :: pending) → ∀ v,
      P key v ↔ ((compute ()).run.run s).1 = .ok v) :
    (slot.remember key cycle compute).Steady fun pending s =>
      W pending ∧ (slot.get s).Sound P pending := by
  -- One run: the invariant is kept, and the answer is that of some computation.
  have hrun : ∀ pending s, W pending → (slot.get s).Sound P pending →
      (slot.get ((slot.remember key cycle compute).run.run s).2).Sound P pending ∧
        ∃ t, (slot.get t).Sound P (key :: pending) ∧
          ((slot.remember key cycle compute).run.run s).1 = ((compute ()).run.run t).1 := by
    intro pending s hw hs
    have hfresh := hW pending hw
    have hbegin : (slot.get (slot.put s ((slot.get s).begin key))).Sound P (key :: pending) := by
      rw [hslot]
      exact hs.begin key
    have hanswer := hP _ _ hw hbegin
    cases hf : (slot.get s).get? key with
    | some v =>
      rw [slot.run_remember_hit cycle hf, hslot]
      refine ⟨⟨hs.entries, hs.pending_eq⟩, _, hbegin, ?_⟩
      exact ((hanswer v).mp (hs.entries _ (Assoc.mem_of_find? hf))).symm
    | none =>
      obtain ⟨⟨-, hinv⟩, -⟩ := hc pending _ ⟨hw, hbegin⟩
      rw [slot.run_remember_compute cycle hf (hs.pending_eq ▸ hfresh)]
      refine ⟨?_, _, hbegin, ?_⟩
      · split
        · next v s' hcompute =>
          rw [hcompute] at hinv hanswer
          rw [update, hslot]
          exact hinv.insert hfresh ((hanswer v).mpr rfl)
        · next e s' hcompute =>
          rw [hcompute] at hinv
          rw [update, hslot]
          exact hinv.release hfresh
      · split <;> next hcompute => rw [hcompute]
  rintro pending s ⟨hw, hs⟩
  obtain ⟨hinv, t, ht, hanswer⟩ := hrun pending s hw hs
  refine ⟨⟨hw, hinv⟩, ?_⟩
  rintro pending' s' ⟨hw', hs'⟩
  obtain ⟨-, t', ht', hanswer'⟩ := hrun pending' s' hw' hs'
  rw [hanswer, hanswer']
  exact (hc pending t ⟨hw, ht⟩).2 pending' t' ⟨hw', ht'⟩

end Slot

end ProbLoop
