import ProbLoop.Memo
import ProbLoop.Proofs.Assoc

/-!
# Computations with a memo table

A computation that keeps an invariant of its state and always gives the same answer can be run at any
point. Remembering such a computation keeps the table free of wrong answers.
-/

set_option autoImplicit false

namespace ProbLoop

variable {σ α β κ ν : Type}

/-- From every state of a kind, the computation gives one answer and ends in a state of that kind. -/
def Attempt.Keeps (I : σ → Prop) (x : Attempt σ α) (a : α) : Prop :=
  ∀ s, I s → ∃ s', x.run.run s = (.ok a, s') ∧ I s'

namespace Attempt

variable {I : σ → Prop}

theorem keeps_pure (a : α) : Keeps I (pure a) a :=
  fun s hs => ⟨s, rfl, hs⟩

theorem keeps_ofExcept {x : Except Error α} {a : α} (h : x = .ok a) : Keeps I (ofExcept x) a :=
  fun s hs => ⟨s, by rw [h]; rfl, hs⟩

theorem Keeps.bind {x : Attempt σ α} {f : α → Attempt σ β} {a : α} {b : β} (hx : Keeps I x a)
    (hf : Keeps I (f a) b) : Keeps I (x >>= f) b := by
  intro s hs
  obtain ⟨s', hrun, hs'⟩ := hx s hs
  obtain ⟨s'', hrun', hs''⟩ := hf s' hs'
  refine ⟨s'', ?_, hs''⟩
  rw [← hrun', ExceptT.run_bind, StateT.run_bind, hrun]
  rfl

theorem Keeps.mapM {f : α → Attempt σ β} {g : α → β} {l : List α}
    (h : ∀ a ∈ l, Keeps I (f a) (g a)) : Keeps I (l.mapM f) (l.map g) := by
  induction l with
  | nil => exact keeps_pure []
  | cons a l ih =>
    have hl := List.forall_mem_cons.mp h
    rw [List.mapM_cons, List.map_cons]
    exact hl.1.bind ((ih hl.2).bind (keeps_pure _))

end Attempt

/-- The entries of a table are right, and the given keys are being computed. -/
structure Memo.Sound (P : κ → ν → Prop) (pending : List κ) (t : Memo κ ν) : Prop where
  entries : ∀ e ∈ t.entries, P e.1 e.2
  pending_eq : t.pending = pending

namespace Memo

/-- The table while the result for a key that it does not have is computed. -/
def begin (t : Memo κ ν) (key : κ) : Memo κ ν :=
  { t with misses := t.misses + 1, pending := key :: t.pending }

variable {P : κ → ν → Prop} {pending : List κ} {t : Memo κ ν} {key : κ}

theorem Sound.begin (h : t.Sound P pending) (key : κ) : (t.begin key).Sound P (key :: pending) :=
  ⟨h.entries, by rw [Memo.begin, h.pending_eq]⟩

variable [DecidableEq κ]

/-- The mark of a key that was not pending before is dropped. -/
theorem Sound.release (h : t.Sound P (key :: pending)) (hkey : key ∉ pending) :
    (t.release key).Sound P pending := by
  refine ⟨h.entries, ?_⟩
  change t.pending.filter (· != key) = pending
  rw [h.pending_eq, List.filter_cons_of_neg (by simp), List.filter_eq_self]
  intro k hk
  have hne : k ≠ key := fun h => hkey (h ▸ hk)
  simpa using hne

theorem Sound.insert (h : t.Sound P (key :: pending)) (hkey : key ∉ pending) {value : ν}
    (hvalue : P key value) : (t.insert key value).Sound P pending := by
  refine ⟨fun e he => ?_, (h.release hkey).pending_eq⟩
  rcases List.mem_cons.mp he with rfl | he
  · exact hvalue
  · exact h.entries e (List.mem_filter.mp he).1

theorem get?_insert (t : Memo κ ν) (key k : κ) (value : ν) :
    (t.insert key value).get? k = if key = k then some value else t.get? k := by
  change (if key = k then some value else Assoc.find? k (t.entries.filter fun e => e.1 != key)) = _
  split
  · rfl
  · next hne =>
    rw [Assoc.find?_filter fun j => j != key, if_pos (bne_iff_ne.mpr (Ne.symm hne))]
    rfl

end Memo

namespace Slot

variable [DecidableEq κ] {P : κ → ν → Prop} {pending : List κ} {key : κ} {value : ν}

theorem run_remember (slot : Slot σ κ ν) (key : κ) (cycle : Error)
    (compute : Unit → Attempt σ ν) (s : σ) :
    (slot.remember key cycle compute).run.run s =
      match (slot.get s).lookup key with
      | (some value, t) => (.ok value, slot.put s t)
      | (none, t) =>
        match t.mark key with
        | (false, t) => (.error cycle, slot.put s t)
        | (true, t) =>
          match (compute ()).run.run (slot.put s t) with
          | (.ok value, s') => (.ok value, slot.update (·.insert key value) s')
          | (.error e, s') => (.error e, slot.update (·.release key) s') :=
  rfl

/-- A known result is given again. -/
theorem run_remember_hit (slot : Slot σ κ ν) (cycle : Error) {compute : Unit → Attempt σ ν} {s : σ}
    (h : (slot.get s).get? key = some value) :
    (slot.remember key cycle compute).run.run s =
      (.ok value, slot.put s { slot.get s with hits := (slot.get s).hits + 1 }) := by
  simp only [run_remember]
  rw [Memo.lookup, h]

/-- A result that is being computed is not found. -/
theorem run_remember_pending (slot : Slot σ κ ν) (cycle : Error) {compute : Unit → Attempt σ ν}
    {s : σ} (h : (slot.get s).get? key = none) (hkey : key ∈ (slot.get s).pending) :
    (slot.remember key cycle compute).run.run s =
      (.error cycle, slot.put s { slot.get s with misses := (slot.get s).misses + 1 }) := by
  simp only [run_remember]
  rw [Memo.lookup, h]
  simp [Memo.mark, Memo.isPending, hkey]

/-- Any other result is computed while its key is marked. -/
theorem run_remember_compute (slot : Slot σ κ ν) (cycle : Error) {compute : Unit → Attempt σ ν}
    {s : σ} (h : (slot.get s).get? key = none) (hkey : key ∉ (slot.get s).pending) :
    (slot.remember key cycle compute).run.run s =
      match (compute ()).run.run (slot.put s ((slot.get s).begin key)) with
      | (.ok value, s') => (.ok value, slot.update (·.insert key value) s')
      | (.error e, s') => (.error e, slot.update (·.release key) s') := by
  simp only [run_remember]
  rw [Memo.lookup, h]
  simp [Memo.mark, Memo.isPending, hkey, Memo.begin]

/-- A remembered computation gives its answer, whether or not the answer is known already. -/
theorem keeps_remember (slot : Slot σ κ ν) (hslot : ∀ s t, slot.get (slot.put s t) = t)
    (cycle : Error) {compute : Unit → Attempt σ ν} (hkey : key ∉ pending)
    (hunique : ∀ v, P key v ↔ v = value)
    (hc : (compute ()).Keeps (fun s => (slot.get s).Sound P (key :: pending)) value) :
    (slot.remember key cycle compute).Keeps (fun s => (slot.get s).Sound P pending) value := by
  intro s hs
  cases hf : (slot.get s).get? key with
  | some v =>
    have hv : v = value := (hunique v).mp (hs.entries _ (Assoc.mem_of_find? hf))
    rw [slot.run_remember_hit cycle hf, hv]
    refine ⟨_, rfl, ?_⟩
    simp only [hslot]
    exact ⟨hs.entries, hs.pending_eq⟩
  | none =>
    rw [slot.run_remember_compute cycle hf (hs.pending_eq ▸ hkey)]
    obtain ⟨s', hrun, hs'⟩ := hc (slot.put s ((slot.get s).begin key))
      (by simpa only [hslot] using hs.begin key)
    rw [hrun]
    refine ⟨_, rfl, ?_⟩
    simp only [update, hslot]
    exact hs'.insert hkey ((hunique value).mpr rfl)

end Slot

end ProbLoop
