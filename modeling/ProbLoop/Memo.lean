import ProbLoop.Error

/-!
# Memo tables

A table keeps finished results and the keys whose results are being computed. A key that is asked
for while it is pending depends on itself.
-/

set_option autoImplicit false

namespace ProbLoop

structure Memo (κ ν : Type) where
  entries : List (κ × ν)
  pending : List κ
  hits : Nat
  misses : Nat

namespace Memo

variable {κ ν : Type}

def empty : Memo κ ν := ⟨[], [], 0, 0⟩

instance : Inhabited (Memo κ ν) := ⟨empty⟩

def size (t : Memo κ ν) : Nat := t.entries.length

def isEmpty (t : Memo κ ν) : Bool := t.entries.isEmpty

variable [DecidableEq κ]

def get? (t : Memo κ ν) (key : κ) : Option ν :=
  Assoc.find? key t.entries

/-- Looks a key up and counts whether it was found. -/
def lookup (t : Memo κ ν) (key : κ) : Option ν × Memo κ ν :=
  match t.get? key with
  | some value => (some value, { t with hits := t.hits + 1 })
  | none => (none, { t with misses := t.misses + 1 })

def isPending (t : Memo κ ν) (key : κ) : Bool :=
  t.pending.contains key

/-- Marks a key as being computed. The answer is whether it was not marked before. -/
def mark (t : Memo κ ν) (key : κ) : Bool × Memo κ ν :=
  if t.isPending key then (false, t) else (true, { t with pending := key :: t.pending })

/-- Drops the mark of a key whose computation failed. -/
def release (t : Memo κ ν) (key : κ) : Memo κ ν :=
  { t with pending := t.pending.filter (· != key) }

/-- Keeps a finished result in place of any earlier one, and drops the mark of its key. -/
def insert (t : Memo κ ν) (key : κ) (value : ν) : Memo κ ν :=
  { t.release key with entries := (key, value) :: t.entries.filter (·.1 != key) }

end Memo

/-- A memo table inside a larger state. -/
structure Slot (σ κ ν : Type) where
  get : σ → Memo κ ν
  put : σ → Memo κ ν → σ

namespace Slot

variable {σ κ ν : Type}

def update (slot : Slot σ κ ν) (change : Memo κ ν → Memo κ ν) (s : σ) : σ :=
  slot.put s (change (slot.get s))

/-- The result for a key, computed at most once: the computation is not even set up where the result
is known. A computation that fails leaves no mark. -/
def remember [DecidableEq κ] (slot : Slot σ κ ν) (key : κ) (cycle : Error)
    (compute : Unit → Attempt σ ν) : Attempt σ ν :=
  ExceptT.mk fun s =>
    match (slot.get s).lookup key with
    | (some value, t) => (.ok value, slot.put s t)
    | (none, t) =>
      match t.mark key with
      | (false, t) => (.error cycle, slot.put s t)
      | (true, t) =>
        match (compute ()).run.run (slot.put s t) with
        | (.ok value, s') => (.ok value, slot.update (·.insert key value) s')
        | (.error e, s') => (.error e, slot.update (·.release key) s')

end Slot

end ProbLoop
