import ProbLoop.Envelope
import ProbLoop.Proofs.Deterministic
import ProbLoop.Proofs.Steady

/-!
# Transparent tables

The closed form of a monomial and its branches do not depend on what is known already: closed forms are
only asked for down the descent, so that none is asked for while it is pending. This holds of every
program and every monomial, also where the answer is a failure.
-/

set_option autoImplicit false

namespace ProbLoop

namespace Program

variable {p : Program}

/-- The closed form is the one that is computed with an empty table. -/
def IsFresh (p : Program) (m : Monomial) (e : Expr) : Prop :=
  ((p.closedForm m).run.run .empty).1 = .ok e

/-- The branches are the ones that are computed from the cases. -/
def HasBranches (p : Program) (m : Monomial) (bs : List Branch) : Prop :=
  p.branches m = .ok bs

theorem waits_nil (m : Monomial) : p.Waits [] m :=
  fun _ hk => absurd hk List.not_mem_nil

theorem sound_empty {κ ν : Type} (P : κ → ν → Prop) : (Memo.empty : Memo κ ν).Sound P [] :=
  ⟨fun _ he => absurd he List.not_mem_nil, rfl⟩

section Steady

variable {ι σ : Type} {I : ι → σ → Prop}

theorem steady_combine {closed : Monomial → Attempt σ Expr} {groups : List (Monomial × Expr)}
    (h : ∀ g ∈ groups, (closed g.1).Steady I) (acc : Expr) :
    (combine closed acc groups).Steady I := by
  induction groups generalizing acc with
  | nil => exact Attempt.steady_pure acc
  | cons g groups ih =>
    obtain ⟨hg, hgroups⟩ := List.forall_mem_cons.mp h
    exact hg.bind fun value => ih hgroups _

/-- The closed form of a monomial is the same in all tables of closed forms, while monomials above it
are being computed. -/
theorem steady_closedForm (p : Program) (m : Monomial) :
    (p.closedForm m).Steady fun pending t => p.Waits pending m ∧ t.Sound p.IsFresh pending := by
  induction m using (InvImage.wf p.rank Rank.below_wf).induction with
  | h m ih =>
    by_cases hone : m.isOne = true
    · rw [closedForm, if_pos hone]
      exact Attempt.steady_pure _
    · obtain ⟨body, hbody, hclosedForm⟩ : ∃ body : Attempt ClosedForms Expr,
          (body.Steady fun pending t => p.Waits pending m ∧ t.Sound p.IsFresh (m :: pending)) ∧
            p.closedForm m = closedFormSlot.remember m (.unexpected (.closedFormCycle m))
              fun _ => body := by
        rw [closedForm, if_neg hone]
        refine ⟨_, ?_, rfl⟩
        have hclosed : ∀ other : Monomial,
            (if _below : (p.rank other).Below (p.rank m) then p.closedForm other
              else throw (.unexpected (.closedFormCycle other))).Steady
              fun pending t => p.Waits pending m ∧ t.Sound p.IsFresh (m :: pending) := by
          intro other
          split
          · next hbelow =>
            exact (ih other hbelow).mono (f := fun pending => m :: pending)
              (fun _ _ ht => ⟨ht.1.cons hbelow, ht.2⟩) fun _ _ _ ht hs => ⟨ht.1, hs.2⟩
          · exact Attempt.steady_throw _
        exact (steady_combine (fun g _ => hclosed g.1) _).bind fun first =>
          (Attempt.steady_ofExcept _).bind fun factor =>
            (steady_combine (fun g _ => hclosed g.1) _).bind fun inhomogeneous =>
              Attempt.steady_pure _
      rw [hclosedForm]
      refine closedFormSlot.steady_remember (fun _ _ => rfl) (W := fun pending => p.Waits pending m)
        (fun pending hw hmem => (hw m hmem).1 rfl) _ hbody ?_
      -- What is stored is what the computation answers from the empty table, hence from any.
      intro pending t hw ht v
      have hsame := (hbody [] (Memo.empty.begin m)
        ⟨waits_nil m, (sound_empty p.IsFresh).begin m⟩).2 pending t ⟨hw, ht⟩
      rw [IsFresh, hclosedForm, closedFormSlot.run_remember_compute _ rfl List.not_mem_nil, hsame]
      change _ = _ ↔ (body.run.run (Memo.empty.begin m)).1 = _
      cases hrun : body.run.run (Memo.empty.begin m) with
      | mk r t' => cases r <;> simp [hrun, closedFormSlot]

end Steady

/-! ### Between two questions -/

/-- The tables of closed forms between two questions. -/
abbrev Fresh (p : Program) (_ : Unit) (t : ClosedForms) : Prop :=
  t.Sound p.IsFresh []

theorem steady_fresh (p : Program) (m : Monomial) : (p.closedForm m).Steady p.Fresh :=
  (p.steady_closedForm m).mono (f := fun _ => []) (fun _ _ ht => ⟨waits_nil m, ht⟩)
    fun _ _ _ _ ht => ht.2

theorem steady_expected (p : Program) (e : Expr) : (p.expected e).Steady p.Fresh :=
  steady_combine (fun g _ => p.steady_fresh g.1) _

theorem steady_guardChange (p : Program) : p.guardChange.Steady p.Fresh :=
  (p.steady_expected p.guard).bind fun _ => Attempt.steady_pure _

theorem steady_deterministicValues (p : Program) (ss : List Symbol) :
    (p.deterministicValues ss).Steady p.Fresh := by
  induction ss with
  | nil => exact Attempt.steady_pure _
  | cons s ss ih =>
    rw [deterministicValues]
    split
    · exact (p.steady_fresh _).bind fun _ => ih.bind fun _ => Attempt.steady_pure _
    · exact ih

theorem steady_substDeterministic (p : Program) (e : Expr) :
    (p.substDeterministic e).Steady p.Fresh :=
  (p.steady_deterministicValues _).bind fun _ => Attempt.steady_pure _

section WellFormed

variable (hp : p.WellFormed)
include hp

theorem WellFormed.keeps_fresh {m : Monomial} (hm : m.Over p.vars) :
    (p.closedForm m).Keeps (p.Fresh ()) (p.closed m) :=
  (p.steady_fresh m).keeps_of_keeps ((hp.keeps_closedForm m hm).1 [] (waits_nil m))
    (i := ()) (s := .empty) (sound_empty _) (sound_empty _) ()

theorem WellFormed.keeps_fresh_substDeterministic {e : Expr} (he : e.Within p.vars) :
    (p.substDeterministic e).Keeps (p.Fresh ()) (p.settled e) :=
  (p.steady_substDeterministic e).keeps_of_keeps
    (hp.keeps_substDeterministic (isVar_freeSymbols he))
    (i := ()) (s := .empty) (sound_empty _) (sound_empty _) ()

end WellFormed

end Program

/-- The closed forms and branches of an analysis are right, none of them is pending, and the given
envelopes are. -/
structure Analysis.Coherent (p : Program) (pending : List Monomial) (a : Analysis) : Prop where
  closedForms : a.closedForms.Sound p.IsFresh []
  branches : a.branches.Sound p.HasBranches []
  pending_eq : a.envelopes.pending = pending

namespace Analysis

variable {p : Program} {pending : List Monomial}

theorem coherent_start (supply : Supply) : (start supply).Coherent p [] :=
  ⟨Program.sound_empty _, Program.sound_empty _, rfl⟩

theorem Coherent.with_supply {a : Analysis} (h : a.Coherent p pending) (s : Supply) :
    ({ a with supply := s } : Analysis).Coherent p pending :=
  ⟨h.closedForms, h.branches, h.pending_eq⟩

theorem Coherent.with_closedForms {a : Analysis} (h : a.Coherent p pending) {t : ClosedForms}
    (ht : t.Sound p.IsFresh []) : ({ a with closedForms := t } : Analysis).Coherent p pending :=
  ⟨ht, h.branches, h.pending_eq⟩

theorem Coherent.with_branches {a : Analysis} (h : a.Coherent p pending)
    {t : Memo Monomial (List Branch)} (ht : t.Sound p.HasBranches []) :
    ({ a with branches := t } : Analysis).Coherent p pending :=
  ⟨h.closedForms, ht, h.pending_eq⟩

theorem Coherent.with_envelopes {a : Analysis} (h : a.Coherent p pending)
    {t : Memo Monomial Envelope} {pending' : List Monomial} (ht : t.pending = pending') :
    ({ a with envelopes := t } : Analysis).Coherent p pending' :=
  ⟨h.closedForms, h.branches, ht⟩

end Analysis

namespace Program

open Analysis

variable {p : Program} {pending : List Monomial}

/-- Asking for branches changes nothing but the table of branches, and the answer is always that of the
enumeration of cases. -/
theorem run_branchesOf {a : Analysis} (h : a.branches.Sound p.HasBranches []) (m : Monomial) :
    ∃ t : Memo Monomial (List Branch), t.Sound p.HasBranches [] ∧
      (p.branchesOf m).run.run a = (p.branches m, { a with branches := t }) := by
  have hfresh : m ∉ (branchSlot.get a).pending := by
    rw [show (branchSlot.get a).pending = [] from h.pending_eq]
    exact List.not_mem_nil
  cases hf : (branchSlot.get a).get? m with
  | some bs =>
    rw [branchesOf, branchSlot.run_remember_hit _ hf]
    have hbs : p.branches m = .ok bs := h.entries _ (Assoc.mem_of_find? hf)
    rw [hbs]
    exact ⟨{ a.branches with hits := a.branches.hits + 1 }, ⟨h.entries, h.pending_eq⟩, rfl⟩
  | none =>
    rw [branchesOf, branchSlot.run_remember_compute _ hf hfresh]
    have hbegin : (a.branches.begin m).Sound p.HasBranches [m] := h.begin m
    cases hbranches : p.branches m with
    | error e => exact ⟨_, hbegin.release List.not_mem_nil, rfl⟩
    | ok bs => exact ⟨_, hbegin.insert List.not_mem_nil hbranches, rfl⟩

end Program

end ProbLoop
