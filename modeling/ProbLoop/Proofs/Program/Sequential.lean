import ProbLoop.Proofs.Expr.Unique
import ProbLoop.Proofs.Expr.Within
import ProbLoop.Proofs.Program.WellFormed

/-!
# Updates in order

Unfolding an expression over an iteration needs less of a program than its analysis does: an update
reads its own variable and variables that are updated before it, and no counter. Its branches may be
polynomials of any degree and may mention constants.
-/

set_option autoImplicit false

namespace ProbLoop

namespace Expr

variable {vars : List Symbol} {e : Expr}

/-- The value of an expression depends on its variables and on constants alone. -/
theorem Within.value_congr (he : e.Within vars) {v w : Valuation}
    (h : ∀ s, (s.isVar = true → s ∈ vars) → v s = w s) (n : Nat) : e.value n v = e.value n w := by
  rw [value_eq_sum, value_eq_sum]
  refine congrArg List.sum (List.map_congr_left fun t ht => ?_)
  have hpowers : Monomial.powerProduct (Symbol.value n v) t.1.powers =
      Monomial.powerProduct (Symbol.value n w) t.1.powers := by
    apply Monomial.powerProduct_congr
    intro q hq
    have hsame := h q.1 ((he.within t ht).mem_vars q hq)
    cases hs : q.1 with
    | counter => rfl
    | _ => rw [hs] at hsame; exact hsame
  rw [Monomial.value_eq, Monomial.value_eq, hpowers]

/-- An expression that does not depend on the counter has the same value in all iterations. -/
theorem Canonical.still_of_freeSymbols (he : e.Canonical) (h : Symbol.counter ∉ e.freeSymbols) :
    e.Still := by
  refine ⟨he, fun t ht => ⟨?_, List.any_eq_false.mpr fun q hq hcounter => ?_⟩⟩
  · by_contra hbase
    have hexponential : t.1.isExponential = true := by simpa [Monomial.isExponential] using hbase
    exact h (mem_freeSymbols_iff.mpr
      ⟨t, ht, mem_monomialSymbols_iff.mpr (Or.inl ⟨rfl, hexponential⟩)⟩)
  · have hfree := mem_freeSymbols ht hq
    rw [beq_iff_eq.mp hcounter] at hfree
    exact h hfree

end Expr

namespace Update

/-- An update whose branches are canonical. -/
def Canonical (u : Update) : Prop :=
  ∀ bs, u = .branches bs → ∀ b ∈ bs, b.1.Canonical

/-- An update that reads its own variable and those before it. -/
def Reads (s : Symbol) (earlier : List Symbol) (u : Update) : Prop :=
  ∀ bs, u = .branches bs → IsChoice bs ∧ ∀ b ∈ bs, b.1.Within (s :: earlier) ∧ b.1.Still

theorem Solvable.reads {s : Symbol} {earlier : List Symbol} {u : Update}
    (hu : u.Solvable s earlier) (hcounter : Symbol.counter ∉ s :: earlier) :
    u.Reads s earlier := by
  rintro bs rfl
  refine ⟨hu.1, fun b hb => ?_⟩
  have hover := (hu.2 b hb).reads
  exact ⟨hover.within, hover.canonical, hover.isStill hcounter⟩

end Update

/-- Every update reads its own variable and those before it. -/
def ReadsFrom : List Symbol → List Declaration → Prop
  | _, [] => True
  | earlier, d :: rest => d.update.Reads d.symbol earlier ∧ ReadsFrom (d.symbol :: earlier) rest

theorem SolvableFrom.reads {earlier : List Symbol} {ds : List Declaration}
    (hs : SolvableFrom earlier ds) (hcounter : Symbol.counter ∉ earlier) : ReadsFrom earlier ds := by
  induction ds generalizing earlier with
  | nil => trivial
  | cons d ds ih =>
    have hd : Symbol.counter ∉ d.symbol :: earlier := by simpa [Declaration.symbol] using hcounter
    exact ⟨hs.1.reads hd, ih hs.2 hd⟩

/-- A program whose updates can be made one after the other. -/
structure Program.Sequential (p : Program) : Prop where
  nodup : p.vars.Nodup
  reads : ReadsFrom [] p.declarations

theorem Program.WellFormed.sequential {p : Program} (hp : p.WellFormed) : p.Sequential :=
  ⟨hp.nodup, hp.solvable.reads List.not_mem_nil⟩

namespace Draft

/-- A draft whose updates are canonical, as every expression is that was computed. -/
def Canonical (d : Draft) : Prop :=
  ∀ u ∈ d.updates, u.2.Canonical

theorem reads_of_check {name : String} {earlier : List String} {u : Update} (hu : u.Canonical)
    (h : checkUpdate name earlier u = .ok ()) : u.Reads (.var name) (earlier.map .var) := by
  rintro bs rfl
  refine ⟨isChoice_of_check h, fun b hmem => ?_⟩
  have he := hu bs rfl b hmem
  obtain ⟨hcounter, hreads, -⟩ :=
    (checkBranch_eq_ok_iff he).mp ((checkUpdate_branches_eq_ok_iff.mp h).2 b hmem)
  refine ⟨⟨he.toOrdered, fun t ht => ⟨he.monomials t ht, fun q hq hvar => ?_⟩⟩,
    he.still_of_freeSymbols hcounter⟩
  have hfree := Expr.mem_freeSymbols ht hq
  cases hname : q.1 with
  | var s =>
    rw [hname] at hfree
    simpa using hreads s hfree
  | _ => simp [hname, Symbol.isVar] at hvar

theorem readsFrom_of_check {declare : String × Update → Update} {earlier : List String}
    {us : List (String × Update)} (hu : ∀ u ∈ us, u.2.Canonical)
    (h : checkUpdates earlier us = .ok ()) :
    ReadsFrom (earlier.map .var) (us.map fun u => ⟨u.1, declare u, u.2⟩) := by
  induction us generalizing earlier with
  | nil => trivial
  | cons u us ih =>
    have hus := List.forall_mem_cons.mp hu
    obtain ⟨hc, h⟩ := except_check_eq_ok.mp h
    exact ⟨reads_of_check hus.1 hc, ih hus.2 h⟩

/-- The updates of a program that was built can be made one after the other. -/
theorem Canonical.sequential {d : Draft} {p : Program} (hd : d.Canonical) (h : d.build = .ok p) :
    p.Sequential := by
  obtain ⟨-, hnodup⟩ := nodup_vars_of_build h
  obtain ⟨guard, -, -, hupdates, -, -, rfl⟩ := build_eq_ok_iff.mp h
  have hcanonical : ∀ u ∈ d.constants ++ d.updates, u.2.Canonical := by
    intro u hu
    rcases List.mem_append.mp hu with hu | hu
    · rw [(exists_initial_of_mem_constants hu).1]
      intro bs hbs b hb
      obtain rfl := Update.branches.inj hbs
      rw [List.mem_singleton.mp hb]
      exact Expr.canonical_ofSymbol _
    · exact hd u hu
  exact ⟨hnodup, readsFrom_of_check hcanonical hupdates⟩

end Draft

end ProbLoop
