import ProbLoop.Proofs.Martingale
import ProbLoop.Proofs.Program.RealRun
import ProbLoop.Proofs.Session

/-!
# Deterministic variables in runs

After every iteration of every run a deterministic variable has the value of its closed form, also if
unknown initial values and draws are real numbers: both sides are limits of their values in rational runs.
Replacing these variables by their closed forms therefore keeps the value of every expression.
-/

set_option autoImplicit false

namespace ProbLoop

open Filter Topology

namespace Program

variable {p : Program} (hp : p.WellFormed) {n : Nat} {x : RealValuation}
include hp

/-- A run with real values is a limit of rational runs in which all symbols approach their values. -/
theorem WellFormed.exists_reaches_tendsto (hx : p.RealReaches n x) :
    ∃ u : ℕ → Valuation, (∀ k, p.Reaches n (u k)) ∧ Approach (fun _ => True) u x := by
  choose g hg using fun s => exists_rat_tendsto (x s)
  have hconstants : Approach (fun s => True ∧ s ∉ p.vars) (fun k s => g s k) x := fun s _ => hg s
  obtain ⟨u, hu, happroach⟩ := hp.exists_reaches_approach (fun _ _ => trivial) hx hconstants
  exact ⟨u, fun k => (hu k).1, happroach⟩

/-- Two expressions with the same values in all rational runs have the same values in all runs. -/
theorem WellFormed.realValue_eq_of_reaches (hx : p.RealReaches n x) {a b : Expr}
    (h : ∀ v, p.Reaches n v → a.value n v = b.value n v) : a.realValue n x = b.realValue n x := by
  obtain ⟨u, hu, happroach⟩ := hp.exists_reaches_tendsto hx
  have hlimit : ∀ e : Expr,
      Tendsto (fun k => (e.value n (u k) : ℝ)) atTop (𝓝 (e.realValue n x)) :=
    fun e => Expr.tendsto_value (fun _ _ _ _ => Or.inr trivial) happroach n
  have hsame : (fun k => (a.value n (u k) : ℝ)) = fun k => (b.value n (u k) : ℝ) :=
    funext fun k => by rw [h _ (hu k)]
  exact tendsto_nhds_unique (hlimit a) (hsame ▸ hlimit b)

/-- A deterministic variable has the value of its closed form. -/
theorem WellFormed.realValue_closed_of_determined (hx : p.RealReaches n x) (hn : 1 ≤ n)
    {s : Symbol} (hs : s ∈ p.determined) :
    x s = (p.closed (.ofSymbol s 1)).realValue n x := by
  have hvalue := hp.realValue_eq_of_reaches hx (a := .ofSymbol s) (b := p.closed (.ofSymbol s 1))
    fun v hv => by
      rw [Expr.value_ofSymbol, ← hp.follows hv hs (Or.inl hn)]
      obtain ⟨d, -, rfl⟩ := List.mem_map.mp (mem_vars_of_mem_determined hs)
      rfl
  obtain ⟨d, -, rfl⟩ := List.mem_map.mp (mem_vars_of_mem_determined hs)
  rw [← hvalue, Expr.realValue_ofSymbol]
  rfl

/-- Replacing the deterministic variables keeps the value of an expression. -/
theorem WellFormed.realValue_settled (hx : p.RealReaches n x) (hn : 1 ≤ n) {e : Expr}
    (he : e.Within p.vars) : (p.settled e).realValue n x = e.realValue n x :=
  hp.realValue_eq_of_reaches hx fun _ hv =>
    value_settled he fun _ hs hdet => hp.follows hv (mem_determined.mpr ⟨hs, hdet⟩) (Or.inl hn)

end Program

namespace Session

open Analysis

end Session

end ProbLoop
