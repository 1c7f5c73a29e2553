import Mathlib
import ProbLoop.Proofs.Expr.RealValue
import ProbLoop.Proofs.Follows

/-!
# Runs with real values

Draws and unknown initial values are real numbers. A run with real values is a limit of runs with rational
ones: assignments are polynomial, and the rational numbers of a range are dense in it.
-/

set_option autoImplicit false

namespace ProbLoop

open Filter Topology

/-! ### Real numbers in intervals -/

namespace Endpoint

def IsAtMost (x : ℝ) : Endpoint → Prop
  | negInf => True
  | finite q => (q : ℝ) ≤ x
  | posInf => False

def IsAtLeast (x : ℝ) : Endpoint → Prop
  | negInf => False
  | finite q => x ≤ (q : ℝ)
  | posInf => True

end Endpoint

/-- A real number lies in the interval. -/
def Interval.ContainsReal (i : Interval) (x : ℝ) : Prop :=
  i.low.IsAtMost x ∧ i.high.IsAtLeast x

/-- The rational numbers of an interval are dense in it. -/
theorem Interval.ContainsReal.exists_tendsto {i : Interval} {x : ℝ} (h : i.ContainsReal x) :
    ∃ f : ℕ → Rat, (∀ k, i.Contains (f k)) ∧ Tendsto (fun k => (f k : ℝ)) atTop (𝓝 x) := by
  obtain ⟨low, high⟩ := i
  obtain ⟨hlow, hhigh⟩ := h
  obtain ⟨g, hg⟩ := exists_rat_tendsto x
  have hbelow : ∀ b : Rat, x ≤ b → Tendsto (fun k => ((min (g k) b : Rat) : ℝ)) atTop (𝓝 x) := by
    intro b hb
    have hmin := hg.min (tendsto_const_nhds (x := (b : ℝ)))
    rw [min_eq_left hb] at hmin
    simpa only [Rat.cast_min] using hmin
  have habove : ∀ (a : Rat) (f : ℕ → Rat), (a : ℝ) ≤ x → Tendsto (fun k => (f k : ℝ)) atTop (𝓝 x) →
      Tendsto (fun k => ((max a (f k) : Rat) : ℝ)) atTop (𝓝 x) := by
    intro a f ha hf
    have hmax := (tendsto_const_nhds (x := (a : ℝ))).max hf
    rw [max_eq_right ha] at hmax
    simpa only [Rat.cast_max] using hmax
  cases low with
  | posInf => exact hlow.elim
  | negInf =>
    cases high with
    | negInf => exact hhigh.elim
    | finite b =>
      exact ⟨fun k => min (g k) b, fun k => by simp [Contains, Endpoint.le], hbelow b hhigh⟩
    | posInf => exact ⟨g, fun k => by simp [Contains, Endpoint.le], hg⟩
  | finite a =>
    cases high with
    | negInf => exact hhigh.elim
    | finite b =>
      have hab : a ≤ b := by exact_mod_cast le_trans (show (a : ℝ) ≤ x from hlow) hhigh
      exact ⟨fun k => max a (min (g k) b), fun k => by simp [Contains, Endpoint.le, hab],
        habove a _ hlow (hbelow b hhigh)⟩
    | posInf =>
      exact ⟨fun k => max a (g k), fun k => by simp [Contains, Endpoint.le], habove a g hlow hg⟩

/-! ### Runs -/

/-- A real value that may be assigned in a given state. -/
def Update.RealAssigns (u : Update) (x : RealValuation) (q : ℝ) : Prop :=
  match u with
  | .branches bs => ∃ b ∈ bs, q = b.1.realValue 0 x
  | .random (.unknown s) => q = x s
  | .random d => d.range.ContainsReal q

/-- What the assignments of a list may lead to with real values. -/
inductive RealAssignments : List Declaration → RealValuation → RealValuation → Prop
  | done (x : RealValuation) : RealAssignments [] x x
  | assign {d : Declaration} {rest : List Declaration} {x y : RealValuation} {q : ℝ}
      (assigned : d.update.RealAssigns x q)
      (after : RealAssignments rest (Function.update x d.symbol q) y) :
      RealAssignments (d :: rest) x y

theorem RealAssignments.eq_of_notMem {ds : List Declaration} {x y : RealValuation}
    (h : RealAssignments ds x y) {s : Symbol} (hs : s ∉ ds.map Declaration.symbol) : y s = x s := by
  induction h with
  | done x => rfl
  | @assign d rest x y q _ _ ih =>
    rw [List.map_cons, List.mem_cons, not_or] at hs
    rw [ih hs.2, Function.update_of_ne hs.1]

/-- The states with real values that may be reached after `n` iterations if the guard is ignored. -/
inductive Program.RealReaches (p : Program) : Nat → RealValuation → Prop
  | start {x : RealValuation}
      (initial : ∀ d ∈ p.declarations, d.initial.RealAssigns x (x d.symbol)) : RealReaches p 0 x
  | next {n : Nat} {x y : RealValuation} (before : RealReaches p n x)
      (iteration : RealAssignments p.declarations x y) : RealReaches p (n + 1) y

/-! ### Limits of rational runs -/

variable {among : Symbol → Prop} {u : ℕ → Valuation} {x : RealValuation}

/-- The values of an expression over variables approach its real value. -/
theorem Expr.Over.tendsto {vars : List Symbol} {e : Expr} (he : e.Over vars)
    (hvars : ∀ s ∈ vars, among s) (hu : Approach among u x) (n : Nat) :
    Tendsto (fun k => (e.value n (u k) : ℝ)) atTop (𝓝 (e.realValue n x)) :=
  Expr.tendsto_value
    (fun t ht q hq => Or.inr (hvars q.1 ((he.monomials t ht).mem_vars q hq))) hu n

namespace Program

variable {p : Program} (hp : p.WellFormed)
include hp

/-- An assignment of a real value is a limit of assignments of rational ones. -/
theorem WellFormed.exists_assigns_tendsto (hamong : ∀ s ∈ p.vars, among s) {d : Declaration}
    (hd : d ∈ p.declarations) (hu : Approach among u x) {q : ℝ} (h : d.update.RealAssigns x q) :
    ∃ f : ℕ → Rat, (∀ k, d.update.Assigns (u k) (f k)) ∧
      Tendsto (fun k => (f k : ℝ)) atTop (𝓝 q) := by
  obtain ⟨before, hbefore, hsolvable⟩ := hp.solvable.exists_solvable d hd
  have hvars : ∀ s ∈ d.symbol :: before, among s :=
    List.forall_mem_cons.mpr ⟨hamong _ (symbol_mem_vars d hd), fun s hs =>
      hamong s ((hbefore s hs).resolve_left List.not_mem_nil)⟩
  cases hupdate : d.update with
  | branches bs =>
    rw [hupdate] at hsolvable h
    obtain ⟨b, hb, rfl⟩ := h
    exact ⟨fun k => b.1.value 0 (u k), fun k => ⟨b, hb, rfl⟩,
      (hsolvable.2 b hb).reads.tendsto hvars hu 0⟩
  | random r =>
    rw [hupdate] at hsolvable h
    cases r with
    | unknown s => exact absurd rfl (hsolvable s)
    | _ => exact Interval.ContainsReal.exists_tendsto h

/-- An iteration with real values is a limit of iterations with rational ones. -/
theorem WellFormed.exists_assignments_approach (hamong : ∀ s ∈ p.vars, among s)
    {ds : List Declaration} (hds : ∀ d ∈ ds, d ∈ p.declarations) {y : RealValuation}
    (h : RealAssignments ds x y) (hu : Approach among u x) :
    ∃ w : ℕ → Valuation, (∀ k, Assignments ds (u k) (w k)) ∧ Approach among w y := by
  induction h generalizing u with
  | done x => exact ⟨u, fun k => .done (u k), hu⟩
  | @assign d rest x y q assigned after ih =>
    obtain ⟨hd, hrest⟩ := List.forall_mem_cons.mp hds
    obtain ⟨f, hf, hlimit⟩ := hp.exists_assigns_tendsto hamong hd hu assigned
    obtain ⟨w, hw, happroach⟩ := ih hrest (hu.set d.symbol hlimit)
    exact ⟨w, fun k => .assign (hf k) (hw k), happroach⟩

/-- An initial real value is a limit of initial rational ones, for rational values of the unknown
constants that approach the real ones. -/
theorem WellFormed.exists_initial_tendsto {d : Declaration} (hd : d ∈ p.declarations)
    (h : d.initial.RealAssigns x (x d.symbol)) {g : ℕ → Valuation}
    (hg : ∀ name, Tendsto (fun k => (g k (.real name) : ℝ)) atTop (𝓝 (x (.real name)))) :
    ∃ f : ℕ → Rat, Tendsto (fun k => (f k : ℝ)) atTop (𝓝 (x d.symbol)) ∧
      ∀ k (v : Valuation), (∀ name, v (.real name) = g k (.real name)) →
        d.initial.Assigns v (f k) := by
  have hstarts := hp.starts d hd
  cases hinitial : d.initial with
  | branches bs =>
    rw [hinitial] at hstarts h
    obtain ⟨b, hb, hvalue⟩ := h
    obtain ⟨c, hc⟩ := hstarts.2 b hb
    rw [hc, Expr.realValue_const] at hvalue
    refine ⟨fun _ => c, by simp [hvalue], fun k v _ => ⟨b, hb, ?_⟩⟩
    rw [hc, Expr.value_const]
  | random r =>
    rw [hinitial] at hstarts h
    cases r with
    | unknown s =>
      obtain ⟨name, rfl⟩ := hstarts s rfl
      have hvalue : x d.symbol = x (.real name) := h
      exact ⟨fun k => g k (.real name), by simpa [hvalue] using hg name,
        fun k v hv => (hv name).symm⟩
    | _ =>
      obtain ⟨f, hf, hlimit⟩ := Interval.ContainsReal.exists_tendsto h
      exact ⟨f, hlimit, fun k v _ => hf k⟩

variable {g : ℕ → Valuation}

/-- A state with real values before the first iteration is a limit of such states with rational ones,
with given values of what is not a variable. -/
theorem WellFormed.exists_isInitial_approach
    (hg : Approach (fun s => among s ∧ s ∉ p.vars) g x) (hreal : ∀ name, among (.real name))
    (h : ∀ d ∈ p.declarations, d.initial.RealAssigns x (x d.symbol)) :
    ∃ u : ℕ → Valuation, (∀ k, p.IsInitial (u k) ∧ ∀ s ∉ p.vars, u k s = g k s) ∧
      Approach among u x := by
  have hnone : ∀ s, p.declaration? s = none ↔ s ∉ p.vars := by
    intro s
    rw [declaration?, List.find?_eq_none, vars, List.mem_map, not_exists]
    simp
  have hconstant : ∀ name, Symbol.real name ∉ p.vars := fun name =>
    (hnone _).mp (declaration?_eq_none rfl)
  choose! f hf hassigns using fun d hd =>
    hp.exists_initial_tendsto hd (h d hd) fun name => hg _ ⟨hreal name, hconstant name⟩
  let u : ℕ → Valuation := fun k s => ((p.declaration? s).map fun d => f d k).getD (g k s)
  have hdeclared : ∀ d ∈ p.declarations, ∀ k, u k d.symbol = f d k := by
    intro d hd k
    simp only [u, hp.declaration?_eq hd, Option.map_some, Option.getD_some]
  have hother : ∀ s, s ∉ p.vars → ∀ k, u k s = g k s := by
    intro s hs k
    simp only [u, (hnone s).mpr hs, Option.map_none, Option.getD_none]
  refine ⟨u, fun k => ⟨fun d hd => ?_, fun s hs => hother s hs k⟩, fun s hs => ?_⟩
  · rw [hdeclared d hd]
    exact hassigns d hd k (u k) fun name => hother _ (hconstant name) k
  · cases hfind : p.declaration? s with
    | none =>
      have hnot := (hnone s).mp hfind
      simpa only [hother s hnot] using hg s ⟨hs, hnot⟩
    | some d =>
      have hd := List.mem_of_find?_eq_some hfind
      obtain rfl : d.symbol = s := by simpa using List.find?_some hfind
      simpa only [hdeclared d hd] using hf d hd

/-- A run with real values is a limit of runs with rational ones, with given values of what is not a
variable. -/
theorem WellFormed.exists_reaches_approach
    (hamong : ∀ s, s.isPositive = false → among s) {n : Nat} (h : p.RealReaches n x)
    (hg : Approach (fun s => among s ∧ s ∉ p.vars) g x) :
    ∃ u : ℕ → Valuation, (∀ k, p.Reaches n (u k) ∧ ∀ s ∉ p.vars, u k s = g k s) ∧
      Approach among u x := by
  have hvars : ∀ s ∈ p.vars, among s := by
    intro s hs
    obtain ⟨d, -, rfl⟩ := List.mem_map.mp hs
    exact hamong _ rfl
  induction h with
  | start initial =>
    obtain ⟨u, hu, happroach⟩ := hp.exists_isInitial_approach hg (fun _ => hamong _ rfl) initial
    exact ⟨u, fun k => ⟨.start (hu k).1, (hu k).2⟩, happroach⟩
  | @next n x y _ iteration ih =>
    obtain ⟨u, hu, happroach⟩ := ih fun s hs => by
      rw [← iteration.eq_of_notMem hs.2]
      exact hg s hs
    obtain ⟨w, hw, hlimit⟩ := hp.exists_assignments_approach hvars (fun _ hd => hd) iteration
      happroach
    exact ⟨w, fun k => ⟨.next (hu k).1 (hw k), fun s hs =>
      (eq_of_assignments (hw k) hs).trans ((hu k).2 s hs)⟩, hlimit⟩

end Program

end ProbLoop
