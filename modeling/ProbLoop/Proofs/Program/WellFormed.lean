import ProbLoop.Proofs.Program.Checks

/-!
# Well-formed programs

What the check of a draft establishes: every variable is declared once, an update mentions its own
variable at most linearly with a number as its coefficient and otherwise only variables that are
updated before, and a choice is a probability distribution.
-/

set_option autoImplicit false

namespace ProbLoop

/-- Positive probabilities that add up to one. -/
def IsChoice (bs : List (Expr × Rat)) : Prop :=
  (∀ b ∈ bs, 0 < b.2) ∧ (bs.map (·.2)).sum = 1

/-- An expression that a variable may be assigned when the given variables have been updated. -/
structure Expr.Assignable (s : Symbol) (earlier : List Symbol) (e : Expr) : Prop where
  reads : e.Over (s :: earlier)
  linear : ∀ t ∈ e.terms, t.1.powerOf s = 0 ∨ t.1 = Monomial.ofSymbol s 1

namespace Update

/-- An update whose moments satisfy linear recurrences. -/
def Solvable (s : Symbol) (earlier : List Symbol) : Update → Prop
  | .branches bs => IsChoice bs ∧ ∀ b ∈ bs, b.1.Assignable s earlier
  | .random d => ∀ x, d ≠ .unknown x

/-- A number, a choice of numbers, a draw or an unknown real constant. -/
def Starts : Update → Prop
  | .branches bs => IsChoice bs ∧ ∀ b ∈ bs, ∃ q, b.1 = .const q
  | .random d => ∀ x, d = .unknown x → ∃ name, x = .real name

/-- An update that was read with the given symbols as names. -/
def Over (vars : List Symbol) : Update → Prop
  | .branches bs => ∀ b ∈ bs, b.1.Over vars
  | .random d => ∀ x, d ≠ .unknown x

end Update

/-- Every update is solvable after those before it. -/
def SolvableFrom : List Symbol → List Declaration → Prop
  | _, [] => True
  | earlier, d :: rest =>
    d.update.Solvable d.symbol earlier ∧ SolvableFrom (d.symbol :: earlier) rest

/-- Each update is solvable after some of the variables. -/
theorem SolvableFrom.exists_solvable {earlier : List Symbol} {ds : List Declaration}
    (hs : SolvableFrom earlier ds) : ∀ d ∈ ds, ∃ before,
      (∀ s ∈ before, s ∈ earlier ∨ s ∈ ds.map Declaration.symbol) ∧
        d.update.Solvable d.symbol before := by
  induction ds generalizing earlier with
  | nil => simp
  | cons c ds ih =>
    refine List.forall_mem_cons.mpr ⟨⟨earlier, fun s hs' => Or.inl hs', hs.1⟩, fun d hd => ?_⟩
    obtain ⟨before, hbefore, hsolvable⟩ := ih hs.2 d hd
    refine ⟨before, fun s hs' => ?_, hsolvable⟩
    rw [List.map_cons, List.mem_cons]
    rcases hbefore s hs' with hearlier | hlater
    · rcases List.mem_cons.mp hearlier with rfl | hearlier
      · exact Or.inr (Or.inl rfl)
      · exact Or.inl hearlier
    · exact Or.inr (Or.inr hlater)

structure Program.WellFormed (p : Program) : Prop where
  nodup : p.vars.Nodup
  solvable : SolvableFrom [] p.declarations
  starts : ∀ d ∈ p.declarations, d.initial.Starts
  guard : p.guard.Over p.vars

/-- What the check of a draft establishes, in terms of the checks themselves. -/
structure Program.Checked (p : Program) : Prop extends p.WellFormed where
  updates : Draft.checkUpdates [] (p.declarations.map fun d => (d.name, d.update)) = .ok ()
  initial : ∀ d ∈ p.declarations, Draft.checkInitial d.name d.initial = .ok ()
  reads : Draft.checkGuard (p.declarations.map (·.name)) p.guard.freeSymbols = .ok ()
  unknown : ∀ d ∈ p.declarations, ∀ s, d.initial = .random (.unknown s) →
    d.initial = Draft.unknownInitial d.name

namespace Program

/-- The first declaration of a name is the only one. -/
theorem find?_eq_some_of_nodup {ds : List Declaration}
    (hn : (ds.map Declaration.symbol).Nodup) {d : Declaration} (hd : d ∈ ds) :
    ds.find? (fun c => c.symbol == d.symbol) = some d := by
  induction ds with
  | nil => exact absurd hd List.not_mem_nil
  | cons c ds ih =>
    rw [List.map_cons, List.nodup_cons] at hn
    rcases List.mem_cons.mp hd with rfl | hd
    · simp
    · have hne : ¬c.symbol = d.symbol := fun h => hn.1 (h ▸ List.mem_map_of_mem hd)
      rw [List.find?_cons_of_neg (by simpa using hne)]
      exact ih hn.2 hd

/-- Only variables are declared. -/
theorem declaration?_eq_none {p : Program} {s : Symbol} (hs : s.isVar = false) :
    p.declaration? s = none := by
  refine List.find?_eq_none.mpr fun d _ heq => ?_
  rw [← beq_iff_eq.mp heq] at hs
  simp [Declaration.symbol, Symbol.isVar] at hs

theorem WellFormed.declaration?_eq {p : Program} (hp : p.WellFormed) {d : Declaration}
    (hd : d ∈ p.declarations) : p.declaration? d.symbol = some d :=
  find?_eq_some_of_nodup hp.nodup hd

theorem WellFormed.initial?_eq {p : Program} (hp : p.WellFormed) {d : Declaration}
    (hd : d ∈ p.declarations) : p.initial? d.symbol = some d.initial := by
  rw [initial?, hp.declaration?_eq hd, Option.map_some]

end Program

namespace Draft

theorem isChoice_of_check {name : String} {earlier : List String} {bs : List (Expr × Rat)}
    (h : checkUpdate name earlier (.branches bs) = .ok ()) : IsChoice bs :=
  (checkUpdate_branches_eq_ok_iff.mp h).1.imp_left fun hb b hmem => (hb b hmem).1

theorem assignable_of_check {name : String} {earlier : List String} {e : Expr}
    {vars : List Symbol} (hv : ∀ s ∈ vars, s.isVar = true) (he : e.Over vars)
    (h : checkBranch name earlier e = .ok ()) :
    e.Assignable (.var name) (earlier.map .var) := by
  obtain ⟨-, hreads, haffine⟩ := (checkBranch_eq_ok_iff he.canonical).mp h
  exact ⟨he.of_freeSymbols hv fun s hs => by simpa using hreads s hs, haffine⟩

theorem solvable_of_check {name : String} {earlier : List String} {u : Update}
    {vars : List Symbol} (hv : ∀ s ∈ vars, s.isVar = true) (hu : u.Over vars)
    (h : checkUpdate name earlier u = .ok ()) : u.Solvable (.var name) (earlier.map .var) := by
  cases u with
  | random d => exact hu
  | branches bs =>
    exact ⟨isChoice_of_check h, fun b hb => assignable_of_check hv (hu b hb)
      ((checkUpdate_branches_eq_ok_iff.mp h).2 b hb)⟩

theorem starts_of_check {name : String} {u : Update} {vars : List Symbol} (hu : u.Over vars)
    (h : checkInitial name u = .ok ()) : u.Starts := by
  cases u with
  | random d => exact fun x hx => absurd hx (hu x)
  | branches bs =>
    exact ((checkInitial_branches_eq_ok_iff fun b hb => (hu b hb).toOrdered).mp h).imp_left
      fun hchoice => hchoice.imp_left fun hb b hmem => (hb b hmem).1

theorem names_constants (d : Draft) :
    d.constants.map (·.1) = distinct ((d.initial.map (·.1)).filter
      (fun s => !(d.updates.map (·.1)).contains s)) := by
  rw [constants, List.map_map]
  exact List.map_id' _

theorem nodup_names {d : Draft} (h : repeated? [] (d.updates.map (·.1)) = none) :
    ((d.constants ++ d.updates).map (·.1)).Nodup := by
  rw [List.map_append, names_constants]
  refine List.nodup_append.mpr
    ⟨nodup_distinct _, (repeated?_eq_none_iff.mp h).1, fun s hs t ht hst => ?_⟩
  have hs := (List.mem_filter.mp (mem_distinct.mp hs)).2
  simp only [Bool.not_eq_true', List.contains_eq_mem, decide_eq_false_iff_not] at hs
  exact hs (hst ▸ ht)

theorem solvableFrom_of_check {vars : List Symbol} (hv : ∀ s ∈ vars, s.isVar = true)
    {declare : String × Update → Update} {earlier : List String} {us : List (String × Update)}
    (hu : ∀ u ∈ us, u.2.Over vars) (h : checkUpdates earlier us = .ok ()) :
    SolvableFrom (earlier.map .var) (us.map fun u => ⟨u.1, declare u, u.2⟩) := by
  induction us generalizing earlier with
  | nil => trivial
  | cons u us ih =>
    have hus := List.forall_mem_cons.mp hu
    obtain ⟨hc, h⟩ := except_check_eq_ok.mp h
    exact ⟨solvable_of_check hv hus.1 hc, ih hus.2 h⟩

/-- Every variable of a program that was built is declared once. -/
theorem nodup_vars_of_build {d : Draft} {p : Program} (h : d.build = .ok p) :
    p.vars = ((d.constants ++ d.updates).map (·.1)).map .var ∧ p.vars.Nodup := by
  obtain ⟨guard, -, hrep, -, -, -, rfl⟩ := build_eq_ok_iff.mp h
  have hvars : Program.vars ⟨(d.constants ++ d.updates).map
      fun u => ⟨u.1, d.initialOf u.1, u.2⟩, guard⟩ =
      ((d.constants ++ d.updates).map (·.1)).map .var := by
    rw [Program.vars, List.map_map, List.map_map]
    rfl
  refine ⟨hvars, ?_⟩
  rw [hvars]
  exact (nodup_names hrep).map fun _ _ h => Symbol.var.inj h

/-- An initial value is unknown if none is given. -/
theorem initialOf_cases (d : Draft) (s : String) :
    d.initialOf s = unknownInitial s ∨ (s, d.initialOf s) ∈ d.initial := by
  rw [initialOf]
  cases hfind : Assoc.find? s d.initial.reverse with
  | none => exact Or.inl rfl
  | some i => exact Or.inr (List.mem_reverse.mp (Assoc.mem_of_find? hfind))

/-- Where the update and the initial value of a declared variable come from. -/
theorem mem_of_build {d : Draft} {p : Program} (h : d.build = .ok p) {c : Declaration}
    (hc : c ∈ p.declarations) : (c.name, c.update) ∈ d.constants ++ d.updates ∧
      (c.initial = unknownInitial c.name ∨ (c.name, c.initial) ∈ d.initial) := by
  obtain ⟨guard, -, -, -, -, -, rfl⟩ := build_eq_ok_iff.mp h
  obtain ⟨u, hu, rfl⟩ := List.mem_map.mp hc
  exact ⟨hu, d.initialOf_cases u.1⟩

/-- The update of a constant is that of itself, and its name is among the initial values. -/
theorem exists_initial_of_mem_constants {d : Draft} {u : String × Update}
    (hu : u ∈ d.constants) :
    u.2 = .deterministic (.ofSymbol (.var u.1)) ∧ ∃ i ∈ d.initial, i.1 = u.1 := by
  obtain ⟨s, hs, rfl⟩ := List.mem_map.mp hu
  have hs := List.mem_filter.mp (mem_distinct.mp hs)
  obtain ⟨i, hi, rfl⟩ := List.mem_map.mp hs.1
  exact ⟨rfl, i, hi, rfl⟩

/-- A draft whose expressions were read with variables as names is a well-formed program if it passes
the check. -/
theorem wellFormed_of_build {d : Draft} {p : Program} {vars : List Symbol}
    (hv : ∀ s ∈ vars, s.isVar = true) (hi : ∀ i ∈ d.initial, i.2.Over vars ∧ .var i.1 ∈ vars)
    (hu : ∀ u ∈ d.updates, u.2.Over vars) (hg : ∀ g ∈ d.guard, g.Over vars)
    (h : d.build = .ok p) : p.WellFormed := by
  obtain ⟨hvars, hnodup⟩ := nodup_vars_of_build h
  obtain ⟨guard, hguard, -, hupdates, hinitial, hcheck, rfl⟩ := build_eq_ok_iff.mp h
  refine ⟨hnodup, ?_, ?_, ?_⟩
  · have hover : ∀ u ∈ d.constants ++ d.updates, u.2.Over vars := by
      intro u hm
      rcases List.mem_append.mp hm with hm | hm
      · obtain ⟨hu, i, hmem, hname⟩ := exists_initial_of_mem_constants hm
        rw [hu]
        intro b hb
        obtain rfl := List.mem_singleton.mp hb
        exact Expr.over_ofSymbol (hname ▸ (hi i hmem).2)
      · exact hu u hm
    exact solvableFrom_of_check hv hover hupdates
  · intro e he
    obtain ⟨u, -, rfl⟩ := List.mem_map.mp he
    change (d.initialOf u.1).Starts
    rcases d.initialOf_cases u.1 with h | hm
    · rw [h]
      exact fun x hx => ⟨_, (Distribution.unknown.inj hx).symm⟩
    · exact starts_of_check (hi _ hm).1 (except_forM_eq_ok_iff.mp hinitial _ hm)
  · rw [hvars]
    refine (hg guard hguard).of_freeSymbols hv fun s hs => ?_
    exact List.mem_map_of_mem ((checkGuard_eq_ok_iff.mp hcheck).2 s hs)

/-- A draft whose expressions were read with variables as names is a checked program if it passes the
check. -/
theorem checked_of_build {d : Draft} {p : Program} {vars : List Symbol}
    (hv : ∀ s ∈ vars, s.isVar = true) (hi : ∀ i ∈ d.initial, i.2.Over vars ∧ .var i.1 ∈ vars)
    (hu : ∀ u ∈ d.updates, u.2.Over vars) (hg : ∀ g ∈ d.guard, g.Over vars)
    (h : d.build = .ok p) : p.Checked := by
  have hwellFormed := wellFormed_of_build hv hi hu hg h
  obtain ⟨guard, -, -, hupdates, hinitial, hguard, rfl⟩ := build_eq_ok_iff.mp h
  have hassigned : ((d.constants ++ d.updates).map fun u =>
      (⟨u.1, d.initialOf u.1, u.2⟩ : Declaration)).map (fun c => (c.name, c.update)) =
      d.constants ++ d.updates := by
    rw [List.map_map]
    exact List.map_id' _
  have hnames : ((d.constants ++ d.updates).map fun u =>
      (⟨u.1, d.initialOf u.1, u.2⟩ : Declaration)).map (·.name) =
      (d.constants ++ d.updates).map (·.1) := List.map_map
  refine ⟨hwellFormed, ?_, List.forall_mem_map.mpr fun u _ => ?_, ?_,
    List.forall_mem_map.mpr fun u _ s hs => ?_⟩
  · rw [hassigned]
    exact hupdates
  · rcases d.initialOf_cases u.1 with h | h
    · exact congrArg (checkInitial u.1) h
    · exact except_forM_eq_ok_iff.mp hinitial _ h
  · rw [hnames]
    exact hguard
  · rcases d.initialOf_cases u.1 with h | h
    · exact h
    · exact absurd rfl ((hs ▸ (hi _ h).1 : (Update.random (.unknown s)).Over vars) s)

end Draft

end ProbLoop
