import Mathlib.Logic.Relation
import Mathlib.Order.Bounds.Basic
import ProbLoop.Proofs.Program.Determined

/-!
# Ancestors

An update mentions its own variable and variables that are updated before it. One pass over the updates
therefore finds every variable from which a value is computed in one step or in several, and every
variable that depends on chance.
-/

set_option autoImplicit false

namespace ProbLoop

namespace SymbolSet

theorem mem_toList_insert {s t : Symbol} {set : SymbolSet} :
    s ∈ (insert t set).toList ↔ s = t ∨ s ∈ set.toList := by
  unfold insert Expr.addSymbol toList
  induction set with
  | nil => simp [Assoc.alter, Assoc.consSome]
  | cons q set ih =>
    rw [Assoc.alter]
    split
    · simp [Assoc.consSome]
    · next heq =>
      have hq : t = q.1 := Std.LawfulEqCmp.eq_of_compare heq
      simp [Assoc.consSome, hq]
    · rw [List.map_cons, List.mem_cons, ih, List.map_cons, List.mem_cons, or_left_comm]

theorem mem_toList_union {s : Symbol} {a b : SymbolSet} :
    s ∈ (a.union b).toList ↔ s ∈ a.toList ∨ s ∈ b.toList := by
  unfold union
  induction b generalizing a with
  | nil => simp [toList]
  | cons q b ih =>
    rw [List.foldl_cons, ih, mem_toList_insert, or_assoc]
    simp only [toList, List.map_cons, List.mem_cons]
    exact or_left_comm

theorem mem_toList_ofList {s : Symbol} {ss : List Symbol} : s ∈ (ofList ss).toList ↔ s ∈ ss := by
  constructor
  · intro h
    obtain ⟨q, hq, rfl⟩ := List.mem_map.mp h
    exact mem_of_mem_ofList hq
  · intro h
    obtain ⟨q, hq, rfl⟩ := mem_ofList h
    exact List.mem_map_of_mem hq

theorem meets_iff {a b : SymbolSet} : a.meets b = true ↔ ∃ s ∈ a.toList, s ∈ b.toList := by
  simp [meets, toList]

end SymbolSet

/-- The branches of the update mention the variable. -/
def Update.Mentions (u : Update) (s : Symbol) : Prop :=
  ∃ bs, u = .branches bs ∧ s.isVar = true ∧ ∃ b ∈ bs, b.1.mentions s = true

theorem Update.mem_parents_iff {u : Update} {s : Symbol} :
    s ∈ u.parents.toList ↔ u.Mentions s := by
  cases u with
  | random d => exact iff_of_false List.not_mem_nil (by rintro ⟨bs, h, -⟩; cases h)
  | branches bs =>
    rw [parents, SymbolSet.mem_toList_ofList, List.mem_filter, List.mem_flatMap, and_comm]
    simp only [← Expr.mentions_iff]
    constructor
    · exact fun h => ⟨bs, rfl, h⟩
    · rintro ⟨_, ⟨⟩, h⟩
      exact h

namespace Program

variable {p : Program} {v w : Symbol} {before after : List Declaration} {d : Declaration}

/-- The update of the first variable mentions the second. -/
def Mentions (p : Program) (v w : Symbol) : Prop :=
  ∃ d ∈ p.declarations, d.symbol = v ∧ d.update.Mentions w

/-- Every variable is declared once, and updates mention nothing that is updated later. -/
structure Layered (p : Program) : Prop where
  nodup : p.vars.Nodup
  mentions : ∀ before d after, p.declarations = before ++ d :: after → ∀ s, d.update.Mentions s →
    s = d.symbol ∨ s ∈ before.map Declaration.symbol

theorem Layered.mentions_iff (hp : p.Layered) (hd : d ∈ p.declarations) :
    p.Mentions d.symbol w ↔ d.update.Mentions w := by
  constructor
  · rintro ⟨c, hc, heq, h⟩
    rwa [← List.inj_on_of_nodup_map hp.nodup hc hd heq]
  · exact fun h => ⟨d, hd, rfl, h⟩

/-! ### Ancestors -/

/-- The ancestors of a variable, if those of the variables before it are known. -/
def ancestorsAfter (table : List (Symbol × SymbolSet)) (d : Declaration) : SymbolSet :=
  d.update.parents.foldl (fun acc q =>
    if q.1 = d.symbol then acc
    else acc.union ((Assoc.find? q.1 table).getD [])) d.update.parents

def ancestorsFrom (ds : List Declaration) : List (Symbol × SymbolSet) :=
  ds.foldl (fun table d => table ++ [(d.symbol, ancestorsAfter table d)]) []

theorem ancestorsFrom_concat (ds : List Declaration) (d : Declaration) :
    ancestorsFrom (ds ++ [d]) =
      ancestorsFrom ds ++ [(d.symbol, ancestorsAfter (ancestorsFrom ds) d)] := by
  rw [ancestorsFrom, List.foldl_append]
  rfl

theorem map_ancestorsFrom (ds : List Declaration) :
    (ancestorsFrom ds).map (·.1) = ds.map Declaration.symbol := by
  induction ds using List.reverseRecOn with
  | nil => rfl
  | append_singleton ds d ih => simp [ancestorsFrom_concat, ih]

theorem mem_ancestorsAfter {table : List (Symbol × SymbolSet)} :
    w ∈ (ancestorsAfter table d).toList ↔ d.update.Mentions w ∨
      ∃ u, d.update.Mentions u ∧ u ≠ d.symbol ∧ w ∈ ((Assoc.find? u table).getD []).toList := by
  have hfold : ∀ (qs acc : SymbolSet),
      w ∈ (qs.foldl (fun (acc : SymbolSet) q => if q.1 = d.symbol then acc
        else acc.union ((Assoc.find? q.1 table).getD [])) acc).toList ↔
      w ∈ acc.toList ∨
        ∃ u ∈ qs.toList, u ≠ d.symbol ∧ w ∈ ((Assoc.find? u table).getD []).toList := by
    intro qs
    induction qs with
    | nil => simp [SymbolSet.toList]
    | cons q qs ih =>
      intro acc
      rw [List.foldl_cons, ih]
      by_cases hq : q.1 = d.symbol
      · simp [hq, SymbolSet.toList]
      · rw [if_neg hq, SymbolSet.mem_toList_union, or_assoc]
        simp [hq, SymbolSet.toList]
  rw [ancestorsAfter, hfold]
  simp only [Update.mem_parents_iff]

theorem find?_append (table more : List (Symbol × SymbolSet)) :
    Assoc.find? v (table ++ more) = (Assoc.find? v table).or (Assoc.find? v more) := by
  induction table with
  | nil => rfl
  | cons q table ih =>
    rw [List.cons_append, Assoc.find?, Assoc.find?, ih]
    split <;> rfl

/-- One pass: the ancestors of a variable are those that it mentions and their ancestors. A variable
that mentions itself gains nothing by that. -/
theorem Layered.mem_ancestorsAfter (hp : p.Layered) (hds : p.declarations = before ++ d :: after)
    (hbefore : ∀ v ∈ before.map Declaration.symbol, ∀ w,
      w ∈ ((Assoc.find? v (ancestorsFrom before)).getD []).toList ↔
        Relation.TransGen p.Mentions v w) :
    w ∈ (ancestorsAfter (ancestorsFrom before) d).toList ↔
      Relation.TransGen p.Mentions d.symbol w := by
  have hd : d ∈ p.declarations := by simp [hds]
  have hstep : ∀ u, p.Mentions d.symbol u → d.update.Mentions u ∧
      (u = d.symbol ∨ u ∈ before.map Declaration.symbol) := fun u h => by
    have hu := (hp.mentions_iff hd).mp h
    exact ⟨hu, hp.mentions before d after hds u hu⟩
  rw [Program.mem_ancestorsAfter]
  constructor
  · rintro (h | ⟨u, hu, hne, h⟩)
    · exact .single ((hp.mentions_iff hd).mpr h)
    · have hmem := (hp.mentions before d after hds u hu).resolve_left hne
      exact .head ((hp.mentions_iff hd).mpr hu) ((hbefore u hmem w).mp h)
  · intro h
    -- Along the path: what is mentioned by an ancestor is an ancestor.
    induction h with
    | single h => exact Or.inl (hstep _ h).1
    | @tail u w _ huw ih =>
      rcases ih with hu | ⟨c, hc, hne, hcu⟩
      · rcases hp.mentions before d after hds u hu with rfl | hmem
        · exact Or.inl (hstep _ huw).1
        · by_cases hself : u = d.symbol
          · exact Or.inl (hstep _ (hself ▸ huw)).1
          · exact Or.inr ⟨u, hu, hself, (hbefore u hmem w).mpr (.single huw)⟩
      · have hmem := (hp.mentions before d after hds c hc).resolve_left hne
        exact Or.inr ⟨c, hc, hne, (hbefore c hmem w).mpr (((hbefore c hmem u).mp hcu).tail huw)⟩

theorem Layered.mem_ancestorsFrom (hp : p.Layered) (hds : p.declarations = before ++ after)
    (hv : v ∈ before.map Declaration.symbol) :
    w ∈ ((Assoc.find? v (ancestorsFrom before)).getD []).toList ↔
      Relation.TransGen p.Mentions v w := by
  induction before using List.reverseRecOn generalizing after v w with
  | nil => exact absurd hv List.not_mem_nil
  | append_singleton before d ih =>
    rw [List.append_assoc, List.singleton_append] at hds
    have hbefore : ∀ v ∈ before.map Declaration.symbol, ∀ w, _ := fun v hv w => ih (w := w) hds hv
    have hkeys : ∀ q ∈ ancestorsFrom before, q.1 ∈ before.map Declaration.symbol := fun q hq =>
      map_ancestorsFrom before ▸ List.mem_map_of_mem hq
    rw [ancestorsFrom_concat, find?_append]
    rcases List.mem_append.mp (List.map_append ▸ hv) with hv | hv
    · have hsome : Assoc.find? v (ancestorsFrom before) ≠ none := fun hnone =>
        Assoc.notMem_of_find?_eq_none hnone (map_ancestorsFrom before ▸ hv)
      obtain ⟨set, hset⟩ := Option.ne_none_iff_exists'.mp hsome
      have hv := hbefore v hv w
      rwa [hset] at hv ⊢
    · obtain rfl := List.mem_singleton.mp hv
      have hnone : Assoc.find? d.symbol (ancestorsFrom before) = none := by
        refine Assoc.find?_eq_none fun q hq heq => ?_
        have hnodup := hp.nodup
        rw [vars, hds, List.map_append] at hnodup
        exact (List.nodup_append.mp hnodup).2.2 _ (hkeys q hq) _ List.mem_cons_self heq
      rw [hnone, Option.none_or, Assoc.find?, if_pos rfl]
      exact hp.mem_ancestorsAfter hds hbefore

/-- The ancestors are the variables that can be reached by what updates mention. -/
theorem Layered.mem_ancestors (hp : p.Layered) (hv : v ∈ p.vars) :
    w ∈ (p.ancestors v).toList ↔ Relation.TransGen p.Mentions v w := by
  have hds : p.declarations = p.declarations ++ [] := (List.append_nil _).symm
  exact hp.mem_ancestorsFrom hds hv

theorem mem_dependencies : w ∈ (p.dependencies v).toList ↔
    w ∈ p.vars ∧ ∃ u ∈ (p.ancestors v).toList, u ∈ (p.ancestors w).toList := by
  rw [dependencies, SymbolSet.mem_toList_ofList, List.mem_filter, SymbolSet.meets_iff]

/-! ### Chance -/

/-- A variable that is drawn, whose update branches or that does not always start at the same value. -/
def IsSource (p : Program) (s : Symbol) : Prop :=
  ∃ d ∈ p.declarations, d.symbol = s ∧ ((∃ r, d.update = .random r) ∨
    (∃ bs, d.update = .branches bs ∧ 1 < bs.length) ∨ d.initial.isFixed = false)

/-- A variable that is computed, in any number of steps, from one that depends on chance by itself. -/
def Inherits (p : Program) (s : Symbol) : Prop :=
  ∃ u, Relation.ReflTransGen p.Mentions s u ∧ p.IsSource u

theorem isChanceful_iff : isChanceful d = true ↔ (∃ r, d.update = .random r) ∨
    (∃ bs, d.update = .branches bs ∧ 1 < bs.length) ∨ d.initial.isFixed = false := by
  rw [isChanceful, Bool.or_eq_true, Bool.or_eq_true, or_assoc, Bool.not_eq_true']
  cases d.update <;> simp [Update.isRandom, Update.branches?]

theorem Layered.isSource_iff (hp : p.Layered) (hd : d ∈ p.declarations) :
    p.IsSource d.symbol ↔ isChanceful d = true := by
  rw [isChanceful_iff]
  constructor
  · rintro ⟨c, hc, heq, h⟩
    rwa [← List.inj_on_of_nodup_map hp.nodup hc hd heq]
  · exact fun h => ⟨d, hd, rfl, h⟩

/-- What a variable inherits it is itself or it comes from a variable before it. -/
theorem Layered.inherits_iff (hp : p.Layered) (hds : p.declarations = before ++ d :: after) :
    p.Inherits d.symbol ↔ isChanceful d = true ∨
      ∃ s ∈ before.map Declaration.symbol, d.update.Mentions s ∧ p.Inherits s := by
  have hd : d ∈ p.declarations := by simp [hds]
  constructor
  · rintro ⟨u, hpath, hu⟩
    generalize hv : d.symbol = v at hpath
    induction hpath using Relation.ReflTransGen.head_induction_on with
    | refl => exact Or.inl ((hp.isSource_iff hd).mp (hv ▸ hu))
    | @head v c hvc hcu ih =>
      have hc := (hp.mentions_iff hd).mp (hv ▸ hvc)
      rcases hp.mentions before d after hds c hc with heq | hmem
      · exact ih heq.symm
      · exact Or.inr ⟨c, hmem, hc, u, hcu, hu⟩
  · rintro (h | ⟨s, -, hs, u, hpath, hu⟩)
    · exact ⟨d.symbol, .refl, (hp.isSource_iff hd).mpr h⟩
    · exact ⟨u, .head ((hp.mentions_iff hd).mpr hs) hpath, hu⟩

theorem probabilisticFrom_concat (ds : List Declaration) (d : Declaration) :
    probabilisticFrom [] (ds ++ [d]) =
      if isChanceful d || d.update.parents.any (fun q => (probabilisticFrom [] ds).contains q.1) then
        d.symbol :: probabilisticFrom [] ds
      else probabilisticFrom [] ds := by
  rw [probabilisticFrom, List.foldl_append]
  rfl

theorem any_parents_iff {u : Update} {found : List Symbol} :
    u.parents.any (fun q => found.contains q.1) = true ↔ ∃ s, u.Mentions s ∧ s ∈ found := by
  simp only [← Update.mem_parents_iff]
  simp [SymbolSet.toList]

/-- In one pass every variable that inherits chance is found, and no other. -/
theorem Layered.mem_probabilisticFrom (hp : p.Layered) (hds : p.declarations = before ++ after) :
    v ∈ probabilisticFrom [] before ↔ v ∈ before.map Declaration.symbol ∧ p.Inherits v := by
  induction before using List.reverseRecOn generalizing after v with
  | nil => simp [probabilisticFrom]
  | append_singleton before d ih =>
    rw [List.append_assoc, List.singleton_append] at hds
    have hfound : (isChanceful d || d.update.parents.any
        fun q => (probabilisticFrom [] before).contains q.1) = true ↔ p.Inherits d.symbol := by
      rw [Bool.or_eq_true, any_parents_iff, hp.inherits_iff hds]
      simp only [ih hds]
      exact or_congr_right (exists_congr fun s => and_left_comm)
    rw [probabilisticFrom_concat, List.map_append, List.map_singleton, List.mem_append,
      List.mem_singleton, or_and_right]
    split
    · next h =>
      rw [List.mem_cons, ih hds, or_comm]
      exact or_congr_right (iff_self_and.mpr fun heq => heq ▸ hfound.mp h)
    · next h =>
      have hnone : ¬(v = d.symbol ∧ p.Inherits v) := by
        rintro ⟨rfl, hv⟩
        exact h (hfound.mpr hv)
      rw [ih hds, or_iff_left hnone]

theorem Layered.isProbabilistic_iff (hp : p.Layered) :
    p.isProbabilistic v = true ↔ v ∈ p.vars ∧ p.Inherits v := by
  have hds : p.declarations = p.declarations ++ [] := (List.append_nil _).symm
  rw [isProbabilistic, List.contains_iff_mem]
  exact hp.mem_probabilisticFrom hds

/-- A set of variables that holds every source of chance, and every variable with an ancestor in it. -/
structure InheritsChance (p : Program) (set : Set Symbol) : Prop where
  source : ∀ v, p.IsSource v → v ∈ set
  ancestor : ∀ v ∈ p.vars, ∀ w ∈ (p.ancestors v).toList, w ∈ set → v ∈ set

theorem isSource_mem_vars (h : p.IsSource v) : v ∈ p.vars := by
  obtain ⟨d, hd, rfl, -⟩ := h
  exact List.mem_map_of_mem hd

theorem Layered.isLeast_probabilistic (hp : p.Layered) :
    IsLeast {set | p.InheritsChance set} {v | p.isProbabilistic v = true} := by
  refine ⟨⟨fun v hv => ?_, fun v hv w hw hprob => ?_⟩, fun set hset v hprob => ?_⟩
  · exact hp.isProbabilistic_iff.mpr ⟨isSource_mem_vars hv, v, .refl, hv⟩
  · obtain ⟨-, u, hpath, hu⟩ := hp.isProbabilistic_iff.mp hprob
    have hvw := ((hp.mem_ancestors hv).mp hw).to_reflTransGen
    exact hp.isProbabilistic_iff.mpr ⟨hv, u, hvw.trans hpath, hu⟩
  · obtain ⟨hv, u, hpath, hu⟩ := hp.isProbabilistic_iff.mp hprob
    rcases Relation.reflTransGen_iff_eq_or_transGen.mp hpath with rfl | hpath
    · exact hset.source _ hu
    · exact hset.ancestor v hv u ((hp.mem_ancestors hv).mpr hpath) (hset.source u hu)

end Program

/-! ### Drafts -/

namespace Draft

theorem mentions_of_check {name : String} {earlier : List String} {u : Update}
    (h : checkUpdate name earlier u = .ok ()) {s : Symbol} (hs : u.Mentions s) :
    s = .var name ∨ s ∈ earlier.map .var := by
  obtain ⟨bs, rfl, hvar, b, hb, hmem⟩ := hs
  have hbranch := (checkUpdate_branches_eq_ok_iff.mp h).2 b hb
  rw [checkBranch, except_check_eq_ok, checkSymbols_eq_ok_iff] at hbranch
  cases s with
  | var r =>
    have hr := hbranch.1.2 r (Expr.mentions_iff.mp hmem)
    simpa using hr
  | _ => cases hvar

/-- The checks of a draft put the variables in an order. -/
theorem layered_of_build {d : Draft} {p : Program} (h : d.build = .ok p) : p.Layered := by
  refine ⟨(nodup_vars_of_build h).2, fun before c after hds s hs => ?_⟩
  obtain ⟨guard, -, -, hupdates, -, -, rfl⟩ := build_eq_ok_iff.mp h
  obtain ⟨earlier, rest, hsplit, rfl, hrest⟩ := List.map_eq_append_iff.mp hds
  obtain ⟨u, later, rfl, rfl, -⟩ := List.map_eq_cons_iff.mp hrest
  have hcheck := checkUpdates_eq_ok_iff.mp hupdates earlier u later hsplit
  have hmentions := mentions_of_check hcheck hs
  simpa [Declaration.symbol] using hmentions

/-- In a program that was built the ancestors of a variable are what can be reached by the mentions of
updates, its dependencies are the variables that have an ancestor in common with it, and the
probabilistic variables are the least set that holds every source of chance and every variable with an
ancestor in it. -/
theorem reachability_of_build {d : Draft} {p : Program} (h : d.build = .ok p) :
    (∀ v ∈ p.vars, ∀ w, w ∈ (p.ancestors v).toList ↔ Relation.TransGen p.Mentions v w) ∧
    (∀ v ∈ p.vars, ∀ w, w ∈ (p.dependencies v).toList ↔
      w ∈ p.vars ∧ ∃ u ∈ (p.ancestors v).toList, u ∈ (p.ancestors w).toList) ∧
    IsLeast {set | p.InheritsChance set} {v | p.isProbabilistic v = true} :=
  have hp := layered_of_build h
  ⟨fun _ hv _ => hp.mem_ancestors hv, fun _ _ _ => Program.mem_dependencies,
    hp.isLeast_probabilistic⟩

/-- A draw is added up, and the sum is copied; a number stands beside them. -/
def cascade : Draft :=
  ⟨[("u", .deterministic (.const 0)), ("x", .deterministic (.const 1)),
      ("y", .deterministic (.const 1)), ("z", .deterministic (.const 3))],
    [("u", .random (.uniform (-1) 1)),
      ("x", .deterministic (.ofSymbol (.var "x") + .ofSymbol (.var "u"))),
      ("y", .deterministic (.ofSymbol (.var "x")))],
    some (.ofSymbol (.var "y"))⟩

end Draft

/-- The number that is never updated comes first. -/
def Program.cascade : Program :=
  ⟨[⟨"z", .deterministic (.const 3), .deterministic (.ofSymbol (.var "z"))⟩,
      ⟨"u", .deterministic (.const 0), .random (.uniform (-1) 1)⟩,
      ⟨"x", .deterministic (.const 1),
        .deterministic (.ofSymbol (.var "x") + .ofSymbol (.var "u"))⟩,
      ⟨"y", .deterministic (.const 1), .deterministic (.ofSymbol (.var "x"))⟩],
    .ofSymbol (.var "y")⟩

/-- The copy comes from the draw in two steps and depends on chance for it; the number does not. -/
theorem Draft.reachability_cascade : cascade.build = .ok Program.cascade ∧
    Relation.TransGen Program.cascade.Mentions (.var "y") (.var "u") ∧
    ¬Relation.TransGen Program.cascade.Mentions (.var "z") (.var "u") ∧
    (∃ u ∈ (Program.cascade.ancestors (.var "y")).toList,
      u ∈ (Program.cascade.ancestors (.var "x")).toList) ∧
    ∀ set, Program.cascade.InheritsChance set → .var "y" ∈ set := by
  have hbuild : cascade.build = .ok Program.cascade := by decide +kernel
  obtain ⟨hancestors, hdependencies, hleast⟩ := reachability_of_build hbuild
  refine ⟨hbuild, ?_, fun h => ?_, ?_, fun set hset => ?_⟩
  · exact (hancestors _ (by decide) _).mp (by decide +kernel)
  · have hmem := (hancestors _ (by decide) _).mpr h
    revert hmem
    decide +kernel
  · exact ((hdependencies _ (by decide) _).mp (by decide +kernel)).2
  · have hy : Program.cascade.isProbabilistic (.var "y") = true := by decide +kernel
    exact hleast.2 hset hy

end ProbLoop
