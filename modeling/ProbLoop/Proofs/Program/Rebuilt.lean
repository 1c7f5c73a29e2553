import ProbLoop.Proofs.Program.WellFormed

/-!
# Programs rebuilt from what is written of them

The text of a program leaves out unknown initial values and updates that keep a variable. What is left
of a checked program passes the check again. The variables without an update come first then, and the
others follow in their order; a variable of which nothing is left is lost.
-/

set_option autoImplicit false

namespace ProbLoop

namespace Draft

variable {name : String} {earlier later : List String}

/-! ### Checks after other variables -/

/-- The variables that an update reads are its own or among the given ones. -/
def ReadsAmong (name : String) (among : List String) (u : Update) : Prop :=
  ∀ bs, u = .branches bs → ∀ b ∈ bs, ∀ s, .var s ∈ b.1.freeSymbols → s = name ∨ s ∈ among

theorem readsAmong_of_check {u : Update} (h : checkUpdate name earlier u = .ok ()) :
    ReadsAmong name earlier u := by
  rintro bs rfl b hb
  have hbranch := (checkUpdate_branches_eq_ok_iff.mp h).2 b hb
  exact (checkSymbols_eq_ok_iff.mp (except_check_eq_ok.mp hbranch).1).2

/-- The check of an update depends on the variables before it only in what the update reads. -/
theorem checkUpdate_of_readsAmong {u : Update} (h : checkUpdate name earlier u = .ok ())
    (hreads : ReadsAmong name later u) : checkUpdate name later u = .ok () := by
  cases u with
  | random d => cases d <;> exact h
  | branches bs =>
    obtain ⟨hchoice, hbranches⟩ := checkUpdate_branches_eq_ok_iff.mp h
    refine checkUpdate_branches_eq_ok_iff.mpr ⟨hchoice, fun b hb => ?_⟩
    obtain ⟨hsymbols, hrest⟩ := except_check_eq_ok.mp (hbranches b hb)
    exact except_check_eq_ok.mpr ⟨checkSymbols_eq_ok_iff.mpr
      ⟨(checkSymbols_eq_ok_iff.mp hsymbols).1, hreads bs rfl b hb⟩, hrest⟩

theorem checkUpdate_mono {u : Update} (h : checkUpdate name earlier u = .ok ())
    (hle : ∀ s ∈ earlier, s ∈ later) : checkUpdate name later u = .ok () :=
  checkUpdate_of_readsAmong h fun bs hu b hb s hs =>
    (readsAmong_of_check h bs hu b hb s hs).imp_right (hle s)

/-- Updates may be left out if their variables come before. -/
theorem checkUpdates_filter {us : List (String × Update)} (h : checkUpdates earlier us = .ok ())
    (keep : String × Update → Bool) (hle : ∀ s ∈ earlier, s ∈ later)
    (hout : ∀ u ∈ us, keep u = false → u.1 ∈ later) :
    checkUpdates later (us.filter keep) = .ok () := by
  induction us generalizing earlier later with
  | nil => rfl
  | cons u us ih =>
    obtain ⟨hcheck, h⟩ := except_check_eq_ok.mp h
    obtain ⟨hu, hout⟩ := List.forall_mem_cons.mp hout
    by_cases hkeep : keep u = true
    · rw [List.filter_cons_of_pos hkeep]
      refine except_check_eq_ok.mpr ⟨checkUpdate_mono hcheck hle, ih h ?_ fun v hv hv' =>
        List.mem_cons_of_mem _ (hout v hv hv')⟩
      exact fun s hs => List.mem_cons.mpr ((List.mem_cons.mp hs).imp_right (hle s))
    · rw [List.filter_cons_of_neg hkeep]
      refine ih h (fun s hs => ?_) hout
      rcases List.mem_cons.mp hs with rfl | hs
      · exact hu (by simpa using hkeep)
      · exact hle s hs

theorem checkGuard_of_mem {names : List String} {ss : List Symbol} {more : List String}
    (h : checkGuard names ss = .ok ()) (hle : ∀ s ∈ names, s ∈ more) :
    checkGuard more ss = .ok () :=
  checkGuard_eq_ok_iff.mpr ((checkGuard_eq_ok_iff.mp h).imp_right fun hmem s hs => hle s (hmem s hs))

end Draft

/-! ### What is written -/

namespace Declaration

variable {d : Declaration}

/-- The initial value has a line in the text of the program. -/
def hasInitialLine (d : Declaration) : Bool := !(Program.initialLine d).isEmpty

/-- The update has a line in the text of the program. -/
def hasUpdateLine (d : Declaration) : Bool := !(Program.updateLine d).isEmpty

/-- Something of the variable is written. -/
def IsWritten (d : Declaration) : Prop := d.hasInitialLine = true ∨ d.hasUpdateLine = true

instance (d : Declaration) : Decidable d.IsWritten := inferInstanceAs (Decidable (_ ∨ _))

theorem exists_unknown_of_hasInitialLine (h : d.hasInitialLine = false) :
    ∃ s, d.initial = .random (.unknown s) := by
  unfold hasInitialLine Program.initialLine at h
  split at h
  · next s hs => exact ⟨s, hs⟩
  · simp at h

theorem single?_of_hasUpdateLine (h : d.hasUpdateLine = false) :
    d.update.single? = some (.ofSymbol d.symbol) := by
  unfold hasUpdateLine Program.updateLine at h
  split at h
  · assumption
  · simp at h

end Declaration

namespace Program

variable {p : Program}

/-- The assignments that are written before the loop. -/
def writtenInitial (p : Program) : List (String × Update) :=
  (p.declarations.filter Declaration.hasInitialLine).map fun d => (d.name, d.initial)

/-- The assignments that are written in the body of the loop. -/
def writtenUpdates (p : Program) : List (String × Update) :=
  (p.declarations.filter Declaration.hasUpdateLine).map fun d => (d.name, d.update)

/-- The names of which something is written. -/
def writtenNames (p : Program) : List String := (p.writtenInitial ++ p.writtenUpdates).map (·.1)

theorem names_writtenInitial (p : Program) : p.writtenInitial.map (·.1) =
    (p.declarations.filter Declaration.hasInitialLine).map (·.name) := List.map_map

theorem names_writtenUpdates (p : Program) : p.writtenUpdates.map (·.1) =
    (p.declarations.filter Declaration.hasUpdateLine).map (·.name) := List.map_map

theorem declared_of_mem_writtenNames {s : String} (h : s ∈ p.writtenNames) :
    s ∈ p.declarations.map (·.name) := by
  rw [writtenNames, List.map_append, List.mem_append, names_writtenInitial,
    names_writtenUpdates] at h
  exact h.elim (fun h => List.map_subset _ (List.filter_subset_self _) h)
    fun h => List.map_subset _ (List.filter_subset_self _) h

def writtenDraft (p : Program) : Draft := ⟨p.writtenInitial, p.writtenUpdates, some p.guard⟩

/-- The variables without a line for their update come first. -/
def rebuilt (p : Program) : Program where
  declarations := p.declarations.filter (fun d => !d.hasUpdateLine) ++
    p.declarations.filter Declaration.hasUpdateLine
  guard := p.guard

namespace Checked

variable (hp : p.Checked)
include hp

theorem nodup_names : (p.declarations.map (·.name)).Nodup := by
  have hvars : (p.declarations.map (·.name)).map Symbol.var = p.vars := List.map_map
  exact List.Nodup.of_map _ (hvars ▸ hp.nodup)

theorem eq_of_name {c d : Declaration} (hc : c ∈ p.declarations) (hd : d ∈ p.declarations)
    (h : c.name = d.name) : c = d :=
  List.inj_on_of_nodup_map hp.nodup_names hc hd h

/-- An update without a line keeps the variable. -/
theorem update_of_hasUpdateLine {d : Declaration} (hd : d ∈ p.declarations)
    (h : d.hasUpdateLine = false) : d.update = .deterministic (.ofSymbol d.symbol) := by
  obtain ⟨before, -, hsolvable⟩ := hp.solvable.exists_solvable d hd
  have hsingle := Declaration.single?_of_hasUpdateLine h
  unfold Update.single? at hsingle
  split at hsingle
  · next e q hupdate =>
    rw [hupdate] at hsolvable ⊢
    obtain rfl := Option.some.inj hsingle
    have hq : q = 1 := by simpa using hsolvable.1.2
    rw [hq]
    rfl
  · cases hsingle

theorem mem_names_filter (keep : Declaration → Bool) {d : Declaration} (hd : d ∈ p.declarations) :
    d.name ∈ (p.declarations.filter keep).map (·.name) ↔ keep d = true := by
  constructor
  · intro h
    obtain ⟨c, hc, hname⟩ := List.mem_map.mp h
    obtain ⟨hc, hkeep⟩ := List.mem_filter.mp hc
    exact hp.eq_of_name hc hd hname ▸ hkeep
  · intro h
    exact List.mem_map_of_mem (List.mem_filter.mpr ⟨hd, h⟩)

theorem mem_writtenNames_iff {d : Declaration} (hd : d ∈ p.declarations) :
    d.name ∈ p.writtenNames ↔ d.IsWritten := by
  rw [writtenNames, List.map_append, List.mem_append, names_writtenInitial, names_writtenUpdates,
    hp.mem_names_filter _ hd, hp.mem_names_filter _ hd]
  exact Iff.rfl

theorem contains_writtenUpdates {d : Declaration} (hd : d ∈ p.declarations) :
    (p.writtenUpdates.map (·.1)).contains d.name = d.hasUpdateLine := by
  rw [Bool.eq_iff_iff, List.contains_iff_mem, names_writtenUpdates]
  exact hp.mem_names_filter _ hd

/-- What is written of a variable says what its initial value is. -/
theorem initialOf_written {d : Declaration} (hd : d ∈ p.declarations) :
    p.writtenDraft.initialOf d.name = d.initial := by
  have hnodup : (p.writtenInitial.reverse.map (·.1)).Nodup := by
    rw [List.map_reverse, List.nodup_reverse, writtenInitial, List.map_map]
    exact hp.nodup_names.sublist (List.filter_sublist.map _)
  cases hline : d.hasInitialLine with
  | true =>
    have hmem : (d.name, d.initial) ∈ p.writtenInitial :=
      List.mem_map_of_mem (List.mem_filter.mpr ⟨hd, hline⟩)
    have hfind := Assoc.find?_of_nodup hnodup (List.mem_reverse.mpr hmem)
    rw [Draft.initialOf]
    exact congrArg (fun o => Option.getD o _) hfind
  | false =>
    obtain ⟨s, hs⟩ := Declaration.exists_unknown_of_hasInitialLine hline
    have hfind : Assoc.find? d.name p.writtenInitial.reverse = none := by
      refine Assoc.find?_eq_none fun a ha hname => ?_
      obtain ⟨c, hc, rfl⟩ := List.mem_map.mp (List.mem_reverse.mp ha)
      obtain ⟨hc, hcline⟩ := List.mem_filter.mp hc
      rw [hp.eq_of_name hc hd hname, hline] at hcline
      cases hcline
    rw [hp.unknown d hd s hs, Draft.initialOf]
    exact congrArg (fun o => Option.getD o _) hfind

/-- A variable without a line for its update may stand anywhere. -/
theorem checkUpdate_kept {d : Declaration} (hd : d ∈ p.declarations)
    (h : d.hasUpdateLine = false) (earlier : List String) :
    Draft.checkUpdate d.name earlier d.update = .ok () := by
  rw [hp.update_of_hasUpdateLine hd h]
  exact Draft.checkUpdate_own d.name earlier

theorem checkUpdates_rebuilt :
    Draft.checkUpdates [] (p.rebuilt.declarations.map fun d => (d.name, d.update)) = .ok () := by
  have hout : (p.declarations.map fun d => (d.name, d.update)).filter
      (fun u => (p.writtenUpdates.map (·.1)).contains u.1) =
      (p.declarations.filter Declaration.hasUpdateLine).map fun d => (d.name, d.update) := by
    rw [List.filter_map]
    refine congrArg (List.map _) (List.filter_congr fun d hd => ?_)
    rw [Function.comp_apply, hp.contains_writtenUpdates hd]
  rw [rebuilt, List.map_append, ← hout]
  refine Draft.checkUpdates_append.mpr ⟨Draft.checkUpdates_of_own ?_ [],
    Draft.checkUpdates_filter hp.updates _ (by simp) ?_⟩
  · refine List.forall_mem_map.mpr fun d hd => ?_
    obtain ⟨hd, hline⟩ := List.mem_filter.mp hd
    exact hp.checkUpdate_kept hd (by simpa using hline)
  · refine List.forall_mem_map.mpr fun d hd hline => ?_
    rw [hp.contains_writtenUpdates hd] at hline
    rw [List.append_nil, List.mem_reverse, List.map_map]
    exact List.mem_map_of_mem (f := fun d : Declaration => d.name)
      (List.mem_filter.mpr ⟨hd, by simpa using hline⟩)

variable (hwritten : ∀ d ∈ p.declarations, d.IsWritten)
include hwritten

/-- The variables without a line for their update are the constants of what is written. -/
theorem constants_written : p.writtenDraft.constants =
    (p.declarations.filter fun d => !d.hasUpdateLine).map fun d => (d.name, d.update) := by
  have hnames : (p.writtenInitial.map (·.1)).filter
      (fun s => !(p.writtenUpdates.map (·.1)).contains s) =
      (p.declarations.filter fun d => !d.hasUpdateLine).map (·.name) := by
    rw [writtenInitial, List.map_map, List.filter_map, List.filter_filter]
    refine congrArg (List.map _) (List.filter_congr fun d hd => ?_)
    change (!(p.writtenUpdates.map (·.1)).contains d.name && d.hasInitialLine) = _
    rw [hp.contains_writtenUpdates hd]
    rcases hwritten d hd with h | h <;> simp [h]
  have hnodup : ((p.declarations.filter fun d => !d.hasUpdateLine).map (·.name)).Nodup :=
    hp.nodup_names.sublist (List.filter_sublist.map _)
  rw [Draft.constants]
  simp only [writtenDraft, hnames, Draft.distinct_of_nodup hnodup, List.map_map]
  refine List.map_congr_left fun d hd => ?_
  obtain ⟨hd, hline⟩ := List.mem_filter.mp hd
  rw [hp.update_of_hasUpdateLine hd (by simpa using hline)]
  rfl

/-- If something is written of every variable, the program can be rebuilt but for the order of its
variables. -/
theorem build_written : p.writtenDraft.build = .ok p.rebuilt := by
  have hall : p.writtenDraft.constants ++ p.writtenUpdates =
      p.rebuilt.declarations.map fun d => (d.name, d.update) := by
    rw [hp.constants_written hwritten, writtenUpdates, rebuilt, List.map_append]
  have hmem : ∀ d ∈ p.rebuilt.declarations, d ∈ p.declarations := by
    intro d hd
    rcases List.mem_append.mp hd with hd | hd <;> exact (List.mem_filter.mp hd).1
  have hrepeated : Draft.repeated? [] (p.writtenUpdates.map (·.1)) = none := by
    refine Draft.repeated?_eq_none_iff.mpr ⟨?_, by simp⟩
    rw [writtenUpdates, List.map_map]
    exact hp.nodup_names.sublist (List.filter_sublist.map _)
  have hinitial : p.writtenInitial.forM (fun i => Draft.checkInitial i.1 i.2) = .ok () := by
    refine except_forM_eq_ok_iff.mpr (List.forall_mem_map.mpr fun d hd => ?_)
    exact hp.initial d (List.mem_filter.mp hd).1
  have hguard : Draft.checkGuard ((p.rebuilt.declarations.map fun d => (d.name, d.update)).map (·.1))
      p.guard.freeSymbols = .ok () := by
    refine Draft.checkGuard_of_mem hp.reads fun s hs => ?_
    obtain ⟨d, hd, rfl⟩ := List.mem_map.mp hs
    rw [List.map_map]
    refine List.mem_map_of_mem (f := fun d : Declaration => d.name) (List.mem_append.mpr ?_)
    cases hline : d.hasUpdateLine with
    | true => exact Or.inr (List.mem_filter.mpr ⟨hd, hline⟩)
    | false => exact Or.inl (List.mem_filter.mpr ⟨hd, by simp [hline]⟩)
  have hdeclarations : (p.rebuilt.declarations.map fun d => (d.name, d.update)).map
      (fun u => (⟨u.1, p.writtenDraft.initialOf u.1, u.2⟩ : Declaration)) =
      p.rebuilt.declarations := by
    rw [List.map_map]
    refine (List.map_congr_left fun d hd => ?_).trans (List.map_id _)
    change (⟨d.name, p.writtenDraft.initialOf d.name, d.update⟩ : Declaration) = d
    rw [hp.initialOf_written (hmem d hd)]
  have hparts : p.writtenDraft.guard = some p.guard ∧ p.writtenDraft.updates = p.writtenUpdates ∧
      p.writtenDraft.initial = p.writtenInitial := ⟨rfl, rfl, rfl⟩
  rw [Draft.build]
  simp only [hparts, hrepeated, hall, hp.checkUpdates_rebuilt, hinitial, hguard, hdeclarations]
  rfl

end Checked

/-- The same variables with the same updates and initial values, and the same guard. -/
structure SameAs (q p : Program) : Prop where
  vars : q.vars.Perm p.vars
  update : ∀ s, q.update? s = p.update? s
  initial : ∀ s, q.initial? s = p.initial? s
  guard : q.guard = p.guard

/-- Where every variable is declared once, the order of the declarations does not matter. -/
theorem find?_of_perm {cs ds : List Declaration} (h : cs.Perm ds)
    (hn : (ds.map Declaration.symbol).Nodup) (s : Symbol) :
    cs.find? (fun d => d.symbol == s) = ds.find? fun d => d.symbol == s := by
  cases hfind : ds.find? fun d => d.symbol == s with
  | none =>
    rw [List.find?_eq_none] at hfind ⊢
    exact fun d hd => hfind d (h.mem_iff.mp hd)
  | some d =>
    have hd := h.mem_iff.mpr (List.mem_of_find?_eq_some hfind)
    obtain rfl : d.symbol = s := by simpa using List.find?_some hfind
    exact find?_eq_some_of_nodup ((h.map _).nodup_iff.mpr hn) hd

theorem Checked.rebuilt_sameAs (hp : p.Checked) : p.rebuilt.SameAs p := by
  have hperm : p.rebuilt.declarations.Perm p.declarations :=
    List.perm_append_comm.trans (List.filter_append_perm _ _)
  have hdeclaration : ∀ s, p.rebuilt.declaration? s = p.declaration? s :=
    find?_of_perm hperm hp.nodup
  exact ⟨hperm.map _, fun s => by rw [update?, update?, hdeclaration],
    fun s => by rw [initial?, initial?, hdeclaration], rfl⟩

end Program

end ProbLoop
