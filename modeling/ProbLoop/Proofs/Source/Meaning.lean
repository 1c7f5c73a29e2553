import ProbLoop.Proofs.Program.WellFormed
import ProbLoop.Proofs.Source.Narrow

/-!
# Programs that are read are well-formed

Whatever a source writes is a polynomial over its names, so a source that is accepted is a well-formed
program.
-/

set_option autoImplicit false

namespace ProbLoop

/-- The parameters of a distribution that can be named lie where they have to. -/
def Distribution.Accepted : Distribution → Prop
  | uniform low high => low ≤ high
  | bernoulli p => 0 ≤ p ∧ p ≤ 1
  | gauss _ variance => 0 ≤ variance
  | laplace _ scale => 0 < scale
  | exponential rate => 0 < rate
  | beta a b => 0 < a ∧ 0 < b
  | geometric p => 0 < p ∧ p ≤ 1
  | unknown _ => False

namespace Source

variable {resolve : Resolver} {vars : List Symbol}

theorem over_of_toExpr (hr : ∀ s x, resolve s = some x → x ∈ vars) {f : Phrase} {e : Expr}
    (h : f.toExpr resolve = .ok e) : e.Over vars :=
  Phrase.toExprBy_induction Expr.over_const (fun s x hx => Expr.over_ofSymbol (hr s x hx))
    (fun _ _ ha hb => ha.add hb) (fun _ ha => ha.neg) (fun _ _ ha hb => ha.mul hb)
    (fun _ q ha => ha.scale q) h

theorem over_of_addBranch (hr : ∀ s x, resolve s = some x → x ∈ vars) {line : Nat}
    {known next : Alternatives} {b : Phrase × Option (Located Phrase)}
    (hk : (∀ a ∈ known.1, a.1.Over vars) ∧ ∀ e ∈ known.2, e.Over vars)
    (h : addBranch resolve line known b = .ok next) :
    (∀ a ∈ next.1, a.1.Over vars) ∧ ∀ e ∈ next.2, e.Over vars := by
  obtain ⟨value, hv, h⟩ := except_bind_eq_ok.mp h
  have hover := over_of_toExpr hr hv
  split at h
  · split at h
    · simp at h
    · obtain rfl := Except.ok.inj h
      refine ⟨hk.1, fun e he => ?_⟩
      obtain rfl := Option.some.inj he
      exact hover
  · obtain ⟨q, -, h⟩ := except_bind_eq_ok.mp h
    obtain rfl := Except.ok.inj h
    split
    · exact hk
    · refine ⟨fun a ha => ?_, hk.2⟩
      rcases List.mem_append.mp ha with ha | ha
      · exact hk.1 a ha
      · obtain rfl := List.mem_singleton.mp ha
        exact hover

theorem over_of_settle {known : Alternatives}
    (hk : (∀ a ∈ known.1, a.1.Over vars) ∧ ∀ e ∈ known.2, e.Over vars) :
    ∀ a ∈ settle known, a.1.Over vars := by
  unfold settle
  split
  · exact hk.1
  · next value hv =>
    simp only
    split
    · exact hk.1
    · intro a ha
      rcases List.mem_append.mp ha with ha | ha
      · exact hk.1 a ha
      · obtain rfl := List.mem_singleton.mp ha
        exact hk.2 value hv

/-- A check leaves a distribution as it is. -/
theorem eq_of_check {d r : Distribution} (h : d.check = .ok r) : d = r := by
  cases d with
  | unknown s => exact Except.ok.inj h
  | _ =>
    rw [Distribution.check] at h
    split at h
    · cases h
    · exact Except.ok.inj h

/-- A distribution that is named has been checked and is not unknown. -/
theorem check_of_ofName {name : String} {parameters : List Rat} {d : Distribution}
    (h : Distribution.ofName name parameters = .ok d) : d.check = .ok d ∧ ∀ x, d ≠ .unknown x := by
  have hparam : ∀ x, Distribution.ofParameters? name parameters ≠ some (.unknown x) := by
    intro x hp
    unfold Distribution.ofParameters? at hp
    split at hp <;> simp at hp
  rw [Distribution.ofName] at h
  split at h
  · next r hr =>
    obtain rfl := eq_of_check h
    exact ⟨h, fun x hx => hparam x (hx ▸ hr)⟩
  · cases h
  · cases h

theorem accepted_of_ofName {name : String} {parameters : List Rat} {d : Distribution}
    (h : Distribution.ofName name parameters = .ok d) : d.Accepted := by
  obtain ⟨hcheck, hunknown⟩ := check_of_ofName h
  cases d with
  | unknown s => exact hunknown s rfl
  | _ =>
    rw [Distribution.check] at hcheck
    split at hcheck
    · cases hcheck
    · next hfault => simpa [Distribution.Accepted] using hfault

theorem over_of_toUpdate (hr : ∀ s x, resolve s = some x → x ∈ vars) {name : String}
    {phrase : Located UpdatePhrase} {u : Update} (h : toUpdate resolve name phrase = .ok u) :
    u.Over vars := by
  rw [toUpdate] at h
  split at h
  · obtain ⟨ps, -, h⟩ := except_bind_eq_ok.mp h
    split at h
    · next d hd =>
      obtain rfl := Except.ok.inj h
      exact (check_of_ofName hd).2
    · simp at h
  · obtain ⟨known, hk, h⟩ := except_bind_eq_ok.mp h
    obtain rfl := Except.ok.inj h
    refine over_of_settle (except_foldlM_invariant
      (P := fun a : Alternatives => (∀ b ∈ a.1, b.1.Over vars) ∧ ∀ e ∈ a.2, e.Over vars)
      (fun b _ known next hk => over_of_addBranch hr hk) (by simp) hk)

theorem check_of_toUpdate {name : String} {phrase : Located UpdatePhrase} {r : Distribution}
    (h : toUpdate resolve name phrase = .ok (.random r)) : r.check = .ok r := by
  rw [toUpdate] at h
  split at h
  · obtain ⟨ps, -, h⟩ := except_bind_eq_ok.mp h
    split at h
    · next d hd =>
      obtain rfl := Update.random.inj (Except.ok.inj h)
      exact (check_of_ofName hd).1
    · cases h
  · obtain ⟨known, -, h⟩ := except_bind_eq_ok.mp h
    cases h

theorem over_of_toGuard (hr : ∀ s x, resolve s = some x → x ∈ vars) {phrase : GuardPhrase}
    {e : Expr} (h : toGuard resolve phrase = .ok e) : e.Over vars := by
  obtain ⟨x, hx, h⟩ := except_bind_eq_ok.mp h
  obtain ⟨y, hy, h⟩ := except_bind_eq_ok.mp h
  have ha := over_of_toExpr hr hx
  have hb := over_of_toExpr hr hy
  split at h
  · obtain rfl := Except.ok.inj h
    exact ha.sub hb
  · obtain rfl := Except.ok.inj h
    exact hb.sub ha
  · simp at h

/-- In a program a name that is assigned stands for its variable. -/
abbrev resolveAmong (names : List String) : Resolver := fun s =>
  if s ∈ names then some (.var s) else none

theorem mem_of_resolveAmong {names : List String} (s : String) (x : Symbol)
    (h : resolveAmong names s = some x) : x ∈ names.map Symbol.var := by
  rw [resolveAmong] at h
  split at h
  · next hs =>
    obtain rfl := Option.some.inj h
    exact List.mem_map_of_mem hs
  · cases h

/-- The statement stands for the assignment. -/
def Assigns (resolve : Resolver) (s : Statement) (a : String × Update) : Prop :=
  s.name = a.1 ∧ toUpdate resolve s.name s.update = .ok a.2

/-- What is known of an assignment whose right-hand side was read. -/
structure IsGiven (names : List String) (a : String × Update) : Prop where
  name : a.1 ∈ names
  overNames : a.2.Over (names.map .var)
  drawn : ∀ r, a.2 = .random r → r.check = .ok r

theorem isGiven_of_assigns {names : List String} {ss : List Statement} {as : List (String × Update)}
    (hnames : ∀ s ∈ ss, s.name ∈ names) (h : List.Forall₂ (Assigns (resolveAmong names)) ss as) :
    ∀ a ∈ as, IsGiven names a := by
  intro a ha
  obtain ⟨s, hs, hname, hu⟩ := forall₂_exists_of_mem h.flip a ha
  exact ⟨hname ▸ hnames s hs, over_of_toUpdate mem_of_resolveAmong hu, fun r hr =>
    check_of_toUpdate (hr ▸ hu)⟩

theorem mapM_assign_eq_ok_iff {resolve : Resolver} {ss : List Statement}
    {as : List (String × Update)} :
    ss.mapM (fun (s : Statement) => do return (s.name, ← toUpdate resolve s.name s.update)) =
      Except.ok as ↔ List.Forall₂ (Assigns resolve) ss as := by
  rw [except_mapM_eq_ok_iff]
  refine iff_of_eq (congrArg (fun R => List.Forall₂ R ss as) ?_)
  funext s a
  refine propext (except_bind_eq_ok.trans ⟨?_, ?_⟩)
  · rintro ⟨u, hu, ha⟩
    obtain rfl := Except.ok.inj ha
    exact ⟨rfl, hu⟩
  · rintro ⟨hname, hu⟩
    exact ⟨a.2, hu, by rw [hname]; rfl⟩

theorem checkReserved_eq_ok_iff {s : Statement} :
    checkReserved s = .ok () ↔ s.name ≠ "n" ∧ s.name ≠ "RV" := by
  rw [checkReserved, ← not_or]
  by_cases h : s.name = "n" ∨ s.name = "RV" <;> simp [h]

/-- A source with a loop is accepted if no name is reserved, every right-hand side and the guard have a
meaning, and the draft passes the check. -/
theorem toProgram_eq_ok_iff {phrase : ProgramPhrase} {loop : LoopPhrase}
    (hloop : phrase.loop = some loop) {p : Program} {names : List String}
    (hnames : (phrase.initial ++ loop.body).map (·.name) = names) :
    phrase.toProgram = .ok p ↔
      (∀ s ∈ phrase.initial ++ loop.body, s.name ≠ "n" ∧ s.name ≠ "RV") ∧
      ∃ initial updates guard,
        List.Forall₂ (Assigns (resolveAmong names)) phrase.initial initial ∧
        List.Forall₂ (Assigns (resolveAmong names)) loop.body updates ∧
        toGuard (resolveAmong names) loop.guard = .ok guard ∧
        (Draft.mk initial updates (some guard)).build = .ok p := by
  subst hnames
  rw [ProgramPhrase.toProgram, hloop]
  constructor
  · intro h
    obtain ⟨_, hreserved, h⟩ := except_bind_eq_ok.mp h
    obtain ⟨initial, hinitial, h⟩ := except_bind_eq_ok.mp h
    obtain ⟨updates, hupdates, h⟩ := except_bind_eq_ok.mp h
    obtain ⟨guard, hguard, hbuild⟩ := except_bind_eq_ok.mp h
    exact ⟨fun s hs => checkReserved_eq_ok_iff.mp (except_forM_eq_ok_iff.mp hreserved s hs), initial,
      updates, guard, mapM_assign_eq_ok_iff.mp hinitial, mapM_assign_eq_ok_iff.mp hupdates, hguard,
      hbuild⟩
  · rintro ⟨hreserved, initial, updates, guard, hinitial, hupdates, hguard, hbuild⟩
    refine except_bind_eq_ok.mpr ⟨(), except_forM_eq_ok_iff.mpr fun s hs =>
      checkReserved_eq_ok_iff.mpr (hreserved s hs), ?_⟩
    refine except_bind_eq_ok.mpr ⟨initial, mapM_assign_eq_ok_iff.mpr hinitial, ?_⟩
    refine except_bind_eq_ok.mpr ⟨updates, mapM_assign_eq_ok_iff.mpr hupdates, ?_⟩
    exact except_bind_eq_ok.mpr ⟨guard, hguard, hbuild⟩

/-- What is accepted has a loop. -/
theorem exists_loop_of_toProgram {phrase : ProgramPhrase} {p : Program}
    (h : phrase.toProgram = .ok p) : ∃ loop, phrase.loop = some loop := by
  rw [ProgramPhrase.toProgram] at h
  split at h
  · cases h
  · next loop hloop => exact ⟨loop, hloop⟩

/-- An accepted source is a draft that passes the check. -/
theorem exists_draft_of_toProgram {phrase : ProgramPhrase} {p : Program}
    (h : phrase.toProgram = .ok p) :
    ∃ loop, phrase.loop = some loop ∧ ∃ d : Draft, d.build = .ok p ∧
      (∀ a ∈ d.initial ++ d.updates, IsGiven ((phrase.initial ++ loop.body).map (·.name)) a) ∧
      (∀ g ∈ d.guard, g.Over (((phrase.initial ++ loop.body).map (·.name)).map .var)) ∧
      ∀ s ∈ phrase.initial ++ loop.body, s.name ≠ "n" ∧ s.name ≠ "RV" := by
  obtain ⟨loop, hloop⟩ := exists_loop_of_toProgram h
  obtain ⟨hreserved, initial, updates, guard, hinitial, hupdates, hguard, hbuild⟩ :=
    (toProgram_eq_ok_iff hloop rfl).mp h
  refine ⟨loop, hloop, ⟨initial, updates, some guard⟩, hbuild, fun a ha => ?_, ?_, hreserved⟩
  · rcases List.mem_append.mp ha with ha | ha
    · exact isGiven_of_assigns
        (fun s hs => List.mem_map_of_mem (List.mem_append_left _ hs)) hinitial a ha
    · exact isGiven_of_assigns
        (fun s hs => List.mem_map_of_mem (List.mem_append_right _ hs)) hupdates a ha
  · rintro g hg
    obtain rfl := Option.some.inj hg
    exact over_of_toGuard mem_of_resolveAmong hguard

/-- Every variable of an accepted source is assigned. -/
theorem mem_names_of_toProgram {phrase : ProgramPhrase} {loop : LoopPhrase}
    (hloop : phrase.loop = some loop) {p : Program} (h : phrase.toProgram = .ok p)
    {c : Declaration} (hc : c ∈ p.declarations) :
    c.name ∈ (phrase.initial ++ loop.body).map (·.name) := by
  obtain ⟨_, hloop', d, hbuild, hgiven, -⟩ := exists_draft_of_toProgram h
  obtain rfl := Option.some.inj (hloop.symm.trans hloop')
  rcases List.mem_append.mp (Draft.mem_of_build hbuild hc).1 with hconstant | hupdate
  · obtain ⟨-, i, hi, hname⟩ := Draft.exists_initial_of_mem_constants hconstant
    have hi := (hgiven i (List.mem_append_left _ hi)).name
    rwa [hname] at hi
  · exact (hgiven _ (List.mem_append_right _ hupdate)).name

theorem checked_of_toProgram {phrase : ProgramPhrase} {p : Program}
    (h : phrase.toProgram = .ok p) : p.Checked := by
  obtain ⟨loop, -, d, hbuild, hgiven, hguard, -⟩ := exists_draft_of_toProgram h
  refine Draft.checked_of_build ?_ (fun i hi => ?_) (fun u hu => ?_) hguard hbuild
  · exact List.forall_mem_map.mpr fun _ _ => rfl
  · have hi := hgiven i (List.mem_append_left _ hi)
    exact ⟨hi.overNames, List.mem_map_of_mem hi.name⟩
  · exact (hgiven u (List.mem_append_right _ hu)).overNames

end Source

/-- A source that is accepted is a checked program. -/
theorem Program.checked_of_parse {text : String} {p : Program}
    (h : Program.parse text = .ok p) : p.Checked := by
  obtain ⟨phrase, -, h⟩ := except_bind_eq_ok.mp h
  exact Source.checked_of_toProgram h

/-- A source that is accepted is a well-formed program. -/
theorem Program.wellFormed_of_parse {text : String} {p : Program}
    (h : Program.parse text = .ok p) : p.WellFormed :=
  (checked_of_parse h).toWellFormed

end ProbLoop
