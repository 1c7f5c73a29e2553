import ProbLoop.Proofs.Expr.Built
import ProbLoop.Proofs.Program.WellFormed

/-!
# Which programs are accepted

A program is entered call by call: initial values, updates and a guard in any order. It is built exactly
if it is a loop whose variables can be solved one after the other. The conditions are stated on the
calls; each of them is what one check of the draft decides.
-/

set_option autoImplicit false

namespace ProbLoop

/-- A number times the variable, and a rest without it over known variables. -/
structure Expr.AffineOver (name : String) (known : String → Prop) (e : Expr) : Prop where
  counter : e.mentions .counter = false
  affine : ∃ a q, q.Built ∧ e = (ofSymbol (.var name)).scale a + q ∧
    q.mentions (.var name) = false ∧ ∀ s, q.mentions (.var s) = true → known s

namespace Update

def Built : Update → Prop
  | .random _ => True
  | .branches bs => ∀ b ∈ bs, b.1.Built

/-- Probabilities above zero and not above one, which add up to one. -/
def IsDistribution (bs : List (Expr × Rat)) : Prop :=
  (∀ b ∈ bs, 0 < b.2 ∧ b.2 ≤ 1) ∧ (bs.map (·.2)).sum = 1

/-- A draw from a known distribution, or a choice between affine expressions. -/
def IsSolvable (name : String) (known : String → Prop) : Update → Prop
  | .random d => ∀ x, d ≠ .unknown x
  | .branches bs => IsDistribution bs ∧ ∀ b ∈ bs, b.1.AffineOver name known

/-- A draw from any distribution, or a choice between numbers. -/
def IsStart : Update → Prop
  | .random _ => True
  | .branches bs => IsDistribution bs ∧ ∀ b ∈ bs, ∃ q, b.1 = .const q

end Update

namespace Draft

/-- A call whose expressions were built. -/
def Entry.Built : Entry → Prop
  | .initial _ value => value.Built
  | .update _ value => value.Built
  | .guard e => e.Built

def Initialised (entries : List Entry) (s : String) : Prop :=
  ∃ value, .initial s value ∈ entries

def Updated (entries : List Entry) (s : String) : Prop :=
  ∃ value, .update s value ∈ entries

/-- The calls describe a loop whose variables can be solved one after the other. -/
structure ProbSolvable (entries : List Entry) : Prop where
  /-- The last guard counts. -/
  guard : ∃ before e after, entries = before ++ .guard e :: after ∧ (∀ f, .guard f ∉ after) ∧
    e.mentions .counter = false ∧
      ∀ s, e.mentions (.var s) = true → Initialised entries s ∨ Updated entries s
  once : ∀ before name value after, entries = before ++ .update name value :: after →
    ¬Updated before name
  /-- Variables that only have an initial value come first, and the others in the order of their
  updates. -/
  update : ∀ before name value after, entries = before ++ .update name value :: after →
    value.IsSolvable name fun s =>
      Initialised entries s ∧ ¬Updated entries s ∨ Updated before s
  initial : ∀ name value, .initial name value ∈ entries → value.IsStart

/-! ### What the calls leave in the draft -/

section Entries

variable (entries : List Entry)

theorem ofEntries_concat (x : Entry) :
    ofEntries (entries ++ [x]) = (ofEntries entries).enter x := by
  rw [ofEntries, List.foldl_append]
  rfl

theorem mem_initial_ofEntries {name : String} {value : Update} :
    (name, value) ∈ (ofEntries entries).initial ↔ .initial name value ∈ entries := by
  induction entries using List.reverseRecOn with
  | nil => simp [ofEntries, empty]
  | append_singleton entries x ih =>
    rw [ofEntries_concat, List.mem_append, ← ih]
    cases x <;> simp [enter]

def Entry.update? : Entry → Option (String × Update)
  | .update name value => some (name, value)
  | _ => none

theorem updates_ofEntries : (ofEntries entries).updates = entries.filterMap Entry.update? := by
  induction entries using List.reverseRecOn with
  | nil => rfl
  | append_singleton entries x ih =>
    rw [ofEntries_concat, List.filterMap_append, ← ih]
    cases x <;> simp [enter, Entry.update?]

def Entry.guard? : Entry → Option Expr
  | .guard e => some e
  | _ => none

theorem guard_ofEntries : (ofEntries entries).guard = entries.reverse.findSome? Entry.guard? := by
  induction entries using List.reverseRecOn with
  | nil => rfl
  | append_singleton entries x ih =>
    rw [ofEntries_concat, List.reverse_append, List.reverse_singleton, List.singleton_append,
      List.findSome?_cons, ← ih]
    cases x <;> rfl

variable {entries}

theorem guard_ofEntries_eq_some_iff {e : Expr} :
    (ofEntries entries).guard = some e ↔
      ∃ before after, entries = before ++ .guard e :: after ∧ ∀ f, .guard f ∉ after := by
  rw [guard_ofEntries, List.findSome?_eq_some_iff]
  constructor
  · rintro ⟨after, x, before, heq, hx, hafter⟩
    obtain rfl : x = .guard e := by
      cases x <;> simp_all [Entry.guard?]
    refine ⟨before.reverse, after.reverse, by simpa using congrArg List.reverse heq, fun f hf => ?_⟩
    simpa [Entry.guard?] using hafter _ (List.mem_reverse.mp hf)
  · rintro ⟨before, after, rfl, hafter⟩
    refine ⟨after.reverse, .guard e, before.reverse, by simp, rfl, fun x hx => ?_⟩
    cases x with
    | guard f => exact absurd (List.mem_reverse.mp hx) (hafter f)
    | _ => rfl

/-- Where an update stands among the updates shows where it was entered. -/
theorem forall_updates_iff {P : List (String × Update) → String × Update → Prop} :
    (∀ before u after, (ofEntries entries).updates = before ++ u :: after → P before u) ↔
      ∀ before name value after, entries = before ++ .update name value :: after →
        P (ofEntries before).updates (name, value) := by
  rw [updates_ofEntries]
  constructor
  · rintro h before name value after rfl
    rw [updates_ofEntries]
    exact h _ _ (after.filterMap Entry.update?) (by simp [Entry.update?])
  · intro h before u after heq
    obtain ⟨xs, ys, rfl, rfl, hys⟩ := List.filterMap_eq_append_iff.mp heq
    obtain ⟨zs, x, after', rfl, hzs, hx, -⟩ := List.filterMap_eq_cons_iff.mp hys
    obtain ⟨name, value⟩ := u
    obtain rfl : x = .update name value := by
      cases x <;> simp_all [Entry.update?]
    have hbefore := h (xs ++ zs) name value after' (by simp)
    rwa [updates_ofEntries, List.filterMap_append, List.filterMap_eq_nil_iff.mpr hzs,
      List.append_nil] at hbefore

theorem mem_names_initial {s : String} :
    s ∈ (ofEntries entries).initial.map (·.1) ↔ Initialised entries s := by
  simp [Initialised, mem_initial_ofEntries]

theorem mem_names_updates {s : String} :
    s ∈ (ofEntries entries).updates.map (·.1) ↔ Updated entries s := by
  rw [updates_ofEntries, List.mem_map]
  constructor
  · rintro ⟨u, hu, rfl⟩
    obtain ⟨x, hx, hxu⟩ := List.mem_filterMap.mp hu
    refine ⟨u.2, ?_⟩
    cases x <;> simp_all [Entry.update?]
    rw [← hxu]
    exact hx
  · rintro ⟨value, hmem⟩
    exact ⟨(s, value), List.mem_filterMap.mpr ⟨_, hmem, rfl⟩, rfl⟩

theorem mem_names_constants {s : String} :
    s ∈ (ofEntries entries).constants.map (·.1) ↔
      Initialised entries s ∧ ¬Updated entries s := by
  rw [names_constants, mem_distinct, List.mem_filter, mem_names_initial,
    ← mem_names_updates]
  simp

end Entries

/-! ### What the checks decide -/

section Checks

variable {name : String} {earlier : List String} {known : String → Prop}

/-- What an affine expression mentions beside its variable, its rest mentions. -/
theorem checkBranch_eq_ok_iff_affineOver {e : Expr} (he : e.Built)
    (hknown : ∀ s, s ∈ earlier ↔ known s) :
    checkBranch name earlier e = .ok () ↔ e.AffineOver name known := by
  have hc := he.canonical
  rw [checkBranch_eq_ok_iff hc]
  constructor
  · rintro ⟨hcounter, hreads, haffine⟩
    have hrest := haffine.mentions_filter hc (by simp)
    refine ⟨Expr.mentions_eq_false_iff.mpr hcounter, _, _, Expr.built_iff_canonical.mpr (hc.filter _),
      (hc.scale_add_filter _).symm, hrest, fun s hs => ?_⟩
    obtain ⟨t, ht, hst⟩ := Expr.mem_freeSymbols_iff.mp (Expr.mentions_iff.mp hs)
    have hfree := Expr.mem_freeSymbols_iff.mpr ⟨t, (List.mem_filter.mp ht).1, hst⟩
    refine (hknown s).mp ((hreads s hfree).resolve_left ?_)
    rintro rfl
    exact Bool.false_ne_true (hrest.symm.trans hs)
  · rintro ⟨hcounter, a, q, -, rfl, hq, hreads⟩
    refine ⟨Expr.mentions_eq_false_iff.mp hcounter, fun s hs => ?_, Expr.affineIn_scale_add hq a⟩
    obtain ⟨t, ht, hst⟩ := Expr.mem_freeSymbols_iff.mp hs
    have hall : ((Expr.ofSymbol (.var name)).scale a + q).All fun m =>
        .var s ∈ Expr.monomialSymbols m → s = name ∨ s ∈ earlier := by
      refine Expr.all_add (Expr.all_scale (Expr.all_ofSymbol fun hmem => Or.inl ?_))
        fun t ht hmem => Or.inr ((hknown s).mpr (hreads s ?_))
      · simpa [Expr.monomialSymbols, Monomial.ofSymbol, Monomial.symbols, Monomial.isExponential]
          using hmem
      · exact Expr.mentions_iff.mpr (Expr.mem_freeSymbols_iff.mpr ⟨t, ht, hmem⟩)
    exact hall t ht hst

theorem checkUpdate_eq_ok_iff {u : Update} (hu : u.Built) (hknown : ∀ s, s ∈ earlier ↔ known s) :
    checkUpdate name earlier u = .ok () ↔ u.IsSolvable name known := by
  cases u with
  | random d => exact checkUpdate_random_eq_ok_iff
  | branches bs =>
    rw [checkUpdate_branches_eq_ok_iff]
    exact and_congr_right fun _ =>
      forall₂_congr fun b hb => checkBranch_eq_ok_iff_affineOver (hu b hb) hknown

theorem checkInitial_eq_ok_iff {u : Update} (hu : u.Built) :
    checkInitial name u = .ok () ↔ u.IsStart := by
  cases u with
  | random d => exact iff_of_true rfl trivial
  | branches bs =>
    exact checkInitial_branches_eq_ok_iff fun b hb => (hu b hb).canonical.toOrdered

theorem nodup_names_iff {us : List (String × Update)} :
    (us.map (·.1)).Nodup ↔ ∀ before u after, us = before ++ u :: after →
      u.1 ∉ before.map (·.1) := by
  constructor
  · rintro h before u after rfl hu
    rw [List.map_append, List.nodup_append] at h
    exact h.2.2 _ hu _ List.mem_cons_self rfl
  · intro h
    induction us using List.reverseRecOn with
    | nil => exact List.nodup_nil
    | append_singleton us u ih =>
      rw [List.map_append, List.nodup_append]
      refine ⟨ih fun before w after heq => h before w (after ++ [u]) (by simp [heq]),
        List.nodup_singleton _, fun s hs t ht hst => ?_⟩
      rw [List.map_singleton, List.mem_singleton] at ht
      exact h us u [] rfl (ht ▸ hst ▸ hs)

/-- The constants always pass. -/
theorem checkUpdates_constants_append {d : Draft} {us : List (String × Update)} :
    checkUpdates [] (d.constants ++ us) = .ok () ↔ ∀ before u after, us = before ++ u :: after →
      checkUpdate u.1 ((before.map (·.1)).reverse ++ (d.constants.map (·.1)).reverse) u.2 =
        .ok () := by
  have hconstants : checkUpdates [] d.constants = .ok () := by
    refine checkUpdates_of_own (fun u hu earlier => ?_) []
    rw [(exists_initial_of_mem_constants hu).1]
    exact checkUpdate_own u.1 earlier
  rw [checkUpdates_append, and_iff_right hconstants, checkUpdates_eq_ok_iff, List.append_nil]

variable {entries : List Entry}

theorem checkGuard_ofEntries_iff {e : Expr} :
    checkGuard (((ofEntries entries).constants ++ (ofEntries entries).updates).map (·.1))
        e.freeSymbols = .ok () ↔
      e.mentions .counter = false ∧
        ∀ s, e.mentions (.var s) = true → Initialised entries s ∨ Updated entries s := by
  rw [checkGuard_eq_ok_iff, Expr.mentions_eq_false_iff]
  refine and_congr_right fun _ => forall_congr' fun s => ?_
  rw [Expr.mentions_iff, List.map_append, List.mem_append, mem_names_constants, mem_names_updates]
  by_cases hs : Updated entries s <;> simp [hs]

theorem repeated?_ofEntries_iff :
    repeated? [] ((ofEntries entries).updates.map (·.1)) = none ↔
      ∀ before name value after, entries = before ++ .update name value :: after →
        ¬Updated before name := by
  rw [repeated?_eq_none_iff, nodup_names_iff, forall_updates_iff]
  simp only [mem_names_updates, List.not_mem_nil, not_false_eq_true, implies_true, and_true]

theorem checkUpdates_ofEntries_iff (h : ∀ x ∈ entries, x.Built) :
    checkUpdates [] ((ofEntries entries).constants ++ (ofEntries entries).updates) = .ok () ↔
      ∀ before name value after, entries = before ++ .update name value :: after →
        value.IsSolvable name fun s =>
          Initialised entries s ∧ ¬Updated entries s ∨ Updated before s := by
  rw [checkUpdates_constants_append, forall_updates_iff]
  refine forall_congr' fun before => forall_congr' fun name => forall_congr' fun value =>
    forall₂_congr fun after heq => checkUpdate_eq_ok_iff (h (.update name value) (by simp [heq])) ?_
  intro s
  rw [List.mem_append, List.mem_reverse, List.mem_reverse, mem_names_constants, mem_names_updates,
    or_comm]

theorem checkInitial_ofEntries_iff (h : ∀ x ∈ entries, x.Built) :
    (ofEntries entries).initial.forM (fun i => checkInitial i.1 i.2) = .ok () ↔
      ∀ name value, .initial name value ∈ entries → value.IsStart := by
  rw [except_forM_eq_ok_iff, Prod.forall]
  refine forall₂_congr fun name value => ?_
  rw [mem_initial_ofEntries]
  exact forall_congr' fun hmem => checkInitial_eq_ok_iff (h _ hmem)

end Checks

/-- A program is accepted exactly if its calls describe a loop whose variables can be solved one after
the other. -/
theorem build_ofEntries_iff {entries : List Entry} (h : ∀ x ∈ entries, x.Built) :
    (∃ p, (ofEntries entries).build = .ok p) ↔ ProbSolvable entries := by
  simp only [build_eq_ok_iff]
  constructor
  · rintro ⟨p, e, hguard, hrepeated, hupdates, hinitial, hcheck, -⟩
    obtain ⟨before, after, heq, hafter⟩ := guard_ofEntries_eq_some_iff.mp hguard
    exact ⟨⟨before, e, after, heq, hafter, checkGuard_ofEntries_iff.mp hcheck⟩,
      repeated?_ofEntries_iff.mp hrepeated, (checkUpdates_ofEntries_iff h).mp hupdates,
      (checkInitial_ofEntries_iff h).mp hinitial⟩
  · rintro ⟨⟨before, e, after, heq, hafter, hcheck⟩, honce, hupdate, hinitial⟩
    exact ⟨_, e, guard_ofEntries_eq_some_iff.mpr ⟨before, after, heq, hafter⟩,
      repeated?_ofEntries_iff.mpr honce, (checkUpdates_ofEntries_iff h).mpr hupdate,
      (checkInitial_ofEntries_iff h).mpr hinitial, checkGuard_ofEntries_iff.mpr hcheck, rfl⟩

/-- The step of a walk is drawn. -/
def drawn : Entry := .update "step" (.random (.bernoulli (1 / 2)))

/-- A walk that moves by a step and a drift, or falls back halfway. Its first initial value and its first
guard are replaced. -/
def walk : List Entry :=
  [.guard (.ofSymbol .counter),
    .initial "x" (.deterministic (.const 0)),
    .update "x" (.branches [
      (.ofSymbol (.var "x") + .ofSymbol (.var "step") * .ofSymbol (.var "drift"), 1 / 3),
      ((.ofSymbol (.var "x") : Expr).scale (1 / 2) + .ofSymbol (.real "a"), 2 / 3)]),
    .initial "drift" (.deterministic (.const 2)),
    .initial "x" (.branches [(.const 1, 1 / 4), (.const (-1), 3 / 4)]),
    .guard (.ofSymbol (.var "x") + .const 5)]

/-- The walk is accepted if the step is drawn before it is made, and not if it is drawn afterwards. -/
theorem probSolvable_walk : ProbSolvable (drawn :: walk) ∧ ¬ProbSolvable (walk ++ [drawn]) := by
  have hsymbol : ∀ s, (Expr.ofSymbol s).Built := .ofSymbol
  have hnumber : ∀ q, (Expr.const q).Built := .const
  have hwalk : ∀ x ∈ walk, x.Built := by
    simp only [walk, List.forall_mem_cons, Entry.Built, Update.Built, Update.deterministic, hsymbol,
      hnumber, true_and, List.not_mem_nil, IsEmpty.forall_iff, implies_true, and_true]
    exact ⟨⟨.add (hsymbol _) (.mul (hsymbol _) (hsymbol _)),
      .add (.scale (hsymbol _) _) (hsymbol _)⟩, .add (hsymbol _) (hnumber 5)⟩
  have hdrawn : drawn.Built := trivial
  have hbuilt : ((ofEntries (drawn :: walk)).build).isOk = true := by decide +kernel
  have hlate : ((ofEntries (walk ++ [drawn])).build).isOk = false := by decide +kernel
  constructor
  · exact (build_ofEntries_iff (List.forall_mem_cons.mpr ⟨hdrawn, hwalk⟩)).mp
      (except_isOk_iff.mp hbuilt)
  · intro h
    have hok := (build_ofEntries_iff (List.forall_mem_append.mpr
      ⟨hwalk, List.forall_mem_singleton.mpr hdrawn⟩)).mpr h
    rw [← except_isOk_iff, hlate] at hok
    cases hok

end Draft

end ProbLoop
