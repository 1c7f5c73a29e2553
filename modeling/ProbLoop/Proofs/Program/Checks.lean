import ProbLoop.Program.Draft
import ProbLoop.Proofs.Except
import ProbLoop.Proofs.Expr.Affine

/-!
# What the checks of a draft accept

Every check is read as the condition that it decides. An update is checked against the names before it,
so a list of updates passes if each of them passes after the names of those that precede it.
-/

set_option autoImplicit false

namespace ProbLoop.Draft

variable {name : String} {earlier : List String}

theorem checkProbabilitiesFrom_eq_ok_iff {sum : Rat} {bs : List (Expr × Rat)} :
    checkProbabilitiesFrom name sum bs = .ok () ↔
      (∀ b ∈ bs, 0 < b.2 ∧ b.2 ≤ 1) ∧ sum + (bs.map (·.2)).sum = 1 := by
  induction bs generalizing sum with
  | nil => simp [checkProbabilitiesFrom]
  | cons b bs ih =>
    obtain ⟨e, p⟩ := b
    rw [List.forall_mem_cons, List.map_cons, List.sum_cons, ← add_assoc, and_assoc, ← ih,
      checkProbabilitiesFrom]
    split
    · next hp =>
      refine iff_of_false (by simp) fun h => ?_
      exact hp.elim (fun hp => h.1.1.not_ge hp) fun hp => h.1.2.not_gt hp
    · next hp =>
      obtain ⟨hpos, hle⟩ := not_or.mp hp
      exact (and_iff_right ⟨not_le.mp hpos, not_lt.mp hle⟩).symm

theorem checkProbabilities_eq_ok_iff {bs : List (Expr × Rat)} :
    checkProbabilities name bs = .ok () ↔
      (∀ b ∈ bs, 0 < b.2 ∧ b.2 ≤ 1) ∧ (bs.map (·.2)).sum = 1 := by
  rw [checkProbabilities, checkProbabilitiesFrom_eq_ok_iff, zero_add]

theorem checkSymbols_eq_ok_iff {ss : List Symbol} :
    checkSymbols name earlier ss = .ok () ↔
      .counter ∉ ss ∧ ∀ s, .var s ∈ ss → s = name ∨ s ∈ earlier := by
  induction ss with
  | nil => simp [checkSymbols]
  | cons t ss ih =>
    cases t with
    | counter => simp [checkSymbols]
    | var r =>
      by_cases hr : r = name ∨ r ∈ earlier
      · rw [checkSymbols, if_pos hr, ih]
        simp only [List.mem_cons, reduceCtorEq, false_or, Symbol.var.injEq]
        refine and_congr_right fun _ => ⟨fun h s hs => ?_, fun h s hs => h s (Or.inr hs)⟩
        rcases hs with rfl | hs
        · exact hr
        · exact h s hs
      · rw [checkSymbols, if_neg hr]
        simp only [reduceCtorEq, false_iff, not_and]
        exact fun _ h => hr (h r List.mem_cons_self)
    | real r => simp [checkSymbols, ih]
    | positive r => simp [checkSymbols, ih]

theorem checkGuard_eq_ok_iff {names : List String} {ss : List Symbol} :
    checkGuard names ss = .ok () ↔ .counter ∉ ss ∧ ∀ s, .var s ∈ ss → s ∈ names := by
  induction ss with
  | nil => simp [checkGuard]
  | cons t ss ih =>
    cases t with
    | counter => simp [checkGuard]
    | var r =>
      by_cases hr : r ∈ names
      · simp [checkGuard, hr, ih]
      · simp [checkGuard, hr]
    | real r => simp [checkGuard, ih]
    | positive r => simp [checkGuard, ih]

theorem checkBranch_eq_ok_iff {e : Expr} (he : e.Canonical) :
    checkBranch name earlier e = .ok () ↔
      .counter ∉ e.freeSymbols ∧ (∀ s, .var s ∈ e.freeSymbols → s = name ∨ s ∈ earlier) ∧
        e.AffineIn (.var name) := by
  rw [checkBranch, except_check_eq_ok, checkSymbols_eq_ok_iff, Expr.affineIn_iff_check he,
    and_assoc]
  refine and_congr_right fun _ => and_congr_right fun _ => ?_
  simp only
  split
  · next hdegree => exact iff_of_false (by simp) fun h => h.1.not_gt hdegree
  · next hdegree =>
    rw [and_iff_right (not_lt.mp hdegree), ← Option.isSome_iff_exists]
    split
    · next hnone => exact iff_of_false (by simp) (by simpa using hnone)
    · next hsome => exact iff_of_true rfl (Option.isSome_iff_ne_none.mpr (by simpa using hsome))

theorem checkUpdate_random_eq_ok_iff {d : Distribution} :
    checkUpdate name earlier (.random d) = .ok () ↔ ∀ x, d ≠ .unknown x := by
  cases d <;> simp [checkUpdate]

theorem checkUpdate_branches_eq_ok_iff {bs : List (Expr × Rat)} :
    checkUpdate name earlier (.branches bs) = .ok () ↔
      ((∀ b ∈ bs, 0 < b.2 ∧ b.2 ≤ 1) ∧ (bs.map (·.2)).sum = 1) ∧
        ∀ b ∈ bs, checkBranch name earlier b.1 = .ok () := by
  rw [checkUpdate, except_check_eq_ok, checkProbabilities_eq_ok_iff, except_forM_eq_ok_iff]

theorem checkInitial_branches_eq_ok_iff {bs : List (Expr × Rat)} (hbs : ∀ b ∈ bs, b.1.Ordered) :
    checkInitial name (.branches bs) = .ok () ↔
      ((∀ b ∈ bs, 0 < b.2 ∧ b.2 ≤ 1) ∧ (bs.map (·.2)).sum = 1) ∧
        ∀ b ∈ bs, ∃ q, b.1 = .const q := by
  rw [checkInitial, except_check_eq_ok, checkProbabilities_eq_ok_iff]
  refine and_congr_right fun _ => ?_
  split
  · next hany =>
    obtain ⟨b, hb, hnone⟩ := List.any_eq_true.mp hany
    refine iff_of_false (by simp) fun h => ?_
    obtain ⟨q, hq⟩ := h b hb
    rw [hq, Expr.constant?_const] at hnone
    cases hnone
  · next hall =>
    refine iff_of_true rfl fun b hb => ?_
    have hsome : ¬b.1.constant?.isNone = true := fun hnone =>
      hall (List.any_eq_true.mpr ⟨b, hb, hnone⟩)
    obtain ⟨q, hq⟩ := Option.ne_none_iff_exists'.mp (by simpa using hsome)
    exact ⟨q, Expr.eq_const_of_constant? (hbs b hb) hq⟩

/-- Every update is checked after those that precede it. -/
theorem checkUpdates_eq_ok_iff {us : List (String × Update)} :
    checkUpdates earlier us = .ok () ↔ ∀ before u after, us = before ++ u :: after →
      checkUpdate u.1 ((before.map (·.1)).reverse ++ earlier) u.2 = .ok () := by
  induction us generalizing earlier with
  | nil => simp [checkUpdates]
  | cons u us ih =>
    rw [checkUpdates, except_check_eq_ok, ih]
    constructor
    · rintro ⟨hu, hus⟩ before w after heq
      cases before with
      | nil =>
        obtain ⟨rfl, -⟩ := List.cons.inj heq
        exact hu
      | cons _ before =>
        obtain ⟨rfl, rfl⟩ := List.cons.inj heq
        simpa using hus before w after rfl
    · intro h
      refine ⟨h [] u us rfl, fun before w after heq => ?_⟩
      simpa using h (u :: before) w after (by rw [heq, List.cons_append])

theorem checkUpdates_append {us vs : List (String × Update)} :
    checkUpdates earlier (us ++ vs) = .ok () ↔ checkUpdates earlier us = .ok () ∧
      checkUpdates ((us.map (·.1)).reverse ++ earlier) vs = .ok () := by
  induction us generalizing earlier with
  | nil => simp [checkUpdates]
  | cons u us ih =>
    rw [List.cons_append, checkUpdates, checkUpdates, except_check_eq_ok, except_check_eq_ok, ih,
      and_assoc, List.map_cons, List.reverse_cons, List.append_assoc, List.singleton_append]

/-- A variable that keeps its value passes after any others. -/
theorem checkUpdate_own (name : String) (earlier : List String) :
    checkUpdate name earlier (.deterministic (.ofSymbol (.var name))) = .ok () := by
  rw [Update.deterministic, checkUpdate_branches_eq_ok_iff, List.forall_mem_singleton,
    List.forall_mem_singleton, checkBranch_eq_ok_iff (Expr.canonical_ofSymbol _)]
  have hfree : (Expr.ofSymbol (.var name)).freeSymbols = [.var name] := rfl
  refine ⟨by simp, by simp [hfree], fun s hs => ?_, Expr.all_ofSymbol (Or.inr rfl)⟩
  rw [hfree, List.mem_singleton] at hs
  exact Or.inl (Symbol.var.inj hs)

/-- Updates that read nothing but their own variables may stand in any order. -/
theorem checkUpdates_of_own {us : List (String × Update)}
    (h : ∀ u ∈ us, ∀ earlier, checkUpdate u.1 earlier u.2 = .ok ()) (earlier : List String) :
    checkUpdates earlier us = .ok () := by
  induction us generalizing earlier with
  | nil => rfl
  | cons u us ih =>
    obtain ⟨hu, hus⟩ := List.forall_mem_cons.mp h
    exact except_check_eq_ok.mpr ⟨hu earlier, ih hus _⟩

/-! ### Names -/

theorem repeated?_eq_none_iff {seen names : List String} :
    repeated? seen names = none ↔ names.Nodup ∧ ∀ s ∈ names, s ∉ seen := by
  induction names generalizing seen with
  | nil => simp [repeated?]
  | cons s names ih =>
    rw [repeated?, List.nodup_cons, List.forall_mem_cons]
    split
    · next hs => exact iff_of_false (by simp) fun h => h.2.1 (by simpa using hs)
    · next hs =>
      have hs : s ∉ seen := by simpa using hs
      simp only [ih, List.mem_cons, not_or]
      constructor
      · rintro ⟨hnodup, hseen⟩
        exact ⟨⟨fun hmem => (hseen s hmem).1 rfl, hnodup⟩, hs, fun t ht => (hseen t ht).2⟩
      · rintro ⟨⟨hmem, hnodup⟩, -, hseen⟩
        exact ⟨hnodup, fun t ht => ⟨fun heq => hmem (heq ▸ ht), hseen t ht⟩⟩

theorem distinct_concat (names : List String) (s : String) : distinct (names ++ [s]) =
    if s ∈ distinct names then distinct names else distinct names ++ [s] := by
  simp only [distinct, List.foldl_append, List.foldl_cons, List.foldl_nil, List.contains_iff_mem]

theorem mem_distinct {names : List String} {s : String} : s ∈ distinct names ↔ s ∈ names := by
  induction names using List.reverseRecOn with
  | nil => exact Iff.rfl
  | append_singleton names t ih =>
    rw [distinct_concat, List.mem_append, List.mem_singleton, ← ih]
    split
    · next ht => exact (or_iff_left_of_imp fun hst => hst ▸ ht).symm
    · rw [List.mem_append, List.mem_singleton]

theorem nodup_distinct (names : List String) : (distinct names).Nodup := by
  induction names using List.reverseRecOn with
  | nil => exact List.nodup_nil
  | append_singleton names s ih =>
    rw [distinct_concat]
    split
    · exact ih
    · next hs => exact List.concat_eq_append ▸ ih.concat hs

theorem distinct_of_nodup {names : List String} (h : names.Nodup) : distinct names = names := by
  induction names using List.reverseRecOn with
  | nil => rfl
  | append_singleton names s ih =>
    obtain ⟨hnames, -, hs⟩ := List.nodup_append.mp h
    rw [distinct_concat, ih hnames, if_neg fun hmem => hs s hmem s List.mem_cons_self rfl]

/-! ### Programs -/

theorem build_eq_ok_iff {d : Draft} {p : Program} :
    d.build = .ok p ↔ ∃ guard, d.guard = some guard ∧
      repeated? [] (d.updates.map (·.1)) = none ∧
      checkUpdates [] (d.constants ++ d.updates) = .ok () ∧
      d.initial.forM (fun i => checkInitial i.1 i.2) = .ok () ∧
      checkGuard ((d.constants ++ d.updates).map (·.1)) guard.freeSymbols = .ok () ∧
      p = ⟨(d.constants ++ d.updates).map fun u => ⟨u.1, d.initialOf u.1, u.2⟩, guard⟩ := by
  rw [build]
  split
  · next hguard => simp [hguard]
  · next guard hguard =>
    split
    · next hrepeated => simp [hrepeated]
    · next hrepeated =>
      simp only [except_check_eq_ok, hguard, hrepeated, Option.some.injEq, exists_eq_left', true_and,
        Except.ok.injEq, eq_comm (a := p)]

end ProbLoop.Draft
