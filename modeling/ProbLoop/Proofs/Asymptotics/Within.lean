import ProbLoop.Asymptotics.SignSplit
import ProbLoop.Proofs.Asymptotics.Limit
import ProbLoop.Proofs.Ensures
import ProbLoop.Proofs.Expr.Within

/-!
# Bounds without variables

Folding candidates, making them canonical and splitting them on an unknown sign leads from expressions
without variables to expressions without variables.
-/

set_option autoImplicit false

namespace ProbLoop

variable {vars : List Symbol} {e : Expr}

/-- Drawing constants keeps every invariant, since it is only about expressions. -/
theorem Attempt.ensures_lift {σ α : Type} {x : StateM σ α} {P : α → Prop}
    (h : ∀ s, P (x.run s).1) : (liftM x : Attempt σ α).Ensures (fun _ => True) P := by
  intro s _
  refine ⟨trivial, fun a ha => ?_⟩
  have hrun : (liftM x : Attempt σ α).run.run s = (.ok (x.run s).1, (x.run s).2) := rfl
  rw [hrun] at ha
  rw [← Except.ok.inj ha]
  exact h s

theorem Growth.within_order (g : Growth) : g.order.Within vars :=
  (Expr.within_term (Monomial.within_ofSymbol (by simp [Symbol.isVar]) _) 1).mul
    (Expr.within_exponential _)

namespace Expr

theorem within_positive (name : String) : (ofSymbol (.positive name)).Within vars :=
  within_ofSymbol (by simp [Symbol.isVar])

theorem within_canonicalOf? {make : Symbol → Expr} (h : e.canonicalOf? = some make)
    (name : String) : (make (.positive name)).Within vars := by
  unfold canonicalOf? at h
  split at h
  · simp at h
  · split at h
    · simp at h
    · split at h
      · rw [← Option.some.inj h]
        exact (within_positive name).mul (Growth.within_order _)
      · rw [← Option.some.inj h]
        exact ((within_positive name).mul (Growth.within_order _)).scale _
      · simp at h

theorem ensures_canonicalize (he : e.Within vars) :
    (liftM e.canonicalize : Attempt Supply Expr).Ensures (fun _ => True) (·.Within vars) := by
  apply Attempt.ensures_lift
  intro s
  unfold canonicalize
  split
  · exact he
  · split
    · exact he
    · next make hmake => exact within_canonicalOf? hmake _

theorem dominantOf_mem (direction : Direction) (kept : Expr) (fs : List Expr) :
    dominantOf direction kept fs = kept ∨ dominantOf direction kept fs ∈ fs := by
  induction fs generalizing kept with
  | nil => exact Or.inl rfl
  | cons f fs ih =>
    rw [dominantOf]
    split
    · exact (ih kept).imp_right (List.mem_cons_of_mem f)
    · split
      · rcases ih f with h | h
        · rw [h]
          exact Or.inr List.mem_cons_self
        · exact Or.inr (List.mem_cons_of_mem f h)
      · exact (ih kept).imp_right (List.mem_cons_of_mem f)

theorem ensures_eventualBound (direction : Direction) {fs : List Expr}
    (h : ∀ f ∈ fs, f.Within vars) :
    (eventualBound direction fs).Ensures (fun _ => True) (·.Within vars) := by
  cases fs with
  | nil => exact Attempt.ensures_throw _
  | cons f fs =>
    obtain ⟨hf, hfs⟩ := List.forall_mem_cons.mp h
    apply ensures_canonicalize
    rcases dominantOf_mem direction f fs with heq | hmem
    · rw [heq]
      exact hf
    · exact hfs _ hmem

/-- The coefficient with whose sign a limit is infinite. -/
theorem within_of_limit_signedInf (he : e.Within vars) {c : Expr} (h : e.limit = .signedInf c) :
    c.Within vars := by
  cases hdep : e.dependsOnCounter with
  | false => simp [limit_of_not_dependsOnCounter hdep] at h
  | true =>
    obtain ⟨d, hd, hlimit⟩ := limit_of_dependsOnCounter hdep
    rw [hlimit, dominantLimit] at h
    have hc : d.coefficient.Within vars := by
      rw [dominant?, Option.map_eq_some_iff] at hd
      obtain ⟨g, -, rfl⟩ := hd
      apply within_ofTerms
      intro u hu
      obtain ⟨t, ht, rfl⟩ := List.mem_map.mp hu
      exact (he.within t (List.mem_filter.mp (List.mem_filter.mp ht).1).1).still
    split at h
    · simp at h
    · split at h
      · simp at h
      · split at h
        · simp at h
        · split at h
          · simp at h
          · simp at h
          · rw [← Limit.signedInf.inj h]
            exact hc

theorem within_solvable? {c : Expr} (hc : c.Within vars) {s : Solvable}
    (h : c.solvable? = some s) : s.rest.Within vars := by
  unfold solvable? at h
  obtain ⟨x, -, hx⟩ := List.exists_of_findSome?_eq_some h
  obtain ⟨⟨q, rest⟩, hq, rfl⟩ := Option.map_eq_some_iff.mp hx
  unfold linearIn? at hq
  simp only at hq
  split at hq
  · simp at hq
  · obtain ⟨a, -, ha⟩ := Option.map_eq_some_iff.mp hq
    rw [← (Prod.mk.inj ha).2]
    refine ⟨⟨hc.sorted.filter _, ?_⟩, ?_⟩
    · exact fun t ht => hc.coefficient_ne_zero t (List.mem_filter.mp ht).1
    · exact fun t ht => hc.within t (List.mem_filter.mp ht).1

theorem ensures_splitSign (he : e.Within vars) :
    e.splitSign.Ensures (fun _ => True) fun fs => ∀ f ∈ fs, f.Within vars := by
  unfold splitSign
  split
  · next c hc =>
    split
    · exact Attempt.ensures_throw _
    · next s hs =>
      have hrest := within_solvable? (within_of_limit_signedInf he hc) hs
      apply Attempt.Ensures.bind (P := fun x : Symbol => (ofSymbol x).Within vars)
      · exact Attempt.ensures_lift fun _ => within_positive _
      · intro x hx
        apply Attempt.ensures_pure
        intro f hf
        have htarget : ∀ target : Expr, target.Within vars → (e.solveFor s target).Within vars :=
          fun target ht => he.subst ((ht.sub hrest).scale _)
        simp only [List.mem_cons, List.not_mem_nil, or_false] at hf
        rcases hf with rfl | rfl
        · exact htarget _ hx.neg
        · exact htarget _ hx
  · apply Attempt.ensures_pure
    intro f hf
    rw [List.mem_singleton.mp hf]
    exact he

end Expr

end ProbLoop
