import ProbLoop.Proofs.ClosedForm
import ProbLoop.Proofs.Expr.Within

/-!
# Deterministic variables

A variable whose value is a function of the counter is replaced by its closed form. The result is
the same at any point of an analysis.
-/

set_option autoImplicit false

namespace ProbLoop

namespace Program

variable {p : Program}

/-- The moment of an initial value has no variables. -/
theorem within_moment {u : Update} (hu : u.Starts) (k : Nat) : (u.moment k).Within [] := by
  cases u with
  | branches bs =>
    apply Expr.within_sum
    intro e he
    obtain ⟨b, hb, rfl⟩ := List.mem_map.mp he
    obtain ⟨q, hq⟩ := hu.2 b hb
    rw [hq]
    exact ((Expr.within_const q).pow k).scale b.2
  | random d =>
    change (d.moment k).Within []
    cases d with
    | unknown x =>
      obtain ⟨name, rfl⟩ := hu x rfl
      rw [Distribution.moment]
      split
      · exact Expr.within_const 1
      · exact (Expr.within_ofSymbol (by simp [Symbol.isVar])).pow k
    | _ =>
      rw [Distribution.moment]
      split
      · exact Expr.within_const 1
      · exact Expr.within_const _

theorem exists_initial? {s : Symbol} (hs : s ∈ p.vars) :
    ∃ d ∈ p.declarations, p.initial? s = some d.initial := by
  obtain ⟨d, hd, rfl⟩ := List.mem_map.mp hs
  obtain ⟨c, hc⟩ := Option.isSome_iff_exists.mp
    (List.find?_isSome.mpr ⟨d, hd, beq_self_eq_true d.symbol⟩ :
      (p.declarations.find? fun c => c.symbol == d.symbol).isSome = true)
  refine ⟨c, List.mem_of_find?_eq_some hc, ?_⟩
  rw [initial?, declaration?, hc, Option.map_some]

theorem WellFormed.within_initialMoment (hp : p.WellFormed) {m : Monomial} (hm : m.Over p.vars) :
    (p.initialMoment m).Within [] := by
  apply List.foldlRecOn m.powers _ (Expr.within_const 1)
  intro acc ha s hs
  obtain ⟨d, hd, hi⟩ := exists_initial? (hm.mem_vars s hs)
  simp only [hi]
  exact ha.mul (within_moment (hp.starts d hd) s.2)

theorem within_foldl_combine {value : Monomial → Expr} {ts : List (Monomial × Rat)}
    (h : ∀ t ∈ ts, (value t.1).Within []) {acc : Expr} (ha : acc.Within []) :
    (ts.foldl (fun acc t => acc + .const t.2 * value t.1) acc).Within [] := by
  induction ts generalizing acc with
  | nil => exact ha
  | cons t ts ih =>
    obtain ⟨ht, hts⟩ := List.forall_mem_cons.mp h
    exact ih hts (ha.add ((Expr.within_const _).mul ht))

/-- A closed form has no variables. -/
theorem WellFormed.within_closed (hp : p.WellFormed) (m : Monomial) (hm : m.Over p.vars) :
    (p.closed m).Within [] := by
  induction m using (InvImage.wf p.rank Rank.below_wf).induction with
  | h m ih =>
    have hi : (p.inhomogeneous m).Within [] := by
      apply within_foldl_combine _ Expr.within_zero
      intro t ht
      obtain ⟨hover, hbelow⟩ := hp.below_of_mem hm ht
      exact ih t.1 hbelow hover
    rw [(hp.keeps_closedForm m hm).2.1, solved]
    split
    · exact Expr.within_const 1
    · exact Recurrence.within_solve _ (hi.shift _) (hp.within_initialMoment hm)

/-- The deterministic variables of a list with their closed forms. -/
def settledValues (p : Program) (ss : List Symbol) : List (Symbol × Expr) :=
  (ss.filter fun s => s.isVar && !p.isProbabilistic s).map fun s =>
    (s, p.closed (Monomial.ofSymbol s 1))

/-- The expression with every deterministic variable replaced by its closed form. -/
def settled (p : Program) (e : Expr) : Expr :=
  e.substAll fun s => Assoc.find? s (p.settledValues e.freeSymbols)

theorem find?_settledValues {ss : List Symbol} {s : Symbol} :
    Assoc.find? s (p.settledValues ss) =
      if s ∈ ss ∧ s.isVar = true ∧ p.isProbabilistic s = false then
        some (p.closed (Monomial.ofSymbol s 1))
      else none := by
  induction ss with
  | nil => rfl
  | cons t ss ih =>
    unfold settledValues at ih ⊢
    by_cases ht : (t.isVar && !p.isProbabilistic t) = true
    · rw [List.filter_cons, if_pos ht, List.map_cons, Assoc.find?]
      by_cases hts : t = s
      · subst hts
        simp_all
      · rw [if_neg hts, ih]
        simp [Ne.symm hts]
    · rw [List.filter_cons, if_neg ht, ih]
      by_cases hts : s = t
      · subst hts
        have hno : ¬(s.isVar = true ∧ p.isProbabilistic s = false) := by simpa using ht
        rw [if_neg fun h => hno h.2, if_neg fun h => hno h.2]
      · simp [hts]

theorem isVar_freeSymbols {vars : List Symbol} {e : Expr} (he : e.Within vars) :
    ∀ s ∈ e.freeSymbols, s.isVar = true → s ∈ vars := by
  intro s hs hvar
  obtain ⟨t, ht, q, hq, rfl⟩ := Expr.exists_of_mem_freeSymbols hs hvar
  exact (he.within t ht).mem_vars q hq hvar

section Settled

variable (hp : p.WellFormed)
include hp

theorem WellFormed.keeps_deterministicValues {ss : List Symbol}
    (h : ∀ s ∈ ss, s.isVar = true → s ∈ p.vars) :
    (p.deterministicValues ss).Keeps (Memo.Sound p.IsClosed []) (p.settledValues ss) := by
  induction ss with
  | nil => exact Attempt.keeps_pure []
  | cons s ss ih =>
    obtain ⟨hs, hss⟩ := List.forall_mem_cons.mp h
    rw [deterministicValues]
    unfold settledValues at ih ⊢
    by_cases hdet : (s.isVar && !p.isProbabilistic s) = true
    · rw [if_pos hdet, List.filter_cons, if_pos hdet]
      rw [Bool.and_eq_true] at hdet
      have hclosed := (hp.keeps_closedForm _ (Monomial.over_ofSymbol (hs hdet.1) 1)).1 []
        fun _ hk => absurd hk List.not_mem_nil
      exact hclosed.bind ((ih hss).bind (Attempt.keeps_pure _))
    · rw [if_neg hdet, List.filter_cons, if_neg hdet]
      exact ih hss

/-- Replacing the deterministic variables gives one answer, whatever is known already. -/
theorem WellFormed.keeps_substDeterministic {e : Expr}
    (h : ∀ s ∈ e.freeSymbols, s.isVar = true → s ∈ p.vars) :
    (p.substDeterministic e).Keeps (Memo.Sound p.IsClosed []) (p.settled e) :=
  (hp.keeps_deterministicValues h).bind (Attempt.keeps_pure _)

/-- The variables that are left are probabilistic. -/
theorem WellFormed.within_settled {e : Expr} {vars : List Symbol} (he : e.Within vars)
    (hvars : ∀ s ∈ vars, s.isVar = true ∧ s ∈ p.vars) :
    (p.settled e).Within (vars.filter p.isProbabilistic) := by
  have hfree := isVar_freeSymbols he
  have hwithin : ∀ s value, Assoc.find? s (p.settledValues e.freeSymbols) = some value →
      value.Within (vars.filter p.isProbabilistic) := by
    intro s value hs
    rw [find?_settledValues] at hs
    split at hs
    · next h =>
      rw [← Option.some.inj hs]
      have hover := Monomial.over_ofSymbol (hvars s (hfree s h.1 h.2.1)).2 1
      exact (hp.within_closed _ hover).mono (by simp)
    · simp at hs
  have hoccurring : e.Within (vars.filter fun s => e.freeSymbols.contains s) := by
    refine ⟨he.toOrdered, fun t ht => ⟨(he.within t ht).toCanonical, fun q hq hvar => ?_⟩⟩
    apply List.mem_filter.mpr
    constructor
    · exact (he.within t ht).mem_vars q hq hvar
    · simpa using Expr.mem_freeSymbols ht hq
  apply hoccurring.substAll hwithin
  intro s hs hnone
  obtain ⟨hs, hmem⟩ := List.mem_filter.mp hs
  refine List.mem_filter.mpr ⟨hs, ?_⟩
  by_contra hdet
  rw [find?_settledValues, if_pos ⟨by simpa using hmem, (hvars s hs).1, by simpa using hdet⟩]
    at hnone
  simp at hnone

theorem WellFormed.within_settled_vars {e : Expr} (he : e.Within p.vars) :
    (p.settled e).Within p.vars :=
  (hp.within_settled he fun s hs => ⟨isVar_of_mem_vars s hs, hs⟩).mono
    fun _ hs => List.mem_of_mem_filter hs

end Settled

/-- A deterministic variable has the value of its closed form. -/
def Follows (p : Program) (n : Nat) (v : Valuation) : Prop :=
  ∀ s ∈ p.vars, p.isProbabilistic s = false →
    v s = (p.closed (Monomial.ofSymbol s 1)).value n v

/-- Replacing deterministic variables by their closed forms keeps the value of an expression if those that
occur have the values of their closed forms. -/
theorem value_settled_of_occurring {e : Expr} {n : Nat} {v : Valuation}
    (h : ∀ s ∈ e.freeSymbols, s.isVar = true → p.isProbabilistic s = false →
      v s = (p.closed (Monomial.ofSymbol s 1)).value n v) :
    (p.settled e).value n v = e.value n v := by
  rw [settled, Expr.value_substAll _ _ (by rw [find?_settledValues]; simp [Symbol.isVar])]
  congr 1
  funext s
  rw [find?_settledValues]
  split
  · next hs => exact (h s hs.1 hs.2.1 hs.2.2).symm
  · rfl

theorem value_settled {e : Expr} (he : e.Within p.vars) {n : Nat} {v : Valuation}
    (hv : p.Follows n v) : (p.settled e).value n v = e.value n v :=
  value_settled_of_occurring fun s hs hvar => hv s (isVar_freeSymbols he s hs hvar)

end Program

end ProbLoop
