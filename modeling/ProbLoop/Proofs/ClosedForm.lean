import Mathlib
import ProbLoop.Moments
import ProbLoop.Proofs.Memo
import ProbLoop.Proofs.Program.OneStep
import ProbLoop.Proofs.Recurrence
import ProbLoop.Proofs.Source.Meaning

/-!
# Closed forms of moments

The closed form of a monomial follows the mean of the monomial from the first iteration on, up to what
its recurrence makes of the start: a monomial that does not occur in its own mean after one iteration
has a closed form that ignores the initial values. The mean after `k` iterations is therefore exact if
and only if these differences cancel in it.
-/

set_option autoImplicit false

namespace ProbLoop

namespace Program

variable {p : Program}

/-- The closed form of a monomial, computed with an empty table. -/
def closed (p : Program) (m : Monomial) : Expr :=
  match ((p.closedForm m).run.run Memo.empty).1 with
  | .ok e => e
  | .error _ => .zero

/-- What the recurrence of a monomial adds in each iteration, in terms of the iteration before. -/
def inhomogeneous (p : Program) (m : Monomial) : Expr :=
  ((p.expectedNext (.term m 1)).terms.filter (·.1 != m)).foldl
    (fun acc t => acc + .const t.2 * p.closed t.1) .zero

/-- The closed form of a monomial in terms of those of the monomials below it. -/
def solved (p : Program) (m : Monomial) : Expr :=
  if m.isOne then .one
  else Recurrence.solve ((p.expectedNext (.term m 1)).coefficient m) ((p.inhomogeneous m).shift (-1))
    (p.initialMoment m)

/-- The entries of a table of closed forms that are right. -/
def IsClosed (p : Program) (m : Monomial) (e : Expr) : Prop :=
  m.Over p.vars ∧ e = p.solved m

theorem keeps_combine {σ : Type} {I : σ → Prop} {closed : Monomial → Attempt σ Expr}
    {value : Monomial → Expr} {groups : List (Monomial × Expr)}
    (h : ∀ g ∈ groups, (closed g.1).Keeps I (value g.1)) (acc : Expr) :
    (combine closed acc groups).Keeps I
      (groups.foldl (fun acc g => acc + g.2 * value g.1) acc) := by
  induction groups generalizing acc with
  | nil => exact Attempt.keeps_pure acc
  | cons g groups ih =>
    have hg := List.forall_mem_cons.mp h
    exact hg.1.bind (ih hg.2 _)

theorem filter_ne_eq {ν : Type} {l : List (Monomial × ν)} (hl : Assoc.Sorted Monomial.cmp l)
    (m : Monomial) :
    l.takeWhile (·.1 != m) ++ (l.dropWhile (·.1 != m)).drop 1 = l.filter (·.1 != m) := by
  induction l with
  | nil => rfl
  | cons t l ih =>
    by_cases ht : t.1 = m
    · have hne : ∀ u ∈ l, (u.1 != m) = true := by
        intro u hu
        simpa [← ht] using hl.ne_of_mem u hu
      simp [ht, List.filter_eq_self.mpr hne]
    · have hb : (t.1 != m) = true := by simpa using ht
      simp only [List.takeWhile_cons, List.dropWhile_cons, List.filter_cons, hb, if_true,
        List.cons_append, ih (List.pairwise_cons.mp hl).2]

theorem recurrenceFactor_eq {e : Expr} (m : Monomial) :
    recurrenceFactor m (e.terms.map fun t => (t.1, Expr.const t.2)) = .ok (e.coefficient m) := by
  rw [recurrenceFactor, Expr.find?_map_const, Expr.coefficient]
  cases Assoc.find? m e.terms with
  | none => rfl
  | some c => simp [Expr.constant?_const]

theorem canonical_foldl_combine {value : Monomial → Expr} {ts : List (Monomial × Rat)}
    (h : ∀ t ∈ ts, (value t.1).Canonical) {acc : Expr} (ha : acc.Canonical) :
    (ts.foldl (fun acc t => acc + .const t.2 * value t.1) acc).Canonical := by
  induction ts generalizing acc with
  | nil => exact ha
  | cons t ts ih =>
    have ht := List.forall_mem_cons.mp h
    exact ih ht.2 (ha.add ((Expr.canonical_const _).mul ht.1))

theorem value_foldl_combine (n : Nat) (v : Valuation) (value : Monomial → Expr)
    (ts : List (Monomial × Rat)) (acc : Expr) :
    (ts.foldl (fun acc t => acc + .const t.2 * value t.1) acc).value n v =
      acc.value n v + (⟨ts⟩ : Expr).lift fun m => (value m).value n v := by
  induction ts generalizing acc with
  | nil => simp [Expr.lift]
  | cons t ts ih =>
    rw [List.foldl_cons, ih, Expr.lift_cons]
    simp only [Expr.value_add, Expr.value_mul, Expr.value_const]
    ring

/-- The moment of an initial value does not depend on the counter. -/
theorem still_moment {u : Update} (hu : u.Starts) (k : Nat) : (u.moment k).Still := by
  cases u with
  | branches bs =>
    apply Expr.still_sum
    intro e he
    obtain ⟨b, hb, rfl⟩ := List.mem_map.mp he
    obtain ⟨q, hq⟩ := hu.2 b hb
    rw [hq]
    exact ((Expr.still_const q).pow k).scale b.2
  | random d =>
    change (d.moment k).Still
    cases d with
    | unknown x =>
      obtain ⟨name, rfl⟩ := hu x rfl
      rw [Distribution.moment]
      split
      · exact Expr.still_one
      · exact (Expr.still_ofSymbol (by simp)).pow k
    | _ =>
      rw [Distribution.moment]
      split
      · exact Expr.still_one
      · exact Expr.still_const _

theorem WellFormed.still_initialMoment (hp : p.WellFormed) {m : Monomial} (hm : m.Over p.vars) :
    (p.initialMoment m).Still := by
  apply List.foldlRecOn m.powers _ Expr.still_one
  intro acc ha s hs
  cases hi : p.initial? s.1 with
  | some u =>
    obtain ⟨d, hd, rfl⟩ := Option.map_eq_some_iff.mp hi
    exact ha.mul (still_moment (hp.starts d (List.mem_of_find?_eq_some hd)) s.2)
  | none =>
    refine ha.mul ((Expr.still_ofSymbol fun h => ?_).pow s.2)
    have hv := isVar_of_mem_vars s.1 (hm.mem_vars s hs)
    rw [h] at hv
    exact absurd hv (by decide)

theorem WellFormed.isPlain_expectedNext (hp : p.WellFormed) {m : Monomial} (hm : m.Over p.vars) :
    (p.expectedNext (.term m 1)).IsPlain :=
  (hp.over_expectedNext (Expr.over_term hm 1)).isPlain isVar_of_mem_vars

/-- The monomials on which the closed form of a monomial depends come before it in the descent. -/
theorem WellFormed.below_of_mem (hp : p.WellFormed) {m : Monomial} (hm : m.Over p.vars)
    {t : Monomial × Rat} (ht : t ∈ (p.expectedNext (.term m 1)).terms.filter (·.1 != m)) :
    t.1.Over p.vars ∧ (p.rank t.1).Below (p.rank m) := by
  obtain ⟨hmem, hne⟩ := List.mem_filter.mp ht
  have hover := (hp.over_expectedNext (Expr.over_term hm 1)).monomials t hmem
  rcases hp.below_expectedNext hm t hmem with h | h
  · simp [h] at hne
  · exact ⟨hover, h⟩

theorem canonical_solved (hp : p.WellFormed) {m : Monomial} (hm : m.Over p.vars)
    (h : ∀ k : Monomial, k.Over p.vars → (p.rank k).Below (p.rank m) → (p.closed k).Canonical) :
    (p.inhomogeneous m).Canonical ∧ (p.solved m).Canonical := by
  have hi : (p.inhomogeneous m).Canonical := by
    refine canonical_foldl_combine (fun t ht => ?_) Expr.canonical_zero
    obtain ⟨hover, hbelow⟩ := hp.below_of_mem hm ht
    exact h t.1 hover hbelow
  refine ⟨hi, ?_⟩
  unfold solved
  split
  · exact Expr.canonical_one
  · exact Recurrence.canonical_solve _ (hi.shift _) (hp.still_initialMoment hm).toCanonical

theorem foldl_groups (value : Monomial → Expr) (ts : List (Monomial × Rat)) (acc : Expr) :
    (ts.map fun t => (t.1, Expr.const t.2)).foldl (fun acc g => acc + g.2 * value g.1) acc =
      ts.foldl (fun acc t => acc + .const t.2 * value t.1) acc := by
  rw [List.foldl_map]

/-- The body of a closed form, if those it asks for are known to be answered. -/
theorem keeps_body (hp : p.WellFormed) {m : Monomial} (hm : m.Over p.vars)
    {I : ClosedForms → Prop} {closed : Monomial → Attempt ClosedForms Expr}
    (h : ∀ t ∈ (p.expectedNext (.term m 1)).terms.filter (·.1 != m),
      (closed t.1).Keeps I (p.closed t.1)) :
    (do
      let groups := (p.expectedNext (Expr.term m 1)).collect Symbol.isVar
      let before := groups.takeWhile (·.1 != m)
      let behind := (groups.dropWhile (·.1 != m)).drop 1
      let first ← combine closed Expr.zero before
      let factor ← Attempt.ofExcept (recurrenceFactor m groups)
      let inhomogeneous ← combine closed first behind
      return Recurrence.solve factor (inhomogeneous.shift (-1)) (p.initialMoment m)
      : Attempt ClosedForms Expr).Keeps I
      (Recurrence.solve ((p.expectedNext (.term m 1)).coefficient m) ((p.inhomogeneous m).shift (-1))
        (p.initialMoment m)) := by
  have hplain := hp.isPlain_expectedNext hm
  simp only [hplain.collect]
  set mean := p.expectedNext (.term m 1)
  set groups := mean.terms.map fun t => (t.1, Expr.const t.2)
  have hsorted : Assoc.Sorted Monomial.cmp groups := List.pairwise_map.mpr hplain.sorted
  have hsplit := filter_ne_eq hsorted m
  have hfilter : groups.filter (·.1 != m) =
      (mean.terms.filter (·.1 != m)).map fun t => (t.1, Expr.const t.2) := by
    rw [List.filter_map]
    rfl
  have hkeeps : ∀ g ∈ groups.filter (·.1 != m), (closed g.1).Keeps I (p.closed g.1) := by
    intro g hg
    rw [hfilter] at hg
    obtain ⟨t, ht, rfl⟩ := List.mem_map.mp hg
    exact h t ht
  rw [← hsplit] at hkeeps
  have hsum : p.inhomogeneous m = ((groups.dropWhile (·.1 != m)).drop 1).foldl
      (fun acc g => acc + g.2 * p.closed g.1) ((groups.takeWhile (·.1 != m)).foldl
        (fun acc g => acc + g.2 * p.closed g.1) .zero) := by
    rw [← List.foldl_append, hsplit, hfilter, foldl_groups]
    rfl
  rw [hsum]
  refine (keeps_combine (fun g hg => hkeeps g (List.mem_append_left _ hg)) _).bind ?_
  refine (Attempt.keeps_ofExcept (recurrenceFactor_eq m)).bind ?_
  refine (keeps_combine (fun g hg => hkeeps g (List.mem_append_right _ hg)) _).bind ?_
  exact Attempt.keeps_pure _

/-- A monomial may be asked for while monomials above it are being computed. -/
def Waits (p : Program) (pending : List Monomial) (m : Monomial) : Prop :=
  ∀ k ∈ pending, k ≠ m ∧ ¬(p.rank k).Below (p.rank m)

theorem Waits.cons {pending : List Monomial} {m k : Monomial} (h : p.Waits pending m)
    (hk : (p.rank k).Below (p.rank m)) : p.Waits (m :: pending) k := by
  intro j hj
  rcases List.mem_cons.mp hj with rfl | hj
  · constructor
    · rintro rfl
      exact Rank.below_irrefl _ hk
    · intro hjk
      exact Rank.below_irrefl _ (Rank.below_trans hk hjk)
  · constructor
    · rintro rfl
      exact (h j hj).2 hk
    · intro hjk
      exact (h j hj).2 (Rank.below_trans hjk hk)

theorem closed_of_keeps {m : Monomial} {e : Expr}
    (h : (p.closedForm m).Keeps (Memo.Sound p.IsClosed []) e) : p.closed m = e := by
  obtain ⟨s, hrun, -⟩ := h .empty ⟨by simp [Memo.empty], rfl⟩
  rw [closed, hrun]

theorem keeps_step (hp : p.WellFormed) {m : Monomial} (hm : m.Over p.vars)
    (ih : ∀ k : Monomial, k.Over p.vars → (p.rank k).Below (p.rank m) →
      (∀ pending, p.Waits pending k →
        (p.closedForm k).Keeps (Memo.Sound p.IsClosed pending) (p.closed k)))
    {pending : List Monomial} (hw : p.Waits pending m) :
    (p.closedForm m).Keeps (Memo.Sound p.IsClosed pending) (p.solved m) := by
  rw [closedForm, solved]
  split
  · exact Attempt.keeps_pure _
  · next hone =>
    have hfresh : m ∉ pending := fun h => (hw m h).1 rfl
    refine closedFormSlot.keeps_remember (P := p.IsClosed) (fun _ _ => rfl) _ hfresh ?_ ?_
    · intro e
      rw [IsClosed, solved, if_neg hone]
      exact and_iff_right hm
    · apply keeps_body hp hm
      intro t ht
      obtain ⟨hover, hbelow⟩ := hp.below_of_mem hm ht
      rw [dif_pos hbelow]
      exact ih t.1 hover hbelow _ (hw.cons hbelow)

/-- Every closed form is computed, whatever closed forms are known already. -/
theorem WellFormed.keeps_closedForm (hp : p.WellFormed) (m : Monomial) (hm : m.Over p.vars) :
    (∀ pending, p.Waits pending m →
      (p.closedForm m).Keeps (Memo.Sound p.IsClosed pending) (p.closed m)) ∧
    p.closed m = p.solved m ∧ (p.closed m).Canonical := by
  induction m using (InvImage.wf p.rank Rank.below_wf).induction with
  | h m ih =>
    have hkeeps : ∀ pending, p.Waits pending m →
        (p.closedForm m).Keeps (Memo.Sound p.IsClosed pending) (p.solved m) :=
      fun pending hw => keeps_step hp hm (fun k hk hbelow => (ih k hbelow hk).1) hw
    have hclosed : p.closed m = p.solved m :=
      closed_of_keeps (hkeeps [] fun _ hk => absurd hk List.not_mem_nil)
    rw [hclosed]
    refine ⟨hkeeps, rfl, (canonical_solved hp hm fun k hk hbelow => (ih k hbelow hk).2.2).2⟩

theorem WellFormed.canonical_closed (hp : p.WellFormed) {m : Monomial} (hm : m.Over p.vars) :
    (p.closed m).Canonical :=
  (hp.keeps_closedForm m hm).2.2

section Mean

/-- A monomial that does not occur in its own mean after one iteration: the recurrence of its mean
forgets where it starts. -/
def Forgets (p : Program) (m : Monomial) : Prop :=
  (p.expectedNext (.term m 1)).coefficient m = 0

instance (p : Program) (m : Monomial) : Decidable (p.Forgets m) :=
  inferInstanceAs (Decidable (_ = _))

/-- The mean of a polynomial before the first iteration. -/
def initialMean (p : Program) (e : Expr) : Expr :=
  Expr.sum (e.terms.map fun t => (p.initialMoment t.1).scale t.2)

/-- The mean of a monomial after `k` iterations. -/
def meanAfter (p : Program) (m : Monomial) (k : Nat) : Expr :=
  p.initialMean (p.expectedNext^[k] (.term m 1))

/-- What the closed forms of the monomials that are forgotten make of the start, less what it is. -/
def startGap (p : Program) (e : Expr) : Expr :=
  Expr.sum (e.terms.map fun t =>
    if p.Forgets t.1 then ((p.closed t.1).atIteration 0 - p.initialMoment t.1).scale t.2
    else .zero)

variable (n : Nat) (v : Valuation)

theorem meanMonomial_one (φ : Monomial → Rat) (d : Declaration) :
    meanMonomial d φ .one = φ .one := by
  have h0 : Monomial.one.powerOf d.symbol = 0 := rfl
  rw [meanMonomial, if_pos h0,
    Monomial.without_of_powerOf_eq_zero Monomial.canonical_one h0]

theorem WellFormed.lift_expectedNext_one (hp : p.WellFormed) (φ : Monomial → Rat) :
    (p.expectedNext (.term .one 1)).lift φ = φ .one := by
  have hfold : ∀ (ds : List Declaration) (ψ : Monomial → Rat),
      ds.foldl (fun ψ d => meanMonomial d ψ) ψ .one = ψ .one := by
    intro ds
    induction ds with
    | nil => exact fun ψ => rfl
    | cons d ds ih =>
      intro ψ
      rw [List.foldl_cons, ih, meanMonomial_one]
  have h := lift_meanVars hp.solvable symbol_mem_vars φ
    (Expr.over_term Monomial.over_one 1 : (Expr.term .one 1).Over p.vars)
  rw [Expr.lift_term, one_mul, hfold] at h
  exact h

/-- One more iteration: the closed form at `n + 1` is the mean of the closed forms at `n`. -/
theorem WellFormed.value_closed_succ (hp : p.WellFormed) {m : Monomial} (hm : m.Over p.vars) :
    (p.closed m).value (n + 1) v =
      (p.expectedNext (.term m 1)).lift fun k => (p.closed k).value n v := by
  obtain ⟨-, hsolved, -⟩ := hp.keeps_closedForm m hm
  by_cases hone : m.isOne = true
  · obtain rfl := Monomial.eq_one_of_isOne hone
    rw [hp.lift_expectedNext_one, hsolved, solved, if_pos hone, Expr.value_one, Expr.value_one]
  · have hstill := hp.still_initialMoment hm
    have hi := (canonical_solved hp hm fun k hk _ => hp.canonical_closed hk).1
    have hmean := hp.isPlain_expectedNext hm
    rw [Expr.lift_filter_ne hmean.toOrdered _ m, hsolved, solved, if_neg hone,
      Recurrence.value_solve_succ n v (hi.shift _) (hstill.value_eq _ _ v),
      Expr.value_shift (n + 1) v hi (m := n) (by decide) (by push_cast; ring), inhomogeneous,
      value_foldl_combine, Expr.value_zero, zero_add]

/-- Before the first iteration a closed form is the initial moment, unless it is forgotten. -/
theorem WellFormed.value_closed_zero (hp : p.WellFormed) {m : Monomial} (hm : m.Over p.vars)
    (hf : ¬p.Forgets m) : (p.closed m).value 0 v = (p.initialMoment m).value 0 v := by
  obtain ⟨-, hsolved, -⟩ := hp.keeps_closedForm m hm
  have hi := (canonical_solved hp hm fun k hk _ => hp.canonical_closed hk).1
  rw [hsolved, solved]
  split
  · next hone =>
    obtain rfl := Monomial.eq_one_of_isOne hone
    rfl
  · exact Recurrence.value_solve_zero v hf (hi.shift _)

theorem value_initialMean (e : Expr) :
    (p.initialMean e).value n v = e.lift fun m => (p.initialMoment m).value n v := by
  rw [initialMean, Expr.value_sum, List.map_map, Expr.lift_eq_sum]
  refine congrArg List.sum (List.map_congr_left fun t _ => ?_)
  rw [Function.comp_apply, Expr.value_scale, mul_comm]

/-- At the start, closed forms and initial moments differ by the gap. -/
theorem WellFormed.lift_closed_zero (hp : p.WellFormed) {e : Expr} (he : e.Over p.vars) :
    (e.lift fun m => (p.closed m).value 0 v) =
      (p.initialMean e).value 0 v + (p.startGap e).value 0 v := by
  rw [value_initialMean, startGap, Expr.value_sum, List.map_map, Expr.lift_eq_sum, Expr.lift_eq_sum,
    ← List.sum_map_add]
  refine congrArg List.sum (List.map_congr_left fun t ht => ?_)
  have hm := he.monomials t ht
  rw [Function.comp_apply]
  by_cases hf : p.Forgets t.1
  · rw [if_pos hf, Expr.value_scale, Expr.value_sub,
      Expr.value_atIteration 0 v (hp.canonical_closed hm)]
    ring
  · rw [if_neg hf, Expr.value_zero, add_zero, hp.value_closed_zero v hm hf]

theorem WellFormed.over_iterate (hp : p.WellFormed) {e : Expr} (he : e.Over p.vars) (k : Nat) :
    (p.expectedNext^[k] e).Over p.vars := by
  induction k generalizing e with
  | zero => exact he
  | succ k ih => exact ih (hp.over_expectedNext he)

/-- Closed forms at `n + k` are closed forms at `n` of the mean after `k` iterations. -/
theorem WellFormed.lift_closed_add (hp : p.WellFormed) {e : Expr} (he : e.Over p.vars) (k : Nat) :
    (e.lift fun m => (p.closed m).value (n + k) v) =
      (p.expectedNext^[k] e).lift fun m => (p.closed m).value n v := by
  induction k generalizing e with
  | zero => rfl
  | succ k ih =>
    have hstep : (e.lift fun m => (p.closed m).value (n + (k + 1)) v) =
        (p.expectedNext e).lift fun m => (p.closed m).value (n + k) v := by
      rw [hp.lift_expectedNext _ he]
      apply Expr.lift_congr
      intro t ht
      rw [← Nat.add_assoc, hp.value_closed_succ _ v (he.monomials t ht)]
    rw [hstep, ih (hp.over_expectedNext he), Function.iterate_succ_apply]

theorem WellFormed.still_initialMean (hp : p.WellFormed) {e : Expr} (he : e.Over p.vars) :
    (p.initialMean e).Still := by
  apply Expr.still_sum
  intro x hx
  obtain ⟨t, ht, rfl⟩ := List.mem_map.mp hx
  exact (hp.still_initialMoment (he.monomials t ht)).scale t.2

theorem WellFormed.still_startGap (hp : p.WellFormed) {e : Expr} (he : e.Over p.vars) :
    (p.startGap e).Still := by
  apply Expr.still_sum
  intro x hx
  obtain ⟨t, ht, rfl⟩ := List.mem_map.mp hx
  have hm := he.monomials t ht
  split
  · exact (((hp.canonical_closed hm).still_atIteration 0).sub (hp.still_initialMoment hm)).scale t.2
  · exact Expr.still_zero

/-- The closed form after `k` iterations is the mean and the gap that the start leaves in it. -/
theorem WellFormed.closed_atIteration (hp : p.WellFormed) {m : Monomial} (hm : m.Over p.vars)
    (k : Nat) :
    (p.closed m).atIteration k =
      p.meanAfter m k + p.startGap (p.expectedNext^[k] (.term m 1)) := by
  have hterm := Expr.over_term hm 1
  have hover := hp.over_iterate hterm k
  have hcanonical := hp.canonical_closed hm
  apply (hcanonical.still_atIteration k).ext
    ((hp.still_initialMean hover).add (hp.still_startGap hover))
  intro v
  have hadd := hp.lift_closed_add 0 v hterm k
  rw [Expr.lift_term, one_mul, zero_add, hp.lift_closed_zero v hover] at hadd
  rw [Expr.value_atIteration 0 v hcanonical, hadd, Expr.value_add]

end Mean

/-- Whatever closed forms have been asked for before, the closed form of a monomial is computed. After
`k` iterations it is the exact mean if and only if what the forgotten monomials make of the start
cancels in the mean. -/
theorem closedForm_exact_iff {text : String} (hp : Program.parse text = .ok p)
    {before : List Monomial} (hb : ∀ j ∈ before, j.Over p.vars) {m : Monomial} (hm : m.Over p.vars)
    (k : Nat) :
    ∃ e table, (do let _ ← before.mapM p.closedForm; p.closedForm m).run.run .empty = (.ok e, table) ∧
      (e.atIteration k = p.meanAfter m k ↔
        p.startGap (p.expectedNext^[k] (.term m 1)) = .zero) := by
  have hw := wellFormed_of_parse hp
  have hover := hw.over_iterate (Expr.over_term hm 1) k
  have hgap := hw.still_startGap hover
  have hkeeps : ∀ j : Monomial, j.Over p.vars →
      (p.closedForm j).Keeps (Memo.Sound p.IsClosed []) (p.closed j) :=
    fun j hj => (hw.keeps_closedForm j hj).1 [] fun _ h => absurd h List.not_mem_nil
  have hall := (Attempt.Keeps.mapM fun j hj => hkeeps j (hb j hj)).bind
    (f := fun _ => p.closedForm m) (hkeeps m hm)
  obtain ⟨table, hrun, -⟩ := hall .empty ⟨by simp [Memo.empty], rfl⟩
  refine ⟨p.closed m, table, hrun, ?_⟩
  rw [hw.closed_atIteration hm k]
  constructor
  · intro h
    apply hgap.ext Expr.still_zero
    intro v
    have hv := congrArg (Expr.value 0 v) h
    rw [Expr.value_add] at hv
    rw [Expr.value_zero]
    linarith
  · intro h
    apply ((hw.still_initialMean hover).add hgap).ext (hw.still_initialMean hover)
    intro v
    rw [Expr.value_add, h, Expr.value_zero, add_zero]

/-- A loop whose variable is as likely to grow by one as to be reflected. -/
def reflecting : Program :=
  ⟨[⟨"y", .deterministic (.const 0), .branches [(.ofSymbol (.var "y") + .const 1, 1 / 2),
    (-.ofSymbol (.var "y") + .const 3, 1 / 2)]⟩], .ofSymbol (.var "y")⟩

theorem parse_reflecting :
    Program.parse "y = 0\nwhile y > 0:\n    y = y + 1 @ 1/2; -y + 3\nend\n" = .ok reflecting := by
  decide +kernel

theorem over_reflecting (k : Nat) : (Monomial.ofSymbol (.var "y") k).Over reflecting.vars :=
  Monomial.over_ofSymbol List.mem_cons_self k

/-- The mean of the variable itself is exact after three iterations, although it is forgotten: it has
become a number. -/
theorem closedForm_reflecting_exact :
    ∃ e table, (do let _ ← [Monomial.ofSymbol (.var "y") 2].mapM reflecting.closedForm
                   reflecting.closedForm (.ofSymbol (.var "y") 1)).run.run .empty = (.ok e, table) ∧
      e.atIteration 3 = reflecting.meanAfter (.ofSymbol (.var "y") 1) 3 := by
  obtain ⟨e, table, hrun, hexact⟩ := closedForm_exact_iff parse_reflecting
    (List.forall_mem_singleton.mpr (over_reflecting 2)) (over_reflecting 1) 3
  exact ⟨e, table, hrun, hexact.mpr (by cbv)⟩

/-- The square of that variable uses the closed form of the variable before the first iteration, where
it is wrong: its closed form is `1` after one iteration, and its mean is `5`. -/
theorem closedForm_reflecting_inexact :
    Program.parse "y = 0\nwhile y > 0:\n    y = y + 1 @ 1/2; -y + 3\nend\n" = .ok reflecting ∧
    (Monomial.ofSymbol (.var "y") 2).Over reflecting.vars ∧
    ∃ e, ((reflecting.closedForm (.ofSymbol (.var "y") 2)).run.run .empty).1 = .ok e ∧
      e.atIteration 1 = .const 1 ∧ reflecting.meanAfter (.ofSymbol (.var "y") 2) 1 = .const 5 ∧
      e.atIteration 1 ≠ reflecting.meanAfter (.ofSymbol (.var "y") 2) 1 := by
  have hone : Expr.counter.atIteration 1 = .const 1 := by cbv
  have hmean : reflecting.meanAfter (.ofSymbol (.var "y") 2) 1 = .const 5 := by cbv
  refine ⟨parse_reflecting, over_reflecting 2, .counter, by cbv, hone, hmean, ?_⟩
  rw [hone, hmean]
  decide +kernel

end Program

end ProbLoop
