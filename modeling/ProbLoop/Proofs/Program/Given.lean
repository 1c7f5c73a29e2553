import ProbLoop.Proofs.Asymptotics.Drawn
import ProbLoop.Proofs.Program.Cases
import ProbLoop.Proofs.Transparent

/-!
# What is computed from a program alone

Positive constants are drawn during an analysis and never stand in a program that was read. So means after
one iteration, cases, branches and closed forms mention none, unless the expression does that they are
computed from. The variables of this expression need not be those of the program.
-/

set_option autoImplicit false

namespace ProbLoop

/-- A canonical monomial in which no drawn constant occurs. -/
structure Monomial.Given (m : Monomial) : Prop extends Canonical m where
  symbols : m.Uses Symbol.Given

namespace Monomial

variable {m : Monomial}

theorem given_ofSymbol {s : Symbol} (hs : s.Given) (k : Nat) : (ofSymbol s k).Given :=
  ⟨canonical_ofSymbol s k, uses_ofSymbol hs k⟩

theorem Given.rest (hm : m.Given) (keep : Symbol → Bool) : (m.rest keep).Given :=
  ⟨hm.toCanonical.filter _ hm.base_ne_zero, hm.symbols.filter _ _⟩

theorem Given.root (hm : m.Given) {k : Nat} (hk : ∀ q ∈ m.powers, k ∣ q.2) : (m.root k).Given := by
  refine ⟨hm.toCanonical.root hk, fun q hq => ?_⟩
  obtain ⟨q', hq', rfl⟩ := List.mem_map.mp hq
  exact hm.symbols q' hq'

end Monomial

namespace Expr

variable {P : Symbol → Prop} {e : Expr}

theorem Over.uses {vars : List Symbol} (he : e.Over vars) (h : ∀ s ∈ vars, P s) : e.Uses P :=
  ⟨he.canonical, he.monomials.mono fun _ hm q hq => h _ (hm.mem_vars q hq)⟩

theorem uses_given {m : Monomial} (hm : m.Given) (c : Rat) : (term m c).Uses Symbol.Given :=
  uses_term hm.toCanonical hm.symbols c

/-- Grouping by variables leads to monomials without drawn constants. -/
theorem given_of_mem_collect (he : e.Uses P) {g : Monomial × Expr}
    (hg : g ∈ e.collect Symbol.isVar) : g.1.Given :=
  have hgroup := he.collect g hg
  ⟨hgroup.1.1, fun q hq => Symbol.given_of_isVar (hgroup.1.2 q hq).2⟩

end Expr

namespace Program

variable {p : Program} {m : Monomial} {e : Expr} {pending : List Monomial}

section Iteration

variable (hp : p.WellFormed)
include hp

theorem WellFormed.solvable_given {d : Declaration} (hd : d ∈ p.declarations) :
    ∃ before, (∀ s ∈ d.symbol :: before, s.Given) ∧ d.update.Solvable d.symbol before := by
  obtain ⟨before, hbefore, hsolvable⟩ := hp.solvable.exists_solvable d hd
  refine ⟨before, List.forall_mem_cons.mpr ⟨rfl, fun s hs => ?_⟩, hsolvable⟩
  rcases hbefore s hs with hs | hs
  · exact absurd hs List.not_mem_nil
  · obtain ⟨c, -, rfl⟩ := List.mem_map.mp hs
    rfl

theorem WellFormed.uses_expectedNext (he : e.Uses Symbol.Given) :
    (p.expectedNext e).Uses Symbol.Given := by
  apply List.foldlRecOn p.declarations.reverse _ he
  intro acc hacc d hd
  obtain ⟨before, hbefore, hsolvable⟩ := hp.solvable_given (List.mem_reverse.mp hd)
  unfold meanVar
  split
  · apply Expr.uses_sum
    intro x hx
    obtain ⟨t, ht, rfl⟩ := List.mem_map.mp hx
    have hrest := hacc.filtered_term ht (·.1 != d.symbol) (hacc.monomials t ht).base_ne_zero t.2
    unfold meanTerm
    simp only
    split
    · exact hrest
    · exact hrest.mul ((hsolvable.over_moment _).uses hbefore)
  · exact hacc

theorem WellFormed.uses_cases (he : e.Uses Symbol.Given) :
    ∀ c ∈ p.cases e, c.value.Uses Symbol.Given := by
  have hcases : ∀ c ∈ p.cases e, 0 < c.probability ∧ c.value.Uses Symbol.Given := by
    apply List.foldlRecOn (motive := fun cs : List Case =>
      ∀ c ∈ cs, 0 < c.probability ∧ c.value.Uses Symbol.Given) p.declarations.reverse
    · intro c hc
      rw [List.mem_singleton.mp hc]
      exact ⟨one_pos, he⟩
    · intro cs hcs d hd
      obtain ⟨before, hbefore, hsolvable⟩ := hp.solvable_given (List.mem_reverse.mp hd)
      apply forall_unfoldVar (fun _ h => h) _ hcs
      intro bs hu b hb
      rw [hu] at hsolvable
      exact ⟨hsolvable.1.1 b hb, fun e he => he.subst ((hsolvable.2 b hb).reads.uses hbefore)⟩
  exact fun c hc => (hcases c hc).2

/-- The ways in which a monomial changes mention no drawn constants. -/
theorem WellFormed.uses_branches (hm : m.Given) {bs : List Branch} (h : p.branches m = .ok bs) :
    ∀ b ∈ bs, b.rest.Uses Symbol.Given := by
  intro b hb
  obtain ⟨c, hc, hbranch⟩ :=
    forall₂_exists_of_mem (except_mapM_eq_ok_iff.mp h).flip b hb
  unfold Branch.ofCase at hbranch
  simp only at hbranch
  split at hbranch
  · cases hbranch
  · rw [← Except.ok.inj hbranch]
    exact (hp.uses_cases (Expr.uses_given hm 1) c hc).sub (Expr.uses_given hm _)

end Iteration

section ClosedForms

theorem uses_startMoment {u : Update} (hu : u.Starts) (k : Nat) : (u.moment k).Uses Symbol.Given := by
  cases u with
  | branches bs =>
    apply Expr.uses_sum
    intro e he
    obtain ⟨b, hb, rfl⟩ := List.mem_map.mp he
    obtain ⟨q, hq⟩ := hu.2 b hb
    rw [hq]
    exact ((Expr.uses_const q).pow k).scale b.2
  | random d =>
    change (d.moment k).Uses _
    cases d with
    | unknown x =>
      obtain ⟨name, rfl⟩ := hu x rfl
      rw [Distribution.moment]
      split
      · exact Expr.uses_const 1
      · exact (Expr.uses_ofSymbol (Symbol.given_real name)).pow k
    | _ =>
      rw [Distribution.moment]
      split
      · exact Expr.uses_const 1
      · exact Expr.uses_const _

theorem WellFormed.uses_initialMoment (hp : p.WellFormed) (hm : m.Given) :
    (p.initialMoment m).Uses Symbol.Given := by
  apply List.foldlRecOn m.powers _ (Expr.uses_const 1)
  intro acc hacc q hq
  cases hinitial : p.initial? q.1 with
  | none => exact hacc.mul ((Expr.uses_ofSymbol (hm.symbols q hq)).pow _)
  | some u =>
    obtain ⟨d, hd, rfl⟩ := Option.map_eq_some_iff.mp hinitial
    exact hacc.mul (uses_startMoment (hp.starts d (List.mem_of_find?_eq_some hd)) _)

/-- Adding up closed forms keeps the table, and the sum mentions drawn constants only if something is
claimed of none of its parts. -/
theorem ensures_combine {σ : Type} {I : σ → Prop} {P : Symbol → Prop} {c : Prop}
    {closed : Monomial → Attempt σ Expr} {groups : List (Monomial × Expr)}
    (h : ∀ g ∈ groups, (closed g.1).Ensures I fun e => c → e.Uses P)
    (hgroups : c → ∀ g ∈ groups, g.2.Uses P) {acc : Expr} (hacc : c → acc.Uses P) :
    (combine closed acc groups).Ensures I fun e => c → e.Uses P := by
  induction groups generalizing acc with
  | nil => exact Attempt.ensures_pure hacc
  | cons g groups ih =>
    obtain ⟨hg, hrest⟩ := List.forall_mem_cons.mp h
    apply hg.bind
    intro value hvalue
    exact ih hrest (fun hc g' hg' => hgroups hc g' (List.mem_cons_of_mem _ hg')) fun hc =>
      (hacc hc).add ((hgroups hc g List.mem_cons_self).mul (hvalue hc))

/-- The closed forms of monomials without drawn constants mention none. -/
abbrev GivenForms (pending : List Monomial) (t : ClosedForms) : Prop :=
  t.Sound (fun m e => m.Given → e.Uses Symbol.Given) pending

theorem WellFormed.ensures_closedForm (hp : p.WellFormed) (m : Monomial) (pending : List Monomial) :
    (p.closedForm m).Ensures (GivenForms pending) fun e => m.Given → e.Uses Symbol.Given := by
  induction m using (InvImage.wf p.rank Rank.below_wf).induction generalizing pending with
  | h m ih =>
    rw [closedForm]
    split
    · exact Attempt.ensures_pure fun _ => Expr.uses_const 1
    · have htracks : closedFormSlot.Tracks GivenForms fun m e => m.Given → e.Uses Symbol.Given :=
        ⟨fun ht => ht, fun _ ht => ht⟩
      refine (htracks.meets_remember (E := fun _ => True) (fun _ => trivial) fun _ => ?_).1
      apply Attempt.Ensures.meets
      have hmean : m.Given → (p.expectedNext (.term m 1)).Uses Symbol.Given :=
        fun hm => hp.uses_expectedNext (Expr.uses_given hm 1)
      have hcoefficients : ∀ g ∈ (p.expectedNext (.term m 1)).collect Symbol.isVar,
          m.Given → g.2.Uses Symbol.Given := fun g hg hm => ((hmean hm).collect g hg).2
      have hclosed : ∀ g ∈ (p.expectedNext (.term m 1)).collect Symbol.isVar,
          (if _below : (p.rank g.1).Below (p.rank m) then p.closedForm g.1
            else throw (.unexpected (.closedFormCycle g.1))).Ensures (GivenForms (m :: pending))
              fun e => m.Given → e.Uses Symbol.Given := by
        intro g hg
        split
        · next hbelow =>
          exact (ih g.1 hbelow _).mono fun e he hm => he (Expr.given_of_mem_collect (hmean hm) hg)
        · exact Attempt.ensures_throw _
      apply (ensures_combine (fun g hg => hclosed g ((List.takeWhile_sublist _).mem hg))
        (fun hm g hg => hcoefficients g ((List.takeWhile_sublist _).mem hg) hm)
        fun _ => Expr.uses_zero).bind
      intro first hfirst
      apply (Attempt.ensures_ofExcept (P := fun _ => True) fun _ _ => trivial).bind
      intro factor _
      have hbehind : ∀ g ∈ (((p.expectedNext (.term m 1)).collect Symbol.isVar).dropWhile
          (·.1 != m)).drop 1, g ∈ (p.expectedNext (.term m 1)).collect Symbol.isVar :=
        fun g hg => (List.dropWhile_sublist _).mem (List.mem_of_mem_drop hg)
      apply (ensures_combine (fun g hg => hclosed g (hbehind g hg))
        (fun hm g hg => hcoefficients g (hbehind g hg) hm) hfirst).bind
      intro inhomogeneous hinhomogeneous
      exact Attempt.ensures_pure fun hm => Recurrence.uses_solve Symbol.given_counter _
        ((hinhomogeneous hm).shift Symbol.given_counter _) (hp.uses_initialMoment hm)

theorem WellFormed.ensures_deterministicValues (hp : p.WellFormed) (ss : List Symbol) :
    (p.deterministicValues ss).Ensures (GivenForms []) fun values =>
      ∀ v ∈ values, v.2.Uses Symbol.Given := by
  induction ss with
  | nil => exact Attempt.ensures_pure fun _ hv => absurd hv List.not_mem_nil
  | cons s ss ih =>
    rw [deterministicValues]
    split
    · next hs =>
      have hvar := (Bool.and_eq_true _ _).mp hs |>.1
      apply (hp.ensures_closedForm _ _).bind
      intro value hvalue
      apply ih.bind
      intro values hvalues
      exact Attempt.ensures_pure (List.forall_mem_cons.mpr
        ⟨hvalue (Monomial.given_ofSymbol (Symbol.given_of_isVar hvar) 1), hvalues⟩)
    · exact ih

/-- Replacing the deterministic variables does not bring in drawn constants, whatever is known already. -/
theorem WellFormed.uses_substDeterministic (hp : p.WellFormed) (he : e.Uses Symbol.Given)
    {t : ClosedForms} (ht : p.Fresh () t) {value : Expr}
    (h : ((p.substDeterministic e).run.run t).1 = .ok value) : value.Uses Symbol.Given := by
  have hensures : (p.substDeterministic e).Ensures (GivenForms []) (·.Uses Symbol.Given) := by
    apply (hp.ensures_deterministicValues _).bind
    intro values hvalues
    exact Attempt.ensures_pure (he.substAll fun s value hs =>
      hvalues _ (Assoc.mem_of_find? hs))
  refine (hensures .empty (sound_empty _)).2 value ?_
  rw [← h]
  exact (p.steady_substDeterministic e () t ht).2 () .empty (sound_empty _)

end ClosedForms

end Program

end ProbLoop
