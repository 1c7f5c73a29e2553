import ProbLoop.Proofs.Envelope.Below
import ProbLoop.Proofs.Martingale
import ProbLoop.Proofs.Program.CaseLaw
import ProbLoop.Proofs.Session

/-!
# No result depends on itself

Whatever the closed form or the envelope of a monomial asks for comes before the monomial in the descent,
and what is pending at that time does not. So no key is asked for while it is pending, and the recursion
never leaves the descent: the errors that would report either do not occur.
-/

set_option autoImplicit false

namespace ProbLoop

namespace Program

open Analysis

variable {p : Program} {m : Monomial}

/-- What is left of a monomial in a case is made of monomials below it. -/
theorem WellFormed.below_caseBranch (hp : p.WellFormed) (hm : m.Over p.vars) {c : Case}
    (hc : c ∈ p.cases (.term m 1)) {g : Monomial × Expr}
    (hg : g ∈ (caseBranch m c).rest.collect Symbol.isVar) :
    g.1.Over p.vars ∧ (p.rank g.1).Below (p.rank m) := by
  have hvalue := (hp.proper_cases (Expr.over_term hm 1) c hc).2
  have hover := over_rest m hvalue
  rw [(hover.isPlain isVar_of_mem_vars).collect] at hg
  obtain ⟨t, ht, rfl⟩ := List.mem_map.mp hg
  refine ⟨hover.monomials t ht, ?_⟩
  have hbelow : (caseBranch m c).rest.All fun k => k = m ∨ (p.rank k).Below (p.rank m) :=
    Expr.all_sub (hp.below_cases hm hc) (Expr.all_term (Or.inl rfl))
  refine (hbelow t ht).resolve_left fun heq => ?_
  -- The multiple of the monomial has been taken off.
  have hzero : (caseBranch m c).rest.coefficient m = 0 := by
    rw [Expr.coefficient_eq_lift hover.toOrdered, caseBranch, Expr.lift_sub, Expr.lift_term,
      Expr.coefficient_eq_lift hvalue.toOrdered, if_pos rfl, mul_one, sub_self]
  obtain ⟨hcoefficient, hne⟩ := (Expr.mem_terms_iff hover.toOrdered t.1 t.2).mp ht
  rw [heq, hzero] at hcoefficient
  exact hne hcoefficient.symm

theorem WellFormed.keeps_branchesOf (hp : p.WellFormed) (hm : m.Over p.vars)
    (pending : List Monomial) :
    (p.branchesOf m).Keeps (Coherent p pending) ((p.cases (.term m 1)).map (caseBranch m)) := by
  intro a ha
  obtain ⟨t, ht, hrun⟩ := run_branchesOf ha.branches m
  rw [hp.branches_eq hm] at hrun
  exact ⟨_, hrun, ha.with_branches ht⟩

theorem tracks_coherent : envelopeSlot.Tracks (Coherent p) fun _ _ => True where
  sound ha := ⟨fun _ _ => trivial, ha.pending_eq⟩
  put ha ht := ha.with_envelopes ht.pending_eq

/-- What the branches of a monomial ask for lies below it. There is a branch for each case. -/
theorem WellFormed.meets_branchesOf (hp : p.WellFormed) (hm : m.Over p.vars) {E : Error → Prop}
    (pending : List Monomial) :
    (p.branchesOf m).Meets (Coherent p pending) (fun bs => bs ≠ [] ∧ ∀ b ∈ bs,
      ∀ g ∈ b.rest.collect Symbol.isVar, g.1.Over p.vars ∧ (p.rank g.1).Below (p.rank m)) E := by
  refine (hp.keeps_branchesOf hm pending).meets.mono ?_
  rintro _ rfl
  refine ⟨by simpa using hp.sequential.cases_ne_nil (Expr.over_term hm 1).canonical, fun b hb g hg => ?_⟩
  obtain ⟨c, hc, rfl⟩ := List.mem_map.mp hb
  exact hp.below_caseBranch hm hc hg

/-- The envelope of a monomial fails in foreseen ways only. -/
theorem WellFormed.foreseen_envelopeOfMonomial (hp : p.WellFormed) (m : Monomial)
    (hm : m.Over p.vars) {pending : List Monomial} (hw : p.Waits pending m) :
    (p.envelopeOfMonomial m).Meets (Coherent p pending) (fun _ => True) Error.Foreseen := by
  induction m using (InvImage.wf p.rank Rank.below_wf).induction generalizing pending with
  | h m ih =>
    have henvelope : ∀ k : Monomial, k.Over p.vars ∧ (p.rank k).Below (p.rank m) →
        (p.envelopeBelow m k).Meets (Coherent p (m :: pending)) (fun _ => True)
          Error.Foreseen := by
      rintro k ⟨hk, hbelow⟩
      rw [envelopeBelow, dif_pos hbelow]
      exact ih k hbelow hk (hw.cons hbelow)
    rw [envelopeOfMonomial_eq]
    refine tracks_coherent.meets_remember (fun hmem => absurd rfl (hw m hmem).1) fun _ => ?_
    have hsettles := hp.keeps_fresh_substDeterministic (Expr.over_term hm 1).within
    apply meets_envelopeBy fun _ s ha => ha.with_supply s
    case hE => exact fun _ he => he
    case hmoments =>
      exact (hsettles.meets.within (fun _ ha => ha.closedForms)
        fun _ _ ha ht => ha.with_closedForms ht).any
    case hbranches =>
      apply (hp.meets_branchesOf hm _).mono
      exact fun bs hbs => ⟨fun hnil => absurd hnil hbs.1,
        fun b hb g hg _ => henvelope g.1 (hbs.2 b hb g hg)⟩
    case hrest => exact fun hrandom _ => henvelope _ (below_rest hm hrandom)
    case hroot => exact fun hodd => henvelope _ (below_root hm hodd)

theorem WellFormed.foreseen_envelopeOf (hp : p.WellFormed) {e : Expr} (he : e.Within p.vars) :
    (p.envelopeOf e).Meets (Coherent p []) (fun _ => True) Error.Foreseen :=
  meets_envelopeFrom (fun _ s ha => ha.with_supply s) (fun _ h => h) fun g hg _ =>
    hp.foreseen_envelopeOfMonomial g.1 (he.collect g hg).1 (waits_nil g.1)

/-- The envelope of a monomial is never refused because of a cycle. -/
theorem WellFormed.meets_envelopeOfMonomial (hp : p.WellFormed) (m : Monomial) (hm : m.Over p.vars)
    {pending : List Monomial} (hw : p.Waits pending m) :
    (p.envelopeOfMonomial m).Meets (Coherent p pending) (fun _ => True)
      (·.isCycle = false) :=
  (hp.foreseen_envelopeOfMonomial m hm hw).weaken fun _ h => h.isCycle_eq_false

theorem WellFormed.meets_envelopeOf (hp : p.WellFormed) {e : Expr} (he : e.Within p.vars) :
    (p.envelopeOf e).Meets (Coherent p []) (fun _ => True) (·.isCycle = false) :=
  (hp.foreseen_envelopeOf he).weaken fun _ h => h.isCycle_eq_false

end Program

namespace Session

open Analysis

/-- Every monomial over the variables has a closed form and branches, and no envelope is refused because
a monomial is asked for while it is pending or outside the descent. -/
structure Acyclic (s : Session) : Prop where
  closedForm : ∀ m : Monomial, m.Over s.program.vars →
    ∃ e, (s.ask fun p => onMoments (p.closedForm m)).1 = .ok e
  branches : ∀ m : Monomial, m.Over s.program.vars →
    ∃ bs, (s.ask fun p => p.branchesOf m).1 = .ok bs
  envelopeOfMonomial : ∀ m : Monomial, m.Over s.program.vars →
    ∀ err, (s.ask fun p => p.envelopeOfMonomial m).1 = .error err → err.isCycle = false
  envelope : ∀ e : Expr, e.Within s.program.vars →
    ∀ err, (s.ask fun p => p.envelopeOf e).1 = .error err → err.isCycle = false

end Session

end ProbLoop
