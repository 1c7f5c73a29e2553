import ProbLoop.Proofs.Source.Meaning
import ProbLoop.Proofs.Source.Programs

/-!
# Reading the text of a program

The text of a program leaves out unknown initial values and updates that keep a variable. A program
that was read is read again from its text, but for the order of its variables, exactly if one of the
two lines of every variable is written and every exponent may be written.
-/

set_option autoImplicit false

namespace ProbLoop

open Source Reader

variable {p q : Program} {names : List String}

/-! ### What is known of the names that are read -/

namespace Source

theorem yields_name : Yields name (isIdentifier · = true) := by
  refine Yields.construct ((yields_run isNameChar).bind fun taken htaken => ?_)
  cases taken with
  | nil => exact yields_reject
  | cons c rest =>
    dsimp only
    split
    · next hc =>
      refine yields_pure ?_
      have hrest : rest.all isNameChar = true :=
        List.all_eq_true.mpr (List.forall_mem_cons.mp htaken).2
      simp only [isIdentifier, String.toList_ofList, hc, hrest, Bool.and_self]
    · exact yields_reject

/-- The names that are assigned are identifiers. -/
abbrev NamesIdentified (ss : List Statement) : Prop := ∀ s ∈ ss, isIdentifier s.name = true

theorem yields_statement : Yields statement fun s => isIdentifier s.name = true :=
  Yields.construct (Yields.skip fun _ => yields_name.bind fun _ hname => Yields.skip fun _ =>
    Yields.skip fun _ => Yields.skip fun _ => Yields.skip fun _ => yields_pure hname)

theorem yields_statementLine (ending : Reader Unit) :
    Yields (statementLine ending) fun s => isIdentifier s.name = true :=
  Yields.skip fun _ => yields_statement.bind fun _ hs => Yields.skip fun _ => Yields.skip fun _ =>
    yields_pure hs

theorem yields_loop : Yields loop fun l => NamesIdentified l.body :=
  Yields.construct (Yields.skip fun _ => Yields.skip fun _ => Yields.skip fun _ => Yields.skip fun _ =>
    Yields.skip fun _ => Yields.skip fun _ => Yields.skip fun _ =>
    (yields_statementLine lineBreaks).many.bind fun _ hss => Yields.skip fun _ => Yields.skip fun _ =>
    Yields.skip fun _ => Yields.skip fun _ => yields_pure hss)

theorem yields_program : Yields program fun phrase =>
    NamesIdentified phrase.initial ∧ ∀ l ∈ phrase.loop, NamesIdentified l.body :=
  Yields.construct (Yields.skip fun _ => Yields.skip fun _ =>
    (yields_statementLine lineEnd).many.bind fun _ hss => Yields.skip fun _ =>
    yields_loop.optional.bind fun _ hl => Yields.skip fun _ => Yields.skip fun _ =>
    yields_pure ⟨hss, hl⟩)

end Source

/-! ### Programs that were read -/

/-- A name that may be declared. -/
def Declarable (s : String) : Prop := isIdentifier s = true ∧ s ≠ "n" ∧ s ≠ "RV"

namespace Program

/-- What reading a program establishes beside the check of its draft. -/
structure Accepted (p : Program) : Prop extends p.Checked where
  names : ∀ d ∈ p.declarations, Declarable d.name
  draws : ∀ d ∈ p.declarations, ∀ r, d.initial = .random r ∨ d.update = .random r → r.check = .ok r

theorem accepted_of_parse {source : String} (h : parse source = .ok p) : p.Accepted := by
  obtain ⟨phrase, hread, hprogram⟩ := except_bind_eq_ok.mp h
  obtain ⟨loop, hloop, d, hbuild, hgiven, -, hreserved⟩ := exists_draft_of_toProgram hprogram
  obtain ⟨hinitial, hbody⟩ := yields_program.readAll hread
  have hstatements : ∀ s ∈ (phrase.initial ++ loop.body).map (·.name), Declarable s := by
    refine List.forall_mem_map.mpr fun s hs => ⟨?_, hreserved s hs⟩
    exact (List.mem_append.mp hs).elim (hinitial s) (hbody loop hloop s)
  refine ⟨checked_of_parse h, fun c hc => ?_, fun c hc r hr => ?_⟩
  · exact hstatements _ (mem_names_of_toProgram hloop hprogram hc)
  · obtain ⟨hupdate, hinitial⟩ := Draft.mem_of_build hbuild hc
    rcases hr with hr | hr
    · rcases hinitial with hunknown | hinitial
      · rw [hr] at hunknown
        obtain rfl := Update.random.inj hunknown
        rfl
      · exact (hgiven _ (List.mem_append_left _ hinitial)).drawn r hr
    · rcases List.mem_append.mp hupdate with hconstant | hupdate
      · have hkept : c.update = _ := (Draft.exists_initial_of_mem_constants hconstant).1
        rw [hkept] at hr
        cases hr
      · exact (hgiven _ (List.mem_append_right _ hupdate)).drawn r hr

end Program

/-! ### What is written may be read -/

namespace Expr

variable {e : Expr}

/-- A guard is compared with zero. -/
theorem sub_const_zero (e : Expr) : e - const 0 = e := by
  have hzero : (-const 0).terms = [] := rfl
  change (⟨Assoc.merge Monomial.cmp _ e.terms (-const 0).terms⟩ : Expr) = e
  rw [hzero, Assoc.merge_nil]

theorem Over.exists_name (he : e.Over (names.map .var)) {t : Monomial × Rat} (ht : t ∈ e.terms)
    {x : Symbol × Nat} (hx : x ∈ t.1.powers) : ∃ s ∈ names, .var s = x.1 :=
  List.mem_map.mp ((he.monomials t ht).mem_vars x hx)

theorem Over.legible (he : e.Over (names.map .var)) (h : ∀ s ∈ names, Declarable s) : e.Legible where
  canonical := he.canonical
  plain t ht := (he.monomials t ht).base_eq_one
  names t ht x hx := by
    obtain ⟨s, hs, hsx⟩ := he.exists_name ht hx
    rw [← hsx]
    exact ⟨(h s hs).1, (h s hs).2.2⟩

theorem Over.resolvedBy (he : e.Over (names.map .var)) {more : List String}
    (h : ∀ s ∈ names, s ∈ more) : e.ResolvedBy (resolveAmong more) := by
  intro t ht x hx
  obtain ⟨s, hs, hsx⟩ := he.exists_name ht hx
  rw [← hsx]
  exact if_pos (h s hs)

end Expr

theorem Update.Over.resolvedBy {u : Update} (hu : u.Over (names.map .var)) {more : List String}
    (h : ∀ s ∈ names, s ∈ more) : u.ResolvedBy (resolveAmong more) := by
  cases u with
  | random r => trivial
  | branches bs => exact fun b hb => Expr.Over.resolvedBy (hu b hb) h

/-! ### What the written assignments stand for -/

namespace Source

variable {as : List (String × Update)} {ss : List Statement} {resolve : Resolver}

theorem names_of_means (h : List.Forall₂ StatementMeans as ss) : ss.map (·.name) = as.map (·.1) := by
  induction h with
  | nil => rfl
  | cons has _ ih => rw [List.map_cons, List.map_cons, ih, has.1]

theorem assigns_of_means (h : List.Forall₂ StatementMeans as ss)
    (has : ∀ a ∈ as, a.2.ResolvedBy resolve ∧ a.2.ExponentsFit) :
    List.Forall₂ (Assigns resolve) ss as := by
  induction h with
  | nil => exact .nil
  | cons hmeans _ ih =>
    obtain ⟨⟨hr, hfits⟩, has⟩ := List.forall_mem_cons.mp has
    exact .cons ⟨hmeans.1, hmeans.2.toUpdate_eq resolve hr hfits _ _⟩ (ih has)

theorem exponentsFit_of_assigns (h : List.Forall₂ StatementMeans as ss)
    {bs : List (String × Update)} (hbs : List.Forall₂ (Assigns resolve) ss bs) :
    ∀ a ∈ as, a.2.ExponentsFit := by
  intro a ha
  obtain ⟨s, hs, hmeans⟩ := forall₂_exists_of_mem h a ha
  obtain ⟨b, -, -, hb⟩ := forall₂_exists_of_mem hbs s hs
  exact hmeans.2.fits resolve _ _ _ hb

theorem toGuard_of_means {e : Expr} {g : GuardPhrase} (hg : GuardMeans e g)
    (hr : e.ResolvedBy resolve) (hfits : e.ExponentsFit) : toGuard resolve g = .ok e := by
  obtain ⟨hcomparison, hleft, hright⟩ := hg
  have hzero := hright.toExpr_eq resolve (Expr.resolvedBy_const 0) (Expr.exponentsFit_const 0)
  rw [toGuard, hleft.toExpr_eq resolve hr hfits, hzero, hcomparison]
  exact congrArg Except.ok (Expr.sub_const_zero e)

theorem exponentsFit_of_toGuard {e x : Expr} {g : GuardPhrase} (hg : GuardMeans e g)
    (h : toGuard resolve g = .ok x) : e.ExponentsFit := by
  obtain ⟨y, hy, -⟩ := except_bind_eq_ok.mp h
  exact hg.2.1.fits resolve y hy

end Source

namespace Program

/-- The variables by name. -/
abbrev declaredNames (p : Program) : List String := p.declarations.map (·.name)

theorem map_var_declaredNames (p : Program) : p.declaredNames.map .var = p.vars := List.map_map

/-- All exponents of updates and of the guard may be written in a source. -/
def ExponentsFit (p : Program) : Prop :=
  p.guard.ExponentsFit ∧ ∀ d ∈ p.declarations, d.update.ExponentsFit

instance (p : Program) : Decidable p.ExponentsFit := inferInstanceAs (Decidable (_ ∧ _))

namespace Accepted

variable (hp : p.Accepted)
include hp

theorem declarable : ∀ s ∈ p.declaredNames, Declarable s :=
  List.forall_mem_map.mpr hp.names

theorem guard_over : p.guard.Over (p.declaredNames.map .var) :=
  p.map_var_declaredNames ▸ hp.guard

theorem update_over {d : Declaration} (hd : d ∈ p.declarations) :
    d.update.Over (p.declaredNames.map .var) := by
  obtain ⟨before, hbefore, hsolvable⟩ := hp.solvable.exists_solvable d hd
  rw [map_var_declaredNames]
  cases hu : d.update with
  | random r => rwa [hu] at hsolvable
  | branches bs =>
    rw [hu] at hsolvable
    intro b hb
    refine (hsolvable.2 b hb).reads.mono (List.forall_mem_cons.mpr ⟨?_, fun s hs => ?_⟩)
    · exact List.mem_map_of_mem hd
    · exact (hbefore s hs).resolve_left List.not_mem_nil

theorem update_legible {d : Declaration} (hd : d ∈ p.declarations) : d.update.Legible := by
  have hover := hp.update_over hd
  cases hu : d.update with
  | random r => exact ⟨hp.draws d hd r (Or.inr hu), by rwa [hu] at hover⟩
  | branches bs =>
    rw [hu] at hover
    obtain ⟨before, -, hsolvable⟩ := hp.solvable.exists_solvable d hd
    rw [hu] at hsolvable
    exact ⟨hsolvable.1, fun b hb => (hover b hb).legible hp.declarable⟩

theorem initial_legible {d : Declaration} (hd : d ∈ p.declarations)
    (hline : d.hasInitialLine = true) : d.initial.Legible := by
  have hstarts := hp.starts d hd
  cases hu : d.initial with
  | random r =>
    refine ⟨hp.draws d hd r (Or.inl hu), ?_⟩
    rintro s rfl
    simp [Declaration.hasInitialLine, initialLine, hu] at hline
  | branches bs =>
    rw [hu] at hstarts
    refine ⟨hstarts.1, fun b hb => ?_⟩
    obtain ⟨q, hq⟩ := hstarts.2 b hb
    exact hq ▸ Expr.legible_const q

theorem legible_writtenInitial : ∀ a ∈ p.writtenInitial, LegibleAssignment a := by
  refine List.forall_mem_map.mpr fun d hd => ?_
  obtain ⟨hd, hline⟩ := List.mem_filter.mp hd
  exact ⟨(hp.names d hd).1, hp.initial_legible hd hline⟩

theorem legible_writtenUpdates : ∀ a ∈ p.writtenUpdates, LegibleAssignment a := by
  refine List.forall_mem_map.mpr fun d hd => ?_
  have hd := (List.mem_filter.mp hd).1
  exact ⟨(hp.names d hd).1, hp.update_legible hd⟩

/-- The text of a program follows the grammar, and its parts are read as what they stand for. -/
theorem readProgram_text : ∃ phrase, readProgram p.text = .ok phrase ∧
    ProgramMeans p.writtenInitial p.writtenUpdates p.guard phrase := by
  have hreads := reads_program hp.legible_writtenInitial hp.legible_writtenUpdates
    (hp.guard_over.legible hp.declarable)
  rw [← toList_text] at hreads
  exact hreads.readAll

theorem initial_meant {d : Declaration} (hd : d ∈ p.declarations) {resolve : Resolver} :
    d.initial.ResolvedBy resolve ∧ d.initial.ExponentsFit := by
  have hstarts := hp.starts d hd
  cases hu : d.initial with
  | random r => exact ⟨trivial, trivial⟩
  | branches bs =>
    rw [hu] at hstarts
    refine ⟨fun b hb => ?_, fun b hb => ?_⟩
    · obtain ⟨q, hq⟩ := hstarts.2 b hb
      exact hq ▸ Expr.resolvedBy_const q
    · obtain ⟨q, hq⟩ := hstarts.2 b hb
      exact hq ▸ Expr.exponentsFit_const q

/-- Where nothing is missing, the text is read as the rebuilt program. -/
theorem parse_rebuilt (hwritten : ∀ d ∈ p.declarations, d.IsWritten) (hfits : p.ExponentsFit) :
    parse p.text = .ok p.rebuilt := by
  obtain ⟨phrase, hread, hinitial, loop, hloop, hguard, hupdates⟩ := hp.readProgram_text
  have hnames : (phrase.initial ++ loop.body).map (·.name) = p.writtenNames :=
    names_of_means (List.rel_append hinitial hupdates)
  have hdeclared : ∀ s ∈ p.declaredNames, s ∈ p.writtenNames :=
    List.forall_mem_map.mpr fun d hd => (hp.mem_writtenNames_iff hd).mpr (hwritten d hd)
  refine except_bind_eq_ok.mpr ⟨phrase, hread, (toProgram_eq_ok_iff hloop hnames).mpr
    ⟨fun s hs => ?_, p.writtenInitial, p.writtenUpdates, p.guard, ?_, ?_, ?_,
      hp.build_written hwritten⟩⟩
  · have hname : s.name ∈ p.writtenNames := hnames ▸ List.mem_map_of_mem hs
    exact (hp.declarable _ (declared_of_mem_writtenNames hname)).2
  · refine assigns_of_means hinitial (List.forall_mem_map.mpr fun d hd => ?_)
    exact hp.initial_meant (List.mem_filter.mp hd).1
  · refine assigns_of_means hupdates (List.forall_mem_map.mpr fun d hd => ?_)
    have hd := (List.mem_filter.mp hd).1
    exact ⟨(hp.update_over hd).resolvedBy hdeclared, hfits.2 d hd⟩
  · exact toGuard_of_means hguard (hp.guard_over.resolvedBy hdeclared) hfits.1

/-- If the text is read and no variable is lost, nothing is missing. -/
theorem isWritten_of_parse (h : parse p.text = .ok q) (hvars : ∀ s ∈ p.vars, s ∈ q.vars) :
    (∀ d ∈ p.declarations, d.IsWritten) ∧ p.ExponentsFit := by
  obtain ⟨phrase, hread, hinitial, loop, hloop, hguard, hupdates⟩ := hp.readProgram_text
  have hprogram : phrase.toProgram = .ok q := by
    rw [parse, hread] at h
    exact h
  obtain ⟨-, initial, updates, guard, -, hassigned, htoGuard, -⟩ :=
    (toProgram_eq_ok_iff hloop rfl).mp hprogram
  have hnames : (phrase.initial ++ loop.body).map (·.name) = p.writtenNames :=
    names_of_means (List.rel_append hinitial hupdates)
  have hfits := exponentsFit_of_assigns hupdates hassigned
  refine ⟨fun d hd => (hp.mem_writtenNames_iff hd).mp ?_, exponentsFit_of_toGuard hguard htoGuard,
    fun d hd => ?_⟩
  · -- A variable of what is read is assigned in the text, since nothing else declares one.
    obtain ⟨c, hc, hsymbol⟩ := List.mem_map.mp (hvars d.symbol (List.mem_map_of_mem hd))
    have hname : c.name = d.name := Symbol.var.inj hsymbol
    rw [← hname, ← hnames]
    exact mem_names_of_toProgram hloop hprogram hc
  · cases hline : d.hasUpdateLine with
    | true => exact hfits _ (List.mem_map_of_mem (List.mem_filter.mpr ⟨hd, hline⟩))
    | false =>
      -- The update of which nothing is written is the variable itself.
      rw [hp.update_of_hasUpdateLine hd hline]
      intro b hb
      obtain rfl := List.mem_singleton.mp hb
      exact Expr.exponentsFit_ofSymbol d.symbol

end Accepted

/-- A loop with a constant, a variable that is kept, one without an initial value and a choice. -/
def variedSource : String :=
  "x = 10\nk = 3\ny = RV(uniform, 0, 1)\nwhile x > 0:\n    z = RV(gauss, 0, 1)\n    y = y\n" ++
    "    x = x - k*y**2 @ 1/3; x + z @ 1/2; 2\nend\n"

def varied : Program where
  declarations := [⟨"k", .deterministic (.const 3), .deterministic (.ofSymbol (.var "k"))⟩,
    ⟨"z", Draft.unknownInitial "z", .random (.gauss 0 1)⟩,
    ⟨"y", .random (.uniform 0 1), .deterministic (.ofSymbol (.var "y"))⟩,
    ⟨"x", .deterministic (.const 10), .branches
      [(.ofSymbol (.var "x") - .ofSymbol (.var "k") * (Expr.ofSymbol (.var "y")).pow 2, 1 / 3),
        (.ofSymbol (.var "x") + .ofSymbol (.var "z"), 1 / 2), (.const 2, 1 / 6)]⟩]
  guard := .ofSymbol (.var "x")

/-- A loop with a variable of which neither an initial value nor an update is written. -/
def forgetful : Program where
  declarations := [⟨"c", Draft.unknownInitial "c", .deterministic (.ofSymbol (.var "c"))⟩,
    ⟨"x", .deterministic (.const 10), .deterministic (.ofSymbol (.var "x") - .ofSymbol (.var "c"))⟩]
  guard := .ofSymbol (.var "x")

end Program

end ProbLoop
