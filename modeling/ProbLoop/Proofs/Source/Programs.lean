import ProbLoop.Proofs.Program.Rebuilt
import ProbLoop.Proofs.Source.Statements

/-!
# Programs as they are written

Every assignment stands on a line of its own, those of the loop body behind four blanks. What the
grammar reads from such lines are statements that stand for the assignments in their order.
-/

set_option autoImplicit false

namespace ProbLoop

open Source Reader

variable {line : Nat} {rest text : List Char}

/-! ### Lines -/

/-- What is read of the assignment of an update to a name. -/
def StatementMeans (a : String × Update) (s : Statement) : Prop :=
  s.name = a.1 ∧ s.update.value.Means a.2

/-- An assignment that may stand in a program. -/
def LegibleAssignment (a : String × Update) : Prop :=
  isIdentifier a.1 = true ∧ a.2.Legible

/-- The line of an assignment with its end. -/
def assignmentChars (indent : Nat) (a : String × Update) : List Char :=
  List.replicate indent ' ' ++ (a.1.toList ++ (' ' :: '=' :: ' ' :: (a.2.text.toList ++ ['\n'])))

/-- A word stands in front of everything else. -/
def StartsWord (text : List Char) : Prop :=
  ∃ c tail, text = c :: tail ∧ isLetter c = true

/-- A word stands in front of everything else but blanks. -/
def StartsLine (text : List Char) : Prop :=
  ∃ indent more, text = List.replicate indent ' ' ++ more ∧ StartsWord more

theorem startsWord_identifier {word : String} (h : isIdentifier word = true) (text : List Char) :
    StartsWord (word.toList ++ text) := by
  obtain ⟨c, tail, hword, hc, -⟩ := exists_of_isIdentifier h
  exact ⟨c, tail ++ text, by rw [hword, List.cons_append], hc⟩

theorem StartsWord.startsLine (h : StartsWord text) : StartsLine text :=
  ⟨0, text, rfl, h⟩

theorem StartsWord.takes_gap (h : StartsWord text) : Takes line gap [] () text := by
  obtain ⟨c, tail, rfl, hc⟩ := h
  exact takes_gap_of_isNameChar (isNameChar_of_isLetter hc) tail

theorem StartsWord.takes_gap_indent (h : StartsWord text) (indent : Nat) :
    Takes line gap (List.replicate indent ' ') () text := by
  induction indent with
  | zero => exact h.takes_gap
  | succ indent ih => exact ih.gap_cons

theorem startsWord_assignment {a : String × Update} (ha : LegibleAssignment a) (text : List Char) :
    StartsWord (assignmentChars 0 a ++ text) := by
  rw [assignmentChars, List.replicate_zero, List.nil_append, List.append_assoc]
  exact startsWord_identifier ha.1 _

theorem startsLine_assignment {a : String × Update} (ha : LegibleAssignment a) (indent : Nat)
    (text : List Char) : StartsLine (assignmentChars indent a ++ text) := by
  rw [assignmentChars, List.append_assoc, List.append_assoc]
  exact ⟨indent, _, rfl, startsWord_identifier ha.1 _⟩

/-- In front of a word there are no more line ends. -/
theorem StartsLine.misses_lineBreak (h : StartsLine text) :
    Misses line (gap >>= fun _ => lineBreak) text := by
  obtain ⟨indent, more, rfl, hmore⟩ := h
  apply Takes.misses (hmore.takes_gap_indent indent)
  obtain ⟨c, tail, rfl, hc⟩ := hmore
  have hn : c ≠ '\n' := ne_of_isNameChar (isNameChar_of_isLetter hc) rfl
  have hr : c ≠ '\r' := ne_of_isNameChar (isNameChar_of_isLetter hc) rfl
  intro offset reach
  exact ⟨reach, by simp [lineBreak, hn, hr]⟩

theorem StartsLine.reads_lineBreaks (h : StartsLine rest) :
    Reads lineBreaks ['\n'] (fun _ => True) rest :=
  (reads_lineBreak rest).after fun _ _ =>
    Takes.before_reads (fun _ => h.misses_lineBreak.many) (reads_pure trivial rest)

theorem StartsLine.reads_lineEnd (h : StartsLine rest) : Reads lineEnd ['\n'] (fun _ => True) rest :=
  h.reads_lineBreaks.orElse

theorem reads_lineEnd_nil : Reads lineEnd [] (fun _ => True) [] :=
  Misses.orElse_reads (fun _ => Misses.bind fun _ reach => ⟨reach, rfl⟩)
    (Takes.reads (fun _ => takes_endOfText) fun _ => trivial)

theorem reads_statement {a : String × Update} (ha : LegibleAssignment a)
    (hrest : Ends isLineEnd rest) :
    Reads statement (a.1.toList ++ (' ' :: '=' :: ' ' :: a.2.text.toList)) (StatementMeans a)
      rest := by
  apply Reads.construct
  apply reads_lineNumber
  intro line
  apply Takes.then_reads fun _ => takes_name ha.1 (by simp; rfl)
  apply Takes.then_reads (s := [' ']) fun _ => takes_gap_blank (by decide) _
  apply Takes.then_reads (s := ['=']) fun _ => takes_literal "=" _
  apply Takes.then_reads (s := [' ']) fun _ => (ha.2.takes_gap _).gap_cons
  exact (reads_update ha.2 hrest).located.after fun l hl => reads_pure ⟨rfl, hl⟩ rest

/-- A statement on a line of its own. -/
abbrev statementLine (ending : Reader Unit) : Reader Statement := do
  gap
  let s ← statement
  gap
  ending
  return s

theorem reads_statementLine {a : String × Update} (ha : LegibleAssignment a) {ending : Reader Unit}
    (hending : Reads ending ['\n'] (fun _ => True) rest) (indent : Nat) :
    Reads (statementLine ending) (assignmentChars indent a) (StatementMeans a) rest := by
  have hchars : assignmentChars indent a = List.replicate indent ' ' ++
      ((a.1.toList ++ (' ' :: '=' :: ' ' :: a.2.text.toList)) ++ ['\n']) := by
    simp [assignmentChars]
  rw [hchars]
  have hends : Ends isLineEnd (['\n'] ++ rest) := .here (c := '\n') rfl rest
  refine Takes.then_reads (a := ()) (fun _ => ?_) ?_
  · rw [List.append_assoc, List.append_assoc]
    exact (startsWord_identifier ha.1 _).takes_gap_indent indent
  refine Reads.bind (reads_statement ha hends) fun s hs => ?_
  refine Takes.before_reads (fun _ => takes_gap (by decide) rest) ?_
  exact hending.after fun _ _ => reads_pure hs rest

/-- A word that no equality sign follows is not a statement. -/
theorem misses_statementLine {word : String} (hword : isIdentifier word = true)
    {ending : Reader Unit} (hhead : ∀ c ∈ text.head?, isNameChar c = false)
    (hsign : ∀ f : Unit → Reader Statement,
      Misses line (gap >>= fun _ => literal "=" >>= f) text) :
    Misses line (statementLine ending) (word.toList ++ text) := by
  apply Takes.misses (t := []) (startsWord_identifier hword text).takes_gap
  apply Misses.bind
  apply Misses.construct
  apply Takes.misses (t := []) (takes_lineNumber _)
  apply Takes.misses (takes_name hword hhead)
  exact hsign _

/-! ### The loop -/

section Loop

variable {e : Expr}

/-- What is read of the guard. -/
def GuardMeans (e : Expr) (g : GuardPhrase) : Prop :=
  g.comparison = .greater ∧ g.left.Means e ∧ g.right.Means (.const 0)

theorem takes_keyword {word : String} (hword : isIdentifier word = true)
    (hrest : ∀ c ∈ rest.head?, isNameChar c = false) :
    Takes line (keyword word) word.toList () rest := by
  obtain ⟨c, tail, hchars, hc, htail⟩ := exists_of_isIdentifier hword
  have hall : ∀ d ∈ word.toList, isNameChar d = true := by
    rw [hchars]
    exact List.forall_mem_cons.mpr ⟨isNameChar_of_isLetter hc, htail⟩
  apply Takes.construct
  apply (takes_run hall hrest).after
  rw [if_pos rfl]
  exact takes_pure () rest

theorem reads_guardPhrase (he : e.Legible) (hrest : EndsSum rest) :
    Reads guardPhrase (e.text.toList ++ " > 0".toList) (GuardMeans e) rest := by
  have hzero := Expr.legible_const 0
  have htext : (Expr.const 0).text.toList = ['0'] := by
    rw [Expr.text_const]
    rfl
  have hcomparison : ∀ line, Takes line comparison ['>'] Comparison.greater (" 0".toList ++ rest) := by
    intro line
    apply Takes.construct
    apply Misses.orElse_takes (misses_literal rfl).bind
    apply Misses.orElse_takes (misses_literal rfl).bind
    exact ((takes_literal ">" _).after (takes_pure Comparison.greater _)).orElse
  apply Reads.construct
  apply reads_lineNumber
  intro line
  refine Reads.bind (R := (·.Means e)) (he.reads (.blank rfl _)) fun left hleft => ?_
  apply Takes.then_reads (s := [' ']) fun _ => takes_gap_blank (by decide) _
  apply Takes.then_reads (s := ['>']) hcomparison
  apply Takes.then_reads (s := [' ']) fun _ => takes_gap_blank (by decide) _
  have hright := hzero.reads hrest
  rw [htext] at hright
  exact hright.after fun right hr => reads_pure ⟨rfl, hleft, hr⟩ rest

/-- The loop with its guard and the lines of its body. -/
def loopChars (e : Expr) (body : List (String × Update)) : List Char :=
  "while".toList ++ ([' '] ++ ((e.text.toList ++ " > 0".toList) ++ ([':'] ++ (['\n'] ++
    (body.flatMap (assignmentChars 4) ++ "end".toList)))))

theorem isIdentifier_while : isIdentifier "while" = true := by decide +kernel

theorem isIdentifier_end : isIdentifier "end" = true := by decide +kernel

theorem startsWord_loop (e : Expr) (body : List (String × Update)) (text : List Char) :
    StartsWord (loopChars e body ++ text) := by
  rw [loopChars, List.append_assoc]
  exact startsWord_identifier isIdentifier_while _

/-- The guard is not an assignment. -/
theorem misses_statementLine_loop (he : e.Legible) (body : List (String × Update))
    {ending : Reader Unit} (text : List Char) :
    Misses line (statementLine ending) (loopChars e body ++ text) := by
  obtain ⟨c, tail, hchars, hspace, hc⟩ := he.named.exists_head
  rw [loopChars, he.toList_text, hchars]
  simp only [List.append_assoc, List.cons_append]
  refine misses_statementLine isIdentifier_while (by simp; rfl) fun f => ?_
  apply Takes.misses (t := [' ']) (takes_gap_blank hspace _)
  refine (misses_literal ?_).bind
  exact if_neg hc.symm

/-- What is read of a loop. -/
def LoopMeans (e : Expr) (body : List (String × Update)) (l : LoopPhrase) : Prop :=
  GuardMeans e l.guard ∧ List.Forall₂ StatementMeans body l.body

theorem reads_loop (he : e.Legible) {body : List (String × Update)}
    (hbody : ∀ a ∈ body, LegibleAssignment a) :
    Reads loop (loopChars e body) (LoopMeans e body) [] := by
  have hend : StartsLine ("end".toList ++ []) :=
    (startsWord_identifier isIdentifier_end []).startsLine
  obtain ⟨hstarts, hstatements⟩ := reads_many (p := statementLine lineBreaks)
    StartsLine body (fun _ _ => by simp [assignmentChars])
    (fun a ha text _ => startsLine_assignment (hbody a ha) 4 text)
    (fun a ha text htext => reads_statementLine (hbody a ha) htext.reads_lineBreaks 4) hend
    fun _ => misses_statementLine isIdentifier_end (by simp) fun f =>
      Takes.misses (t := []) takes_gap_nil (misses_literal rfl).bind
  apply Reads.construct
  refine Takes.then_reads (fun _ => takes_keyword isIdentifier_while (by simp; rfl)) ?_
  refine Takes.then_reads (a := ()) (fun _ => ?_) ?_
  · rw [List.append_assoc, List.append_assoc]
    exact (he.takes_gap _).gap_cons
  have hsum : EndsSum (([':'] ++ (['\n'] ++ (body.flatMap (assignmentChars 4) ++ "end".toList))) ++
      []) := .here (c := ':') rfl _
  refine Reads.bind (reads_guardPhrase he hsum) fun g hg => ?_
  refine Takes.before_reads (fun _ => takes_gap (by decide) _) ?_
  refine Takes.then_reads (fun _ => takes_literal ":" _) ?_
  refine Takes.before_reads (fun _ => takes_gap (by decide) _) ?_
  rw [← List.append_assoc] at hstarts
  refine Reads.bind hstarts.reads_lineBreaks fun _ _ => ?_
  refine Reads.bind hstatements fun ss hss => ?_
  refine Takes.before_reads (fun _ => takes_gap (by decide) _) ?_
  refine Takes.then_reads (t := []) (fun _ => takes_keyword isIdentifier_end (by simp)) ?_
  refine Takes.before_reads (fun _ => takes_gap_nil) ?_
  exact reads_lineEnd_nil.after fun _ _ => reads_pure ⟨hg, hss⟩ []

end Loop

/-! ### Programs -/

/-- What is read of a program: its initial assignments and its loop. -/
def ProgramMeans (initial updates : List (String × Update)) (guard : Expr) (p : ProgramPhrase) :
    Prop :=
  List.Forall₂ StatementMeans initial p.initial ∧ ∃ l, p.loop = some l ∧ LoopMeans guard updates l

theorem reads_program {initial updates : List (String × Update)} {guard : Expr}
    (hinitial : ∀ a ∈ initial, LegibleAssignment a) (hupdates : ∀ a ∈ updates, LegibleAssignment a)
    (hguard : guard.Legible) :
    Reads program (initial.flatMap (assignmentChars 0) ++ loopChars guard updates)
      (ProgramMeans initial updates guard) [] := by
  have hloop : StartsWord (loopChars guard updates ++ []) := startsWord_loop guard updates []
  obtain ⟨hstarts, hstatements⟩ := reads_many (p := statementLine lineEnd) StartsWord
    initial (fun _ _ => by simp [assignmentChars])
    (fun a ha text _ => startsWord_assignment (hinitial a ha) text)
    (fun a ha text htext => reads_statementLine (hinitial a ha) htext.startsLine.reads_lineEnd 0)
    hloop fun _ => misses_statementLine_loop hguard updates []
  rw [← List.append_assoc] at hstarts
  apply Reads.construct
  refine Takes.before_reads (fun _ => hstarts.takes_gap) ?_
  refine Takes.before_reads (fun _ => hstarts.startsLine.misses_lineBreak.many) ?_
  refine Reads.bind hstatements fun ss hss => ?_
  refine Takes.before_reads (fun _ => hloop.takes_gap) ?_
  refine (reads_loop hguard hupdates).optional.after ?_
  rintro _ ⟨l, rfl, hl⟩
  refine Takes.before_reads (fun _ => takes_gap_nil) ?_
  exact Takes.before_reads (fun _ => takes_endOfText) (reads_pure ⟨hss, l, rfl, hl⟩ [])

namespace Program

/-- The lines that are written for declarations, each with its end. -/
theorem flatMap_lines {lines : Declaration → List String} {indent : Nat}
    {assignment : Declaration → String × Update}
    (h : ∀ d, lines d = [] ∨
      ∃ s, lines d = [s] ∧ s.toList ++ ['\n'] = assignmentChars indent (assignment d))
    (ds : List Declaration) :
    (ds.flatMap lines).flatMap (fun s => s.toList ++ ['\n']) =
      ((ds.filter fun d => !(lines d).isEmpty).map assignment).flatMap (assignmentChars indent) := by
  induction ds with
  | nil => rfl
  | cons d ds ih =>
    rw [List.flatMap_cons, List.flatMap_append, ih]
    rcases h d with hd | ⟨s, hd, hs⟩
    · rw [List.filter_cons_of_neg (by simp [hd]), hd]
      rfl
    · rw [List.filter_cons_of_pos (by simp [hd]), hd, List.map_cons, List.flatMap_singleton, hs,
        List.flatMap_cons]

theorem initialLine_cases (d : Declaration) : initialLine d = [] ∨
    ∃ s, initialLine d = [s] ∧ s.toList ++ ['\n'] = assignmentChars 0 (d.name, d.initial) := by
  unfold initialLine
  split
  · exact Or.inl rfl
  · exact Or.inr ⟨_, rfl, by simp [assignmentChars]⟩

theorem updateLine_cases (d : Declaration) : updateLine d = [] ∨
    ∃ s, updateLine d = [s] ∧ s.toList ++ ['\n'] = assignmentChars 4 (d.name, d.update) := by
  unfold updateLine
  split
  · exact Or.inl rfl
  · exact Or.inr ⟨_, rfl, by simp [assignmentChars]⟩

/-- All lines of a text but the last end with line ends. -/
theorem toList_intercalate_concat (lines : List String) (last : String) :
    (String.intercalate "\n" (lines ++ [last])).toList =
      lines.flatMap (fun s => s.toList ++ ['\n']) ++ last.toList := by
  induction lines with
  | nil => simp
  | cons line lines ih =>
    rw [List.cons_append, String.intercalate_cons_of_ne_nil (by simp), String.toList_append,
      String.toList_append, ih, List.flatMap_cons]
    simp only [List.append_assoc]
    rfl

/-- The text of a program, line by line. -/
theorem toList_text (p : Program) : p.text.toList =
    p.writtenInitial.flatMap (assignmentChars 0) ++ loopChars p.guard p.writtenUpdates := by
  have hinitial : (p.declarations.flatMap initialLine).flatMap (fun s => s.toList ++ ['\n']) =
      p.writtenInitial.flatMap (assignmentChars 0) := flatMap_lines initialLine_cases _
  have hupdates : (p.declarations.flatMap updateLine).flatMap (fun s => s.toList ++ ['\n']) =
      p.writtenUpdates.flatMap (assignmentChars 4) := flatMap_lines updateLine_cases _
  rw [text, lines, toList_intercalate_concat, List.flatMap_append, List.flatMap_append, hinitial,
    hupdates]
  simp [loopChars]

end Program

end ProbLoop
