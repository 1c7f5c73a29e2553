import ProbLoop.Termination

/-!
# Sessions

An analysis of one program at a time, with a verdict that is refined on demand. Going on to another
program forgets what was found about the last one, but not the constants that were drawn.
-/

set_option autoImplicit false

namespace ProbLoop

structure Session where
  program : Program
  analysis : Analysis
  verdict : Verdict

namespace Session

def start (p : Program) (supply : Supply) : Session := ⟨p, .start supply, .start⟩

/-- Runs a question about the program. What was found stays known, even if the question fails. -/
def ask {α : Type} (s : Session) (question : Program → Attempt Analysis α) :
    Except Error α × Session :=
  let (answer, analysis) := (question s.program).run.run s.analysis
  (answer, { s with analysis := analysis })

def switch (s : Session) (p : Program) : Session :=
  { s with program := p, analysis := s.analysis.clear }

/-- Runs a rule on the verdict. A rule that fails leaves the verdict as it is. -/
def runRule (s : Session) (rule : ProofRule) (drift : Drift) : Except Error Verdict × Session :=
  let (answer, s') := s.ask fun p => rule.run p drift s.verdict
  match answer with
  | .ok v => (.ok v, { s' with verdict := v })
  | .error e => (.error e, s')

end Session

end ProbLoop
