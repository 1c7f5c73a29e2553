import ProbLoop.Assoc
import ProbLoop.Asymptotics.Dominance
import ProbLoop.Asymptotics.Limit
import ProbLoop.Asymptotics.SignSplit
import ProbLoop.Distribution
import ProbLoop.Envelope
import ProbLoop.Error
import ProbLoop.Expr.Basic
import ProbLoop.Expr.Binary64
import ProbLoop.Expr.Collect
import ProbLoop.Expr.Iteration
import ProbLoop.Expr.Narrow
import ProbLoop.Expr.Substitution
import ProbLoop.Expr.Text
import ProbLoop.Expr.Value
import ProbLoop.Interval
import ProbLoop.Invariance
import ProbLoop.Main
import ProbLoop.Memo
import ProbLoop.Moments
import ProbLoop.Monomial
import ProbLoop.Number.Basic
import ProbLoop.Number.Binary64
import ProbLoop.Number.Counting
import ProbLoop.Number.Power
import ProbLoop.Polarity
import ProbLoop.Polynomial.Basic
import ProbLoop.Polynomial.Roots
import ProbLoop.Program.Basic
import ProbLoop.Program.Dependency
import ProbLoop.Program.Descent
import ProbLoop.Program.Draft
import ProbLoop.Program.Execution
import ProbLoop.Program.Initial
import ProbLoop.Program.OneStep
import ProbLoop.ProofRule.Basic
import ProbLoop.ProofRule.Conclusion
import ProbLoop.ProofRule.Run
import ProbLoop.Recurrence
import ProbLoop.Session
import ProbLoop.Source.Grammar
import ProbLoop.Source.Meaning
import ProbLoop.Source.Reader
import ProbLoop.Symbol
import ProbLoop.Termination
import ProbLoop.Update
import ProbLoop.Verdict
import ProbLoop.Proofs.Assoc
import ProbLoop.Proofs.Expr.Linear
import ProbLoop.Proofs.Expr.Canonical
import ProbLoop.Proofs.Expr.Value
import ProbLoop.Proofs.Expr.Unique
import ProbLoop.Proofs.Expr.Powers
import ProbLoop.Proofs.Expr.Exponential
import ProbLoop.Proofs.Expr.Collect
import ProbLoop.Proofs.Expr.Built
import ProbLoop.Proofs.Expr.Operations
import ProbLoop.Proofs.Expr.Substitution
import ProbLoop.Proofs.Source.Reading
import ProbLoop.Proofs.Source.Written
import ProbLoop.Proofs.Source.Lines
import ProbLoop.Proofs.Expr.Narrow
import ProbLoop.Proofs.Source.Narrow
import ProbLoop.Proofs.Expr.Text
import ProbLoop.Proofs.Expr.RealValue
import ProbLoop.Proofs.Recurrence
import ProbLoop.Proofs.Expr.Over
import ProbLoop.Proofs.Expr.Affine
import ProbLoop.Proofs.Except
import ProbLoop.Proofs.Program.Checks
import ProbLoop.Proofs.Program.WellFormed
import ProbLoop.Proofs.Program.Accepted
import ProbLoop.Proofs.Program.Sequential
import ProbLoop.Proofs.Source.Meaning
import ProbLoop.Proofs.Source.Statements
import ProbLoop.Proofs.Program.Rebuilt
import ProbLoop.Proofs.Source.Programs
import ProbLoop.Proofs.Source.RoundTrip
import ProbLoop.Proofs.Program.Descent
import ProbLoop.Proofs.Program.OneStep
import ProbLoop.Proofs.Program.Determined
import ProbLoop.Proofs.Memo
import ProbLoop.Proofs.ClosedForm
import ProbLoop.Proofs.Product
import ProbLoop.Proofs.Martingale
import ProbLoop.Proofs.Program.Execution
import ProbLoop.Proofs.Survival
import ProbLoop.Proofs.Divergence
import ProbLoop.Proofs.Asymptotics.Limit
import ProbLoop.Proofs.Exit
import ProbLoop.Proofs.Asymptotics.Dominance
import ProbLoop.Proofs.Asymptotics.EventualSign
import ProbLoop.Proofs.Asymptotics.Within
import ProbLoop.Proofs.Program.Cases
import ProbLoop.Proofs.Program.CaseLaw
import ProbLoop.Proofs.Envelope.Within
import ProbLoop.Proofs.Evidence
import ProbLoop.Proofs.Rules
import ProbLoop.Proofs.Interval
import ProbLoop.Proofs.Program.Initial
import ProbLoop.Proofs.Holds
import ProbLoop.Proofs.Positive
import ProbLoop.Proofs.Negative
import ProbLoop.Proofs.Envelope.Polarity
import ProbLoop.Proofs.Program.RealRun
import ProbLoop.Proofs.Steady
import ProbLoop.Proofs.Acyclic
import ProbLoop.Proofs.Abort
import ProbLoop.Proofs.Envelope.Counter
import ProbLoop.Proofs.Consistent
import ProbLoop.Proofs.SignedRuns
import ProbLoop.Proofs.DeterminedRuns
import ProbLoop.Proofs.Program.CaseMean
import ProbLoop.Proofs.InvariantRuns
import ProbLoop.Proofs.Asymptotics.Comparison
import ProbLoop.Proofs.Asymptotics.Multiples
import ProbLoop.Proofs.Asymptotics.Canonicalize
import ProbLoop.Proofs.Asymptotics.Folding
import ProbLoop.Proofs.Asymptotics.SignSplit
import ProbLoop.Proofs.Polynomial.Ceiling
import ProbLoop.Proofs.Expr.Nonpositive
import ProbLoop.Proofs.InitialSigns
import ProbLoop.Proofs.Eulerian
import ProbLoop.Proofs.RawMoments
import ProbLoop.Proofs.IntervalHull
import ProbLoop.Proofs.RandomRange
import ProbLoop.Proofs.Expr.Negation
import ProbLoop.Proofs.Expr.Uses
import ProbLoop.Proofs.Expr.Renaming
import ProbLoop.Proofs.Advances
import ProbLoop.Proofs.Asymptotics.Drawn
import ProbLoop.Proofs.Asymptotics.Negation
import ProbLoop.Proofs.Program.Given
import ProbLoop.Proofs.Envelope.Vocabulary
import ProbLoop.Proofs.Envelope.Stored
import ProbLoop.Proofs.Forward
import ProbLoop.Proofs.Envelope.Negation
import ProbLoop.Proofs.IntegerPower
import ProbLoop.Proofs.Program.Ancestors
import ProbLoop.Proofs.Source.Spelling
import ProbLoop.Proofs.Source.Finding
import ProbLoop.Proofs.Source.Spelled
import ProbLoop.Proofs.Expr.ValueAt
import ProbLoop.Proofs.Source.Value
