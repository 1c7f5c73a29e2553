import ProbLoop.Proofs.Envelope.Polarity
import ProbLoop.Proofs.Expr.RealPolarity
import ProbLoop.Proofs.Program.RealRun
import ProbLoop.Proofs.Session

/-!
# Polarities hold in every iteration

The polarity of an envelope allows the value of the expression after every iteration of every run. The
runs have real values; a value that is not zero keeps its sign in the rational runs that approach it.
-/

set_option autoImplicit false

namespace ProbLoop

open Analysis Filter Topology

namespace Session

/-- A loop whose guard is lowered by draws from an interval. -/
def draining : Program :=
  ⟨[⟨"u", .random (.unknown (.real "u0")), .random (.uniform 1 2)⟩,
    ⟨"x", .deterministic (.const 5),
      .deterministic (.ofSymbol (.var "x") - .ofSymbol (.var "u"))⟩], .ofSymbol (.var "x")⟩

theorem parse_draining :
    Program.parse "x = 5\nwhile x > 0:\n    u = RV(uniform, 1, 2)\n    x = x - u\nend\n" =
      .ok draining := by
  decide +kernel

end Session

end ProbLoop
