import ProbLoop.Program.Basic

/-!
# Dependencies between variables

The ancestors of a variable are the variables from which its value is computed, in one step or in
several. Two variables depend on each other if they have an ancestor in common. A variable is
probabilistic unless its value is a function of the iteration counter.
-/

set_option autoImplicit false

namespace ProbLoop

/-- Finite sets of symbols, sorted and without repetitions. -/
abbrev SymbolSet := List (Symbol × Unit)

namespace SymbolSet

def insert (s : Symbol) (set : SymbolSet) : SymbolSet := Expr.addSymbol s set

def ofList (ss : List Symbol) : SymbolSet := ss.foldl (fun acc s => insert s acc) []

def toList (set : SymbolSet) : List Symbol := set.map (·.1)

def union (a b : SymbolSet) : SymbolSet := b.foldl (fun acc p => insert p.1 acc) a

def meets (a b : SymbolSet) : Bool := a.any (fun p => b.any (fun q => p.1 == q.1))

end SymbolSet

/-- The variables that the branches of an update mention. -/
def Update.parents : Update → SymbolSet
  | .random _ => []
  | .branches bs =>
    SymbolSet.ofList ((bs.flatMap (fun b => b.1.freeSymbols)).filter Symbol.isVar)

namespace Program

/-- The ancestors of each variable; those of the variables updated before it are known. -/
def ancestorTable (p : Program) : List (Symbol × SymbolSet) :=
  p.declarations.foldl (fun table d =>
    let parents := d.update.parents
    let all := parents.foldl (fun acc q =>
      if q.1 = d.symbol then acc
      else acc.union ((Assoc.find? q.1 table).getD [])) parents
    table ++ [(d.symbol, all)]) []

def ancestors (p : Program) (s : Symbol) : SymbolSet :=
  (Assoc.find? s p.ancestorTable).getD []

/-- The variables that have an ancestor in common with the given one. -/
def dependencies (p : Program) (s : Symbol) : SymbolSet :=
  SymbolSet.ofList (p.vars.filter (fun v => (p.ancestors s).meets (p.ancestors v)))

/-- Holds of a variable that is itself a source of chance. -/
def isChanceful (d : Declaration) : Bool :=
  d.update.isRandom || (d.update.branches?.any (fun bs => 1 < bs.length)) || !d.initial.isFixed

/-- The variables whose value is not determined by the number of iterations. -/
def probabilisticVars (p : Program) : List Symbol :=
  p.declarations.foldl (fun found d =>
    if isChanceful d || d.update.parents.any (fun q => found.contains q.1) then d.symbol :: found
    else found) []

def isProbabilistic (p : Program) (s : Symbol) : Bool :=
  p.probabilisticVars.contains s

end Program

end ProbLoop
