import Recheck.Store

/-!
# Recheck — equations

A comparison that depends on unsolved unknowns, or on the values of level variables, can
be put off: it is recorded as an equation and accepted for the time being. `Equations`
holds what has been recorded, in order, and says what may be.

`Solver` is the monad of all operations that can put off a comparison. As in `Core`, the
changes made before a fault are kept.
-/

namespace Recheck

/-- A comparison of terms that was put off. -/
structure Equation where
  a : Term
  b : Term
  type : Option Term
  relation : Relation
  span : Span
  /-- The unknown that the left-hand side is stuck on. -/
  lhs : Option Var
  /-- The unknown that the right-hand side is stuck on. -/
  rhs : Option Var

/-- A comparison of levels that was put off. -/
structure LevelEquation where
  a : Level
  b : Level
  relation : Relation
  span : Span

def LevelEquation.text (e : LevelEquation) : String :=
  s!"{e.a.text} {e.relation.text} {e.b.text}"

/-- What has been put off so far, and what may be. -/
structure Equations where
  deferred : List Equation
  levels : List LevelEquation
  /-- Whether equations between terms are refused; then unknowns are not solved either. -/
  levelsOnly : Bool
  /-- Whether undecided comparisons of levels are put off, rather than refused. -/
  deferLevels : Bool
deriving Inhabited

/-- Nothing has been put off yet. -/
def Equations.new (levelsOnly deferLevels : Bool) : Equations :=
  ⟨[], [], levelsOnly, deferLevels⟩

/-- The state of a solver. -/
structure SolverState where
  store : Store
  equations : Equations
deriving Inhabited

/-- The state of a solver that has put nothing off, and refuses levels that it cannot decide. -/
def SolverState.ofStore (s : Store) : SolverState := ⟨s, .new false false⟩

/-- Operations that can put off comparisons. -/
abbrev Solver := EStateM Fault SolverState

namespace Solver

/-- An operation on terms as one of a solver. -/
def ofCore {A : Type} (x : Core A) : Solver A := fun s =>
  match x s.store with
  | .ok a store => .ok a { s with store }
  | .error e store => .error e { s with store }

instance : MonadLift Core Solver := ⟨ofCore⟩

/-- Whether equations between terms are accepted. -/
def acceptsTerms : Solver Bool := return !(← get).equations.levelsOnly

/-- Puts off a comparison of terms; the answer is whether that is accepted. -/
def addEquation (e : Equation) : Solver Bool := do
  if ← acceptsTerms then
    modify fun s =>
      { s with equations.deferred := s.equations.deferred ++ [e] }
    return true
  else
    return false

/-- Puts off a comparison of levels; the answer is whether that is accepted. -/
def addLevelEquation (e : LevelEquation) : Solver Bool := do
  if (← get).equations.deferLevels then
    modify fun s => { s with equations.levels := s.equations.levels ++ [e] }
    return true
  else
    return false

/-- Compares two levels, putting off what cannot be decided. -/
def compareLevels (span : Span) : Relation → Level → Level → Solver Bool :=
  Level.compareWith fun r a b => addLevelEquation ⟨a, b, r, span⟩

/-- Compares two sorts, putting off what cannot be decided. -/
def compareSorts (span : Span) : Relation → USort → USort → Solver Bool :=
  USort.compareWith fun r a b => addLevelEquation ⟨a, b, r, span⟩

end Solver

end Recheck
