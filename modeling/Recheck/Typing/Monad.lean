import Recheck.Conversion
import Recheck.Typing.Context
import Recheck.Typing.Failure

/-!
# Recheck — the setting of a check

A check runs against a solver, whose equations it may extend, and writes a trace. What is
in scope is passed along: `Scope` holds the context, the inferred types of let clauses
and the depth of the trace.

The trace has a line for each term, clause, branch and declaration that is looked at,
indented by its depth and marked by one of four bullets in turn.
-/

namespace Recheck

/-- What a check changes. -/
structure CheckState where
  solver : SolverState
  /-- The lines of the trace, in order. -/
  trace : Array String
deriving Inhabited

/-- The state in which nothing has been put off or traced. -/
def CheckState.ofStore (s : Store) : CheckState := ⟨.ofStore s, #[]⟩

/-- Checks. -/
abbrev Check := EStateM Failure CheckState

namespace Check

/-- An operation of a solver as a check. -/
def ofSolver {A : Type} (x : Solver A) : Check A := fun s =>
  match x s.solver with
  | .ok a solver => .ok a { s with solver }
  | .error e solver => .error (.fault e) { s with solver }

instance : MonadLift Solver Check := ⟨ofSolver⟩

instance : MonadLift Core Check := ⟨fun x => ofSolver (Solver.ofCore x)⟩

/-- Whether the check succeeds. -/
def succeeds {A : Type} (x : Check A) (s : CheckState) : Bool :=
  match x s with
  | .ok .. => true
  | .error .. => false

/-- The violated rule, if the check is refused. -/
def cause {A : Type} (x : Check A) (s : CheckState) : Option Cause :=
  match x s with
  | .error (.error e) _ => some e.cause
  | _ => none

theorem exists_ok {A : Type} {x : Check A} {s : CheckState} (h : x.succeeds s) :
    ∃ a s', x s = .ok a s' := by
  rw [succeeds] at h
  cases hx : x s with
  | ok a s' => exact ⟨a, s', rfl⟩
  | error e s' =>
    rw [hx] at h
    cases h

end Check

/-- What a check is told from outside. -/
structure Checker where
  sig : Signature
  /-- The place that obligations and errors are attributed to. -/
  span : Span
  /-- The depth down to which to trace; `0` is no trace and a negative number all of it. -/
  traceDepth : Int64

/-- A checker without a trace. -/
def Checker.untraced (sig : Signature) : Checker := ⟨sig, default, 0⟩

/-- The checker of terms over the prelude. -/
def Prelude.checker : Checker := .untraced signature

/-- What is in scope. -/
structure Scope where
  context : Context
  /-- The types of let clauses that were declared without one. -/
  inferred : List (Var × Term)
  depth : Nat

namespace Scope

/-- The scope in which a check begins. -/
def ofContext (Γ : Context) : Scope := ⟨Γ, [], 0⟩

end Scope

/-! ## Tracing -/

namespace Trace

/-- The bullets of successive depths. -/
def bullet (depth : Nat) : String :=
  match depth % 4 with
  | 0 => "•"
  | 1 => "◦"
  | 2 => "▪"
  | _ => "▫"

/-- A line of the trace; further lines of the text are indented under its beginning. -/
def line (depth : Nat) (text : String) : String :=
  let indent := "".pushn '\t' depth
  let text := (text.dropSuffix "\n").toString.replace "\n" ("\n" ++ indent ++ "  ")
  indent ++ bullet depth ++ " " ++ text

/-- Whether the trace reaches a depth. -/
def reaches (limit : Int64) (depth : Nat) : Bool :=
  limit < 0 || depth < limit.toInt.toNat

end Trace

/-- Runs a check one level deeper in the trace, under a line with the given text. -/
def traced {A : Type} (k : Checker) (scope : Scope) (text : Check String)
    (body : Scope → Check A) : Check A := do
  if Trace.reaches k.traceDepth scope.depth then
    let text ← text
    modify fun s => { s with trace := s.trace.push (Trace.line scope.depth text) }
  body { scope with depth := scope.depth + 1 }

/-! ## Failing -/

/-- Ends a check with an error. -/
def refuse {A : Type} (e : TypeError) : Check A := throw (.error e)

namespace Checker

variable (k : Checker)

/-- An error about a term. -/
def about (cause : Cause) (term : Option Term) : TypeError := .about cause term k.span

/-- A mismatch of types at a term. -/
def mismatch (term : Option Term) (expected : String) (actual : Term) : TypeError :=
  .mismatch term expected actual k.span

/-- Compares two terms that are types. -/
def compareTypes (fuel : Nat) (r : Relation) (a b : Term) : Check Bool := do
  let omega ← Core.build (.univ .omega)
  Solver.compare k.sig fuel k.span r a b (some omega)

/-- Brings a variable of a declared type into scope. The error, if it already is, is
about `t`. -/
def addVar (scope : Scope) (x : Var) (type : Option Term) (t : Term) : Check Scope := do
  match scope.context.add? x type with
  | some context => return { scope with context }
  | none => refuse ((k.about .alreadyBound t).note s!"{x.name} is already bound")

end Checker

/-- The type of a variable in scope: the inferred one of a let clause, or the declared
one. -/
def Scope.typeOf (scope : Scope) (x : Var) : Check (Option Term) := do
  match x.kind with
  | .clause =>
    match scope.inferred.lookup x with
    | some type => return some type
    | none => return (← Core.clause x).type
  | .unknown => return (← Core.unknown x).type
  | .given => return (scope.context.entry? x).bind ContextEntry.type
  | .param =>
    match (scope.context.entry? x).bind ContextEntry.type with
    | some type => return some type
    | none => throw (.fault (.untypedParam x.name))

/-- References to the parameters of a telescope. -/
def paramRefs (ps : Telescope Term) : Core (List Term) :=
  ps.mapM fun p => Core.build (.ref p.var)

end Recheck
