import Recheck.Admission
import Recheck.Typing.Monad

/-!
# Recheck — checking pattern matches

A pattern match on a telescope is checked clause by clause: the patterns against the
types of the parameters, from left to right, and the body against the result type in
which each parameter is replaced by the term that its pattern matches.

A decision tree is checked along its paths. Each column, a parameter that is still to be
matched, becomes a parameter of a node or is split by a branch into the arguments of a
head, and the mapping keeps track of the values that the columns have been given.
-/

namespace Recheck

namespace Typing

section Patterns

variable (k : Checker) (fuel : Nat)

/-- The data type that a constructor or absurd pattern splits. -/
def patternDataType (p : Pattern Term) (type : Term) : Check (Term × DataType Term) := do
  let type ← type.whnf k.sig fuel
  match type.node with
  | .data d => return (type, d)
  | _ => refuse ((k.mismatch none "a data type" type).note s!"for pattern {p.text}")

/-- The constructors that an instance admits, which have to be determined. -/
def admitted (type : Term) (d : DataType Term) : Check (List (ConName × List Term)) := do
  match ← d.admitted k.sig fuel with
  | some cons => return cons
  | none => refuse (k.about .impossibleElimination type)

/-- Checks that a constructor belongs to an instance of its data type, and returns its data
arguments. The words are those for the undetermined and for the refused case. -/
def requireAdmitted (type : Term) (d : DataType Term) (c : ConName)
    (undetermined refused : String) : Check (List Term) := do
  if (k.sig.con c).data ≠ d.data then
    refuse ((k.about .expectedConstructor type).note
      s!"{c.name} is not a constructor of {d.data.name}")
  match ← d.admission k.sig fuel c with
  | .undetermined => refuse ((k.about .impossibleElimination type).note undetermined)
  | .refused => refuse ((k.about .dataTypeNotEmpty type).note refused)
  | .admitted dataArgs => return dataArgs

/-- Checks that the fields of a record pattern are those that the type leaves open. -/
def patternFields (p : Pattern Term) (type : Term) (r : RecordType Term)
    (fields : List FieldName) : Check Unit := do
  let expected := k.sig.notImplemented r
  if expected.length ≠ fields.length then
    refuse ((k.about .fieldCoverage type).note
      s!"pattern {p.text} matches {fields.length} fields, expected {expected.length}")
  match (fields.zip expected).find? fun e => e.1 ≠ e.2 with
  | none => return ()
  | some (f, g) =>
    refuse ((k.about .fieldCoverage type).note
      s!"pattern {p.text} matches {f.name}, expected {g.name}")

/-- Checks that there are as many patterns as there are things to match. -/
def patternCount (expected found : Nat) : Check Unit := do
  let note := s!"expected {expected} patterns, got {found}"
  if expected < found then refuse ((k.about .tooManyPatterns none).note note)
  if found < expected then refuse ((k.about .tooFewPatterns none).note note)

mutual

/-- Checks a pattern against a type, brings its variables into scope and returns the term
that it matches. -/
def pattern (scope : Scope) (type : Term) : Pattern Term → Check (Term × Scope)
  | .bind x declared => do
    let ref ← Core.build (.ref x)
    if !(← k.compareTypes fuel .eq type declared) then
      refuse (k.mismatch ref (← type.print k.sig fuel) declared)
    let scope ← k.addVar scope x declared type
    return (ref, scope)
  | .wild => do
    let x ← Core.freshVar .param "_"
    let scope ← k.addVar scope x type type
    let ref ← Core.build (.ref x)
    return (ref, scope)
  | .absurd => do
    let (whnf, d) ← patternDataType k fuel .absurd type
    let cons ← admitted k fuel whnf d
    if !cons.isEmpty then
      refuse (cons.foldl (fun e c => e.note s!"{c.1.name} is admitted")
        (k.about .dataTypeNotEmpty whnf))
    let hole ← Core.build (.hole false none)
    return (hole, scope)
  | .con c ps => do
    let p : Pattern Term := .con c ps
    let (whnf, d) ← patternDataType k fuel p type
    let dataArgs ← requireAdmitted k fuel whnf d c s!"for pattern {p.text}"
      s!"{c.name} is not admitted, use an absurd pattern"
    let σ : Substitution := .of (k.sig.dataMapping c dataArgs) d.sortArg.instantiation
    let columns := (k.sig.con c).params.columns
    patternCount k columns.length ps.length
    let (args, _, scope) ← patternRow scope σ columns ps
    let t ← Core.build (.con ⟨c, d.sortArg, dataArgs, args⟩)
    return (t, scope)
  | .tuple ps => do
    let whnf ← type.whnf k.sig fuel
    match whnf.node with
    | .sigma s =>
      let columns := Telescope.columns s.params
      patternCount k columns.length ps.length
      let (args, _, scope) ← patternRow scope .identity columns ps
      let t ← Core.build (.tuple args ⟨whnf.stamp, s⟩)
      return (t, scope)
    | _ =>
      let p : Pattern Term := .tuple ps
      refuse ((k.mismatch none "a sigma type" whnf).note s!"for pattern {p.text}")
  | .record fields ps => do
    let p : Pattern Term := .record fields ps
    let whnf ← type.whnf k.sig fuel
    match whnf.node with
    | .record r =>
      patternFields k p whnf r fields
      let columns := (← fieldParams k.sig fuel ⟨whnf.stamp, r⟩).columns
      patternCount k columns.length ps.length
      let (args, _, scope) ← patternRow scope .identity columns ps
      let t ← makeRecord k.sig fuel r args
      return (t, scope)
    | _ => refuse ((k.mismatch none "a class call" whnf).note s!"for pattern {p.text}")

/-- Checks the patterns of a row, of which there are as many as columns. The substitution
replaces the columns that have been matched, and returns with the new ones added. -/
def patternRow (scope : Scope) (σ : Substitution) :
    List (Column Term) → List (Pattern Term) → Check (List Term × Substitution × Scope)
  | c :: cs, p :: ps => do
    let type ← (← c.typeM).subst k.sig fuel σ
    let (t, scope) ← pattern scope type p
    let (ts, σ, scope) ← patternRow scope (σ.bind c.var t) cs ps
    return (t :: ts, σ, scope)
  | _, _ => return ([], σ, scope)

end

/-- Checks patterns against the types of columns. -/
def patterns (scope : Scope) (σ : Substitution) (columns : List (Column Term))
    (ps : List (Pattern Term)) : Check (List Term × Substitution × Scope) := do
  patternCount k columns.length ps.length
  patternRow k fuel scope σ columns ps

end Patterns

end Typing

end Recheck
