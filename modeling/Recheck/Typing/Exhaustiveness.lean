import Recheck.Typing.Patterns

/-!
# Recheck — exhaustiveness of clauses

The clauses of a match are exhaustive if every value of its telescope matches one of
them. `missing` looks at the patterns as a matrix, with one row for each clause and one
column for each parameter. It splits the first column by the constructors that its type
admits, or into the components of a tuple or a record, until no row looks at the column
any more, and returns the patterns of a value that no row matches.

The types of the columns may depend on one another, so the mapping keeps the values that
the columns have been split into.
-/

namespace Recheck

namespace Typing

/-- The rows of a matrix after its first column is split into `size` columns. `select`
gives the arguments of a pattern that the split agrees with; rows with a pattern of
another head drop out, and rows that take anything stay. -/
def splitRows (size : Nat) (select : Pattern Term → Option (List (Pattern Term))) :
    List (List (Pattern Term)) → List (List (Pattern Term))
  | [] => []
  | [] :: rows => splitRows size select rows
  | (p :: ps) :: rows =>
    match p with
    | .bind .. | .wild => (List.replicate size .wild ++ ps) :: splitRows size select rows
    | _ =>
      match select p with
      | some args => (args ++ ps) :: splitRows size select rows
      | none => splitRows size select rows

/-- The arguments of a pattern of the given constructor. -/
def conArgs (c : ConName) : Pattern Term → Option (List (Pattern Term))
  | .con d args => if d = c then some args else none
  | _ => none

def tupleArgs : Pattern Term → Option (List (Pattern Term))
  | .tuple args => some args
  | _ => none

def recordArgs : Pattern Term → Option (List (Pattern Term))
  | .record _ args => some args
  | _ => none

/-- Folds the first `size` patterns of a row into one. -/
def joinRow (size : Nat) (build : List (Pattern Term) → Pattern Term)
    (row : List (Pattern Term)) : List (Pattern Term) :=
  build (row.take size) :: row.drop size

/-- Whether a row is settled by an absurd pattern in the first column. -/
def startsAbsurd : List (Pattern Term) → Bool
  | .absurd :: _ => true
  | _ => false

/-- Whether a row looks at the head of the first column. -/
def startsCompound : List (Pattern Term) → Bool
  | .con .. :: _ | .tuple _ :: _ | .record .. :: _ => true
  | _ => false

section Matrix

variable (k : Checker) (fuel : Nat)
variable (self : List (List (Pattern Term)) → List (Column Term) → Mapping Term →
  Check (Option (List (Pattern Term))))

/-- The rest of the matrix once the first column has been split into parameters with the
given value. -/
def splitColumn (rows : List (List (Pattern Term))) (x : Var)
    (columns : List (Column Term)) (m : Mapping Term) (value : Term)
    (params : Telescope Term) (select : Pattern Term → Option (List (Pattern Term)))
    (build : List (Pattern Term) → Pattern Term) :
    Check (Option (List (Pattern Term))) := do
  let rows := splitRows params.length select rows
  let missing ← self rows (params.columns ++ columns) (m.insert (.local x) value)
  return missing.map (joinRow params.length build)

/-- The first constructor with a missing case. -/
def splitData (rows : List (List (Pattern Term))) (x : Var)
    (columns : List (Column Term)) (m : Mapping Term) (d : DataType Term) :
    List (ConName × List Term) → Check (Option (List (Pattern Term)))
  | [] => return none
  | (c, dataArgs) :: cons => do
    let σ : Substitution :=
      .of (m.insertAll (k.sig.dataMapping c dataArgs)) d.sortArg.instantiation
    let (params, _) ← (k.sig.con c).params.subst k.sig fuel σ
    let refs ← paramRefs params
    let value ← Core.build (.con ⟨c, d.sortArg, dataArgs, refs⟩)
    match ← splitColumn self rows x columns m value params (conArgs c) (.con c) with
    | some missing => return some missing
    | none => splitData rows x columns m d cons

/-- Splits the first column, at a type in weak-head normal form. -/
def split (rows : List (List (Pattern Term))) (x : Var) (columns : List (Column Term))
    (m : Mapping Term) (type : Term) : Check (Option (List (Pattern Term))) := do
  match type.node with
  | .data d =>
    let cons ← admitted k fuel type d
    splitData k fuel self rows x columns m d cons
  | .sigma s =>
    let (params, _) ← Telescope.subst k.sig fuel s.params (.ofMapping m)
    let refs ← paramRefs params
    let value ← Core.build (.tuple refs ⟨type.stamp, s⟩)
    splitColumn self rows x columns m value params tupleArgs .tuple
  | .record r =>
    let params ← fieldParams k.sig fuel ⟨type.stamp, r⟩
    let refs ← paramRefs params
    let value ← makeRecord k.sig fuel r refs
    splitColumn self rows x columns m value params recordArgs (.record (k.sig.notImplemented r))
  | _ =>
    let p := (rows.head?.bind List.head?).elim "" Pattern.text
    refuse ((k.mismatch none "a data, sigma, or class type" type).note s!"for pattern {p}")

/-- A value of the columns that no row matches, the matrices after a step being left to
`self`. -/
def missingStep (rows : List (List (Pattern Term))) (columns : List (Column Term))
    (m : Mapping Term) : Check (Option (List (Pattern Term))) := do
  match columns with
  | [] => return if rows.isEmpty then some [] else none
  | c :: rest =>
    let type ← (← c.typeM).subst k.sig fuel (.ofMapping m)
    let type ← type.whnf k.sig fuel
    if rows.any startsAbsurd then return none
    if rows.isEmpty then
      -- Nothing is missing at an empty type, even without a row.
      if let .data d := type.node then
        if let some [] ← d.admitted k.sig fuel then return none
      return some (List.replicate columns.length .wild)
    if rows.any startsCompound then split k fuel self rows c.var rest m type
    else
      let missing ← self (rows.map List.tail) rest m
      return missing.map (.wild :: ·)

end Matrix

/-- The patterns of a value of the columns that no row matches, if there is one. -/
def missing (k : Checker) :
    Nat → List (List (Pattern Term)) → List (Column Term) → Mapping Term →
      Check (Option (List (Pattern Term)))
  | 0, _, _, _ => throw (.fault .outOfFuel)
  | fuel + 1, rows, columns, m => missingStep k fuel (missing k fuel) rows columns m

/-- Checks that the clauses of a match on a telescope are exhaustive. A match that is given
only by its tree is exhaustive if every branch is, which is checked with the branch. -/
def exhaustive (k : Checker) (fuel : Nat) (t : Option Term) (params : Telescope Term)
    (e : Elim Term) : Check Unit := do
  if e.clauses.isEmpty && e.tree.isSome then return ()
  match ← missing k fuel (e.clauses.map Clause.patterns) params.columns .empty with
  | none => return ()
  | some ps =>
    refuse ((k.about .nonExhaustive t).note ("missing case: " ++ Pattern.rowText ps))

end Typing

end Recheck
