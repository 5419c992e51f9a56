import Recheck.Typing.Patterns

/-!
# Recheck — checking clauses and decision trees

The two forms of a pattern match, each checked on its own. `self` checks a body against
its type.
-/

namespace Recheck

namespace Typing

section Trees

variable (k : Checker) (fuel : Nat) (self : Scope → Term → Option Term → Check Term)

/-- Checks a clause against the parameters and the result type of its match. A clause
without a body has to have an absurd pattern. -/
def clause (scope : Scope) (params : Telescope Term) (resultType : Term)
    (c : Clause Term) : Check Unit :=
  traced k scope (return "clause " ++ Pattern.rowText c.patterns) fun scope => do
    let (_, σ, scope) ← patterns k fuel scope .identity params.columns c.patterns
    match c.body with
    | none =>
      if !Pattern.anyAbsurd c.patterns then
        refuse ((k.about .missingBody none).note ("clause " ++ Pattern.rowText c.patterns))
    | some body =>
      let type ← resultType.subst k.sig fuel σ
      let _ ← self scope body (some type)

/-- Binds the parameters of a node to the first columns. Each column is given the parameter
as its value. -/
def nodeParams (scope : Scope) (m : Mapping Term) :
    Telescope Term → List (Column Term) → Check (Scope × Mapping Term × List (Column Term))
  | [], columns => return (scope, m, columns)
  | p :: _, [] =>
    refuse ((k.about .tooManyPatterns none).note s!"no argument for {p.var.name}")
  | p :: ps, c :: columns => do
    let type ← (← c.typeM).subst k.sig fuel (.ofMapping m)
    let declared ← Telescope.headTypeM (p :: ps)
    let ref ← Core.build (.ref p.var)
    if !(← k.compareTypes fuel .eq type declared) then
      refuse (k.mismatch ref (← type.print k.sig fuel) declared)
    let scope ← k.addVar scope p.var declared type
    let m ← m.compose k.sig fuel (.single c.var ref)
    nodeParams scope m ps columns

/-- Checks that the key of a branch selects values of a type, and returns the value that it
selects, over new parameters for the arguments that it pushes. -/
def branchKey (type : Term) : BranchKey → Check (Term × Telescope Term)
  | .con c => do
    match type.node with
    | .data d =>
      let dataArgs ← requireAdmitted k fuel type d c s!"for branch {c.name}"
        s!"{c.name} is not admitted"
      let σ : Substitution := .of (k.sig.dataMapping c dataArgs) d.sortArg.instantiation
      let (params, _) ← (k.sig.con c).params.subst k.sig fuel σ
      let refs ← paramRefs params
      let value ← Core.build (.con ⟨c, d.sortArg, dataArgs, refs⟩)
      return (value, params)
    | _ => refuse ((k.mismatch none "a data type" type).note s!"for branch {c.name}")
  | .tuple size => do
    let words := s!"a sigma type with {size} fields"
    match type.node with
    | .sigma s =>
      if size.toInt ≠ s.params.length then refuse (k.mismatch none words type)
      let (params, _) ← Telescope.subst k.sig fuel s.params .identity
      let refs ← paramRefs params
      let value ← Core.build (.tuple refs ⟨type.stamp, s⟩)
      return (value, params)
    | _ => refuse (k.mismatch none words type)
  | .record name _ implemented => do
    match type.node with
    | .record r =>
      if r.record ≠ name then
        refuse (k.mismatch none ("a class call of " ++ name.name) type)
      let differs (f : FieldName) : Bool := implemented.contains f != r.isImplemented f
      if let some f := (k.sig.record name).fields.find? differs then
        refuse ((k.about .fieldCoverage type).note
          s!"the branch and the class call disagree on whether {f.name} is implemented")
      let params ← fieldParams k.sig fuel ⟨type.stamp, r⟩
      let refs ← paramRefs params
      let value ← makeRecord k.sig fuel r refs
      return (value, params)
    | _ => refuse (k.mismatch none ("a class call of " ++ name.name) type)

/-- Checks that a branch on a value of a data type has a child for every constructor that
the type admits. A branch on anything else has to have a child. -/
def branchCoverage (type : Term) (keys : List BranchKey) : Check Unit := do
  match type.node with
  | .data d =>
    let cons ← admitted k fuel type d
    match cons.find? fun c => !keys.contains (.con c.1) with
    | none => return ()
    | some (c, _) =>
      refuse ((k.about .nonExhaustive type).note s!"missing case: {c.name}")
  | _ =>
    if keys.isEmpty then
      refuse ((k.about .nonExhaustive none).note "missing case: _")

mutual

/-- Checks a decision tree on columns. The mapping gives the values of the columns that are
already matched, over the parameters of the nodes on the way. -/
def tree (scope : Scope) (m : Mapping Term) (resultType : Term)
    (columns : List (Column Term)) : Tree Term → Check Unit
  | .leaf ps body => do
    let (scope, m, columns) ← nodeParams k fuel scope m ps columns
    if !columns.isEmpty then
      refuse ((k.about .tooFewPatterns none).note
        s!"{columns.length} arguments are not bound by the leaf")
    let type ← resultType.subst k.sig fuel (.ofMapping m)
    let _ ← self scope body (some type)
  | .branch ps children => do
    let (scope, m, columns) ← nodeParams k fuel scope m ps columns
    match columns with
    | [] => refuse ((k.about .tooManyPatterns none).note "no argument to branch on")
    | c :: columns =>
      let type ← (← c.typeM).subst k.sig fuel (.ofMapping m)
      let type ← type.whnf k.sig fuel
      branches scope m resultType type c.var columns children
      branchCoverage k fuel type (children.map Prod.fst)

/-- Checks the children of a branch on the column `x` of the given type. -/
def branches (scope : Scope) (m : Mapping Term) (resultType type : Term) (x : Var)
    (columns : List (Column Term)) : List (BranchKey × Tree Term) → Check Unit
  | [] => return ()
  | (key, t) :: rest => do
    traced k scope (return "branch " ++ key.text) fun scope => do
      let (value, params) ← branchKey k fuel type key
      tree scope (m.insert (.local x) value) resultType (params.columns ++ columns) t
    branches scope m resultType type x columns rest

end

/-- Checks a pattern match on a telescope. -/
def elim (scope : Scope) (params : Telescope Term) (resultType : Term) (e : Elim Term) :
    Check Unit := do
  e.clauses.forM (clause k fuel self scope params resultType)
  match e.tree with
  | none => return ()
  | some t => tree k fuel self scope .empty resultType params.columns t

end Trees

end Typing

end Recheck
