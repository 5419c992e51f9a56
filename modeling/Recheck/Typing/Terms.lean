import Recheck.Typing.Exhaustiveness
import Recheck.Typing.Trees

/-!
# Recheck — checking terms

The checker derives the type of a term anew and trusts nothing that the term says about
itself: every binder, every argument and every pattern match is checked, and only
comparisons are left to the solver. The first violated rule ends the check.

`Typing.term` infers the type of a term, or checks the term against an expected type, in
which case it returns that type itself.
-/

namespace Recheck

namespace Typing

section Step

variable (k : Checker) (fuel : Nat) (self : Scope → Term → Option Term → Check Term)

/-! ## Building blocks -/

/-- Checks that a term is a type of the given universe. -/
def typeIn (scope : Scope) (t : Term) (sort : USort) : Check Unit := do
  let u ← Core.build (.univ sort)
  let _ ← self scope t (some u)

/-- Checks that a term is a type and returns its sort. -/
def sortOf (scope : Scope) (t : Term) : Check USort := do
  let type ← self scope t none
  let type ← type.whnf k.sig fuel
  match type.node with
  | .univ sort => return sort
  | _ =>
    refuse ((k.about .cannotInferSort t).note ("its type is " ++ (← type.quote k.sig fuel)))

/-- Checks the types of a telescope against a universe and brings its parameters into
scope, each after its type. -/
def params (u : Term) : Scope → Telescope Term → Check Scope
  | scope, [] => return scope
  | scope, p :: ps => do
    if let some type := p.type then
      let _ ← self scope type (some u)
    let type ← Telescope.headTypeM (p :: ps)
    let scope ← k.addVar scope p.var type type
    params u scope ps

/-- Checks the types of a telescope against the universe of a sort. -/
def paramsIn (scope : Scope) (ps : Telescope Term) (sort : USort) : Check Scope := do
  let u ← Core.build (.univ sort)
  params k self u scope ps

/-- Checks arguments against the types of columns, in which earlier arguments are put for
earlier columns. `first` replaces the type of the first column. -/
def argsFrom (scope : Scope) (first : Option Term) :
    Substitution → List (Column Term) → List Term → Check Substitution
  | σ, c :: cs, t :: ts => do
    let type ← match first with
      | some type => pure type
      | none => do (← c.typeM).subst k.sig fuel σ
    let _ ← self scope t (some type)
    argsFrom scope none (σ.bind c.var t) cs ts
  | σ, _, _ => return σ

/-- Checks the arguments of the call `t`, of which there have to be as many as columns, and
returns the substitution with the arguments added. -/
def callArgs (scope : Scope) (t : Term) (first : Option Term) (σ : Substitution)
    (columns : List (Column Term)) (args : List Term) : Check Substitution := do
  if args.length ≠ columns.length then
    refuse ((k.about .typeMismatch t).note
      s!"expected {columns.length} arguments, got {args.length}")
  argsFrom k fuel self scope first σ columns args

/-- Checks that an inferred type is below the expected one, if there is one, and returns
the type of the term. -/
def conclude (t : Term) (expected : Option Term) (actual : Term) : Check Term := do
  match expected with
  | none => return actual
  | some type =>
    if !(← k.compareTypes fuel .le actual type) then
      refuse (k.mismatch t (← type.print k.sig fuel) actual)
    return type

/-! ## The rules -/

/-- A variable has to be in scope and to have a type. -/
def variableType (scope : Scope) (t : Term) (x : Var) : Check Term := do
  if !scope.context.contains x then refuse (k.about .unbound t)
  match ← scope.typeOf x with
  | some type => return type
  | none => refuse ((k.about .unbound t).note s!"{x.name} has no type")

/-- The bounds of an unknown have to be in scope, except those that a delayed substitution
replaces. -/
def boundsInScope (scope : Scope) (t : Term) (v : Var) (exprs : Mapping Term) :
    Check Unit := do
  let u ← Core.unknown v
  let missing := u.bounds.filter fun x =>
    !exprs.contains (.local x) && !scope.context.contains x
  if !missing.isEmpty then
    let names := (missing.map Var.name).mergeSort fun a b => a ≤ b
    let names := ", ".intercalate names
    refuse ((k.about .unbound t).note
      s!"{v.name} depends on {names}, which is not bound")

/-- The type of an unknown. -/
def unknownType (v : Var) : Check Term := do
  match (← Core.unknown v).type with
  | some type => return type
  | none => throw (.fault .malformed)

def application (scope : Scope) (fn arg : Term) : Check Term := do
  let type ← self scope fn none
  let type ← type.whnf k.sig fuel
  match type.node with
  | .pi sort ps codomain =>
    let domain ← Telescope.headTypeM ps
    let _ ← self scope arg (some domain)
    instantiatePi k.sig fuel sort ps codomain [arg]
  | _ => refuse (k.mismatch fn "a pi type" type)

/-- The type argument of an equality at a proposition may be any set. -/
def propEqualityDomain (f : FuncName) (sortArg : USort) : Check (Option Term) := do
  if f = Prelude.equality && sortArg.isProp then
    return some (← Core.build (.univ ⟨.infinity, .closed 0⟩))
  else return none

def call (scope : Scope) (t : Term) (f : FuncName) (sortArg : USort) (args : List Term) :
    Check Term := do
  let decl := k.sig.func f
  let first ← propEqualityDomain f sortArg
  let σ ← callArgs k fuel self scope t first (.of .empty sortArg.instantiation)
    decl.params.columns args
  decl.resultType.subst k.sig fuel σ

def constructor (scope : Scope) (t : Term) (c : ConApp Term) : Check Term := do
  let σ ← callArgs k fuel self scope t none (.of .empty c.sortArg.instantiation)
    (k.sig.dataColumns c.con) c.dataArgs
  let _ ← callArgs k fuel self scope t none σ (k.sig.con c.con).params.columns c.args
  let d ← c.dataType k.sig fuel
  Core.build (.data d)

def dataType (scope : Scope) (t : Term) (d : DataType Term) : Check Term := do
  let decl := k.sig.data d.data
  let levels := d.sortArg.instantiation
  let _ ← callArgs k fuel self scope t none (.of .empty levels) decl.params.columns d.args
  Core.build (.univ (decl.sort.subst levels))

def projection (scope : Scope) (t u : Term) (index : Int64) : Check Term := do
  let type ← self scope u none
  let type ← type.whnf k.sig fuel
  match type.node with
  | .sigma s =>
    let columns := Telescope.columns s.params
    if index.toInt ≥ columns.length then
      let words := s!"a sigma type with at least {index + 1} fields"
      refuse (k.mismatch t words type)
    let before := columns.take index.toNatClampNeg
    let projs ← (List.range before.length).mapM fun i => makeProj u (.ofNat i)
    let m := Mapping.empty.insertVars (before.map Column.var) projs
    match columns.drop before.length with
    | [] => throw (.fault .malformed)
    | c :: _ => (← c.typeM).subst k.sig fuel (.ofMapping m)
  | _ => refuse (k.mismatch u "a sigma type" type)

/-- The implementations have to be of fields of the record, and of their types. Unless the
record is promised to be a proposition, its sort has to bound the fields that are left
open; a promised homotopy level stands in for the one of the sort. -/
def recordType (scope : Scope) (t : Term) (r : RecordType Term) : Check Term := do
  let decl := k.sig.record r.record
  let scope ← k.addVar scope r.this t t
  if let some (f, _) := r.impls.find? fun e => (k.sig.field e.1).record ≠ r.record then
    refuse ((k.about .typeMismatch t).note
      s!"{f.name} is not a field of {r.record.name}")
  let this ← Core.build (.ref r.this)
  for f in k.sig.implemented r do
    if let some impl := r.impl? f then
      let type ← fieldTypeAt k.sig fuel f r.sortArg this
      let _ ← self scope impl (some type)
  let promised := k.sig.useLevel r.record r.isImplemented
  if promised ≠ some USort.propLevel then
    for f in k.sig.notImplemented r do
      openField scope t r this promised f
  if r.universes < decl.universes then
    let exceeds (f : FieldName) : Bool :=
      r.universes < (k.sig.field f).universes && !r.isImplemented f
    if let some f := decl.fields.find? exceeds then
      let kind := (k.sig.field f).universes.text
      refuse { (k.about .universeKind t).note
        s!"{f.name} has {kind}, but the class call has {r.universes.text}" with
        field := some f }
  Core.build (.univ r.sort)
where
  /-- A field that is left open has to be in the sort of the record type. -/
  openField (scope : Scope) (t : Term) (r : RecordType Term) (this : Term)
      (promised : Option Int64) (f : FieldName) : Check Unit := do
    let type ← fieldTypeAt k.sig fuel f r.sortArg this
    let sort ← sortOf k fuel self scope type
    if sort.isProp then return ()
    let kept : Bool := match promised, sort.h with
      | some level, .closed h => h ≤ level
      | _, _ => false
    if ← Solver.compareLevels k.span .le sort.p r.sort.p then
      if kept then return ()
      if ← Solver.compareLevels k.span .le sort.h r.sort.h then return ()
    refuse { (k.about .sortMismatch t).note
      s!"the type of {f.name} is in {sort.text}" with
      field := some f, expected := r.sort.text }

def recordValue (scope : Scope) (t : Term) (renewed : Option Term)
    (type : Stamped (RecordType Term)) : Check Term := do
  let _ ← self scope type.record none
  let r := type.val
  let missing := k.sig.notImplemented r
  if !missing.isEmpty then
    refuse (missing.foldl (fun e f => e.note s!"{f.name} is not implemented")
      (k.about .fieldCoverage t))
  if let some u := renewed then
    let bare ← newRecordType r.record r.sortArg r.sort r.universes
    let bare ← Core.build (.record bare)
    let _ ← self scope u (some bare)
  return type.record

/-- Brings the clauses of the let expression `t` into scope, each after its definition. -/
def letClauses (t : Term) : Scope → List Var → Check Scope
  | scope, [] => return scope
  | scope, x :: xs => do
    let c ← Core.clause x
    let scope ← match c.type with
      | some type => do
        typeIn self scope type .omega
        let c ← Core.clause x
        let _ ← self scope c.expr (some type)
        pure scope
      | none => do
        let type ← self scope c.expr none
        pure { scope with inferred := (x, type) :: scope.inferred }
    let scope ← k.addVar scope x none t
    letClauses t scope xs

/-- Checks parameters in pairs: both of a pair are elements of the type, and the next pair
of the equality of this one. -/
def levelPairs (proof : Term) : Term → List (Column Term) → Check Unit
  | type, c :: d :: rest => do
    let accepted ← do
      if ← k.compareTypes fuel .eq (← c.typeM) type then
        k.compareTypes fuel .eq (← d.typeM) type
      else pure false
    if !accepted then
      refuse ((k.about .malformedLevelProof proof).note
        ("expected parameters of type " ++ (← type.quote k.sig fuel)))
    let a ← Core.build (.ref c.var)
    let b ← Core.build (.ref d.var)
    let type ← equalityTerm .prop type a b
    levelPairs proof type rest
  | _, _ => return ()

/-- Checks a proof that a type has a bounded homotopy level, and returns that level. The
proof is a function of pairs of elements, of equalities between them, of equalities
between these and so on, to an equality. -/
def levelProof (scope : Scope) (proof type : Term) : Check Int := do
  let proofType ← self scope proof none
  let (columns, codomain) ← piParameters k.sig fuel proofType
  if codomain.asEquality.isNone then
    refuse ((k.about .malformedLevelProof proof).note
      ("expected an equality, got " ++ (← codomain.quote k.sig fuel)))
  if columns.isEmpty || columns.length % 2 ≠ 0 then
    refuse ((k.about .malformedLevelProof proof).note
      s!"expected an even number of parameters, got {columns.length}")
  levelPairs k fuel proof type columns
  return columns.length / 2 - 2

/-- The arguments are checked with the parameters in scope, the match without them. -/
def caseOf (scope : Scope) (t : Term) (c : CaseOf Term) : Check Term := do
  let inner ← paramsIn k self scope c.params .omega
  let σ ← callArgs k fuel self inner t none .identity (Telescope.columns c.params) c.args
  typeIn self inner c.resultType .omega
  if let some proof := c.levelProof then
    let _ ← levelProof k fuel self inner proof c.resultType
  match c.elim with
  | none => refuse (k.about .nonExhaustive t)
  | some e =>
    elim k fuel self scope c.params c.resultType e
    exhaustive k fuel t c.params e
    c.resultType.subst k.sig fuel σ

/-- Infers the type of a term, or checks it against an expected one, the subterms being
left to `self`. -/
def step (scope : Scope) (t : Term) (expected : Option Term) : Check Term := do
  let conclude := conclude k fuel t expected
  match t.node with
  | .ref x => conclude (← variableType k scope t x)
  | .app fn arg => conclude (← application k fuel self scope fn arg)
  | .call f sortArg args => conclude (← call k fuel self scope t f sortArg args)
  | .con c => conclude (← constructor k fuel self scope t c)
  | .data d => conclude (← dataType k fuel self scope t d)
  | .field f sortArg arg =>
    let _ ← self scope arg (some (k.sig.record (k.sig.field f).record).thisType)
    conclude (← fieldTypeAt k.sig fuel f sortArg arg)
  | .record r => conclude (← recordType k fuel self scope t r)
  | .lam sort ps body =>
    let inner ← paramsIn k self scope ps ⟨sort.p, .infinity⟩
    let codomain ← self inner body none
    conclude (← Core.build (.pi sort ps codomain))
  | .pi sort ps codomain =>
    let inner ← paramsIn k self scope ps ⟨sort.p, .infinity⟩
    typeIn self inner codomain sort
    conclude (← Core.build (.univ sort))
  | .sigma s =>
    let _ ← paramsIn k self scope s.params s.sort
    conclude (← Core.build (.univ s.sort))
  | .tuple fields type =>
    let _ ← self scope type.sigma none
    let columns := Telescope.columns type.val.params
    let _ ← callArgs k fuel self scope t none .identity columns fields
    conclude type.sigma
  | .proj u index => conclude (← projection k fuel self scope t u index)
  | .univ sort =>
    if sort.isOmega then refuse (k.about .sortOverflow t)
    conclude (← Core.build (.univ sort.succ))
  | .new renewed type => conclude (← recordValue k self scope t renewed type)
  | .letIn _ xs body =>
    let inner ← letClauses k self t scope xs
    conclude (← self inner body none)
  | .case c => conclude (← caseOf k fuel self scope t c)
  | .ofType u type =>
    typeIn self scope type .omega
    let _ ← self scope u (some type)
    conclude type
  | .int _ => conclude (← natType)
  | .hole false _ => refuse (k.about .unknownError t)
  | .hole true _ =>
    match expected with
    | some type => return type
    | none =>
      refuse ((k.about .unknownError t).note "goal without an expected type")
  | .unknown v =>
    match ← Core.solution? t with
    | some u => self scope u expected
    | none =>
      boundsInScope k scope t v .empty
      conclude (← unknownType v)
  | .delayed u exprs levels =>
    match u.node, ← Core.solution? u with
    | .unknown v, none =>
      let exprs ← Core.mapping exprs
      boundsInScope k scope t v exprs
      conclude (← (← unknownType v).subst k.sig fuel (.of exprs levels))
    | _, _ =>
      let e ← expandDelayed k.sig fuel u exprs levels
      self scope e expected

end Step

/-- Infers the type of a term, or checks it against an expected one, down to a bounded
depth. -/
def term (k : Checker) : Nat → Scope → Term → Option Term → Check Term
  | 0, _, _, _ => throw (.fault .outOfFuel)
  | fuel + 1, scope, t, expected =>
    traced k scope (t.quote k.sig fuel) fun scope =>
      step k fuel (term k fuel) scope t expected

end Typing

end Recheck
