import Recheck.Proofs.Workspace.State
import Recheck.Typing.Declarations

/-!
# Recheck — checking with a workspace

The rules of the checker once more, for a checker that has one context and changes it in
place. They say the same as those of `Typing` and differ in how a scope is left. Functions,
record types, let expressions, clauses and branches leave theirs on every way out
(`Work.enclosed`). Function types, tuple types and case expressions leave theirs only when they
succeed (`Work.released`). Telescopes and patterns leave it to the rule that they belong to.
Whatever a failure leaves in scope is taken out by the operation of the checker that was called.

Whether a variable is in scope is a question to the set of variables, and its type is found on
the stack.
-/

namespace Recheck

namespace Working

section Step

variable (k : Checker) (fuel : Nat) (self : Term → Option Term → Work Term)

/-! ## Building blocks -/

def typeIn (t : Term) (sort : USort) : Work Unit := do
  let u ← Core.build (.univ sort)
  let _ ← self t (some u)

def sortOf (t : Term) : Work USort := do
  let type ← self t none
  let type ← type.whnf k.sig fuel
  match type.node with
  | .univ sort => return sort
  | _ =>
    refuse ((k.about .cannotInferSort t).note ("its type is " ++ (← type.quote k.sig fuel)))

/-- Brings the parameters of a telescope into scope, each after its type. -/
def params (u : Term) : Telescope Term → Work Unit
  | [] => return ()
  | p :: ps => do
    if let some type := p.type then
      let _ ← self type (some u)
    let type ← Telescope.headTypeM (p :: ps)
    Work.add k p.var type type
    params u ps

def paramsIn (ps : Telescope Term) (sort : USort) : Work Unit := do
  let u ← Core.build (.univ sort)
  params k self u ps

def argsFrom (first : Option Term) :
    Substitution → List (Column Term) → List Term → Work Substitution
  | σ, c :: cs, t :: ts => do
    let type ← match first with
      | some type => pure type
      | none => do (← c.typeM).subst k.sig fuel σ
    let _ ← self t (some type)
    argsFrom none (σ.bind c.var t) cs ts
  | σ, _, _ => return σ

def callArgs (t : Term) (first : Option Term) (σ : Substitution)
    (columns : List (Column Term)) (args : List Term) : Work Substitution := do
  if args.length ≠ columns.length then
    refuse ((k.about .typeMismatch t).note
      s!"expected {columns.length} arguments, got {args.length}")
  argsFrom k fuel self first σ columns args

/-! ## Pattern matches -/

section Patterns

mutual

/-- Checks a pattern against a type, and brings its variables into scope. -/
def pattern (type : Term) : Pattern Term → Work Term
  | .bind x declared => do
    let ref ← Core.build (.ref x)
    if !(← k.compareTypes fuel .eq type declared) then
      refuse (k.mismatch ref (← type.print k.sig fuel) declared)
    Work.add k x declared type
    return ref
  | .wild => do
    let x ← Core.freshVar .param "_"
    Work.add k x type type
    Core.build (.ref x)
  | .absurd => do
    let (whnf, d) ← Typing.patternDataType k fuel .absurd type
    let cons ← Typing.admitted k fuel whnf d
    if !cons.isEmpty then
      refuse (cons.foldl (fun e c => e.note s!"{c.1.name} is admitted")
        (k.about .dataTypeNotEmpty whnf))
    Core.build (.hole false none)
  | .con c ps => do
    let p : Pattern Term := .con c ps
    let (whnf, d) ← Typing.patternDataType k fuel p type
    let dataArgs ← Typing.requireAdmitted k fuel whnf d c s!"for pattern {p.text}"
      s!"{c.name} is not admitted, use an absurd pattern"
    let σ : Substitution := .of (k.sig.dataMapping c dataArgs) d.sortArg.instantiation
    let columns := (k.sig.con c).params.columns
    Typing.patternCount k columns.length ps.length
    let (args, _) ← patternRow σ columns ps
    Core.build (.con ⟨c, d.sortArg, dataArgs, args⟩)
  | .tuple ps => do
    let whnf ← type.whnf k.sig fuel
    match whnf.node with
    | .sigma s =>
      let columns := Telescope.columns s.params
      Typing.patternCount k columns.length ps.length
      let (args, _) ← patternRow .identity columns ps
      Core.build (.tuple args ⟨whnf.stamp, s⟩)
    | _ =>
      let p : Pattern Term := .tuple ps
      refuse ((k.mismatch none "a sigma type" whnf).note s!"for pattern {p.text}")
  | .record fields ps => do
    let p : Pattern Term := .record fields ps
    let whnf ← type.whnf k.sig fuel
    match whnf.node with
    | .record r =>
      Typing.patternFields k p whnf r fields
      let columns := (← fieldParams k.sig fuel ⟨whnf.stamp, r⟩).columns
      Typing.patternCount k columns.length ps.length
      let (args, _) ← patternRow .identity columns ps
      makeRecord k.sig fuel r args
    | _ => refuse ((k.mismatch none "a class call" whnf).note s!"for pattern {p.text}")

def patternRow (σ : Substitution) :
    List (Column Term) → List (Pattern Term) → Work (List Term × Substitution)
  | c :: cs, p :: ps => do
    let type ← (← c.typeM).subst k.sig fuel σ
    let t ← pattern type p
    let (ts, σ) ← patternRow (σ.bind c.var t) cs ps
    return (t :: ts, σ)
  | _, _ => return ([], σ)

end

def patterns (σ : Substitution) (columns : List (Column Term)) (ps : List (Pattern Term)) :
    Work (List Term × Substitution) := do
  Typing.patternCount k columns.length ps.length
  patternRow k fuel σ columns ps

end Patterns

def clause (params : Telescope Term) (resultType : Term) (c : Clause Term) : Work Unit :=
  Work.item k (return "clause " ++ Pattern.rowText c.patterns) <| Work.enclosed do
    let (_, σ) ← patterns k fuel .identity params.columns c.patterns
    match c.body with
    | none =>
      if !Pattern.anyAbsurd c.patterns then
        refuse ((k.about .missingBody none).note ("clause " ++ Pattern.rowText c.patterns))
    | some body =>
      let type ← resultType.subst k.sig fuel σ
      let _ ← self body (some type)

/-- Binds the parameters of a node to the first columns. -/
def nodeParams (m : Mapping Term) :
    Telescope Term → List (Column Term) → Work (Mapping Term × List (Column Term))
  | [], columns => return (m, columns)
  | p :: _, [] =>
    refuse ((k.about .tooManyPatterns none).note s!"no argument for {p.var.name}")
  | p :: ps, c :: columns => do
    let type ← (← c.typeM).subst k.sig fuel (.ofMapping m)
    let declared ← Telescope.headTypeM (p :: ps)
    let ref ← Core.build (.ref p.var)
    if !(← k.compareTypes fuel .eq type declared) then
      refuse (k.mismatch ref (← type.print k.sig fuel) declared)
    Work.add k p.var declared type
    let m ← m.compose k.sig fuel (.single c.var ref)
    nodeParams m ps columns

mutual

/-- Checks a decision tree. The parameters of its nodes stay in scope. -/
def tree (m : Mapping Term) (resultType : Term) (columns : List (Column Term)) :
    Tree Term → Work Unit
  | .leaf ps body => do
    let (m, columns) ← nodeParams k fuel m ps columns
    if !columns.isEmpty then
      refuse ((k.about .tooFewPatterns none).note
        s!"{columns.length} arguments are not bound by the leaf")
    let type ← resultType.subst k.sig fuel (.ofMapping m)
    let _ ← self body (some type)
  | .branch ps children => do
    let (m, columns) ← nodeParams k fuel m ps columns
    match columns with
    | [] => refuse ((k.about .tooManyPatterns none).note "no argument to branch on")
    | c :: columns =>
      let type ← (← c.typeM).subst k.sig fuel (.ofMapping m)
      let type ← type.whnf k.sig fuel
      branches m resultType type c.var columns children
      Typing.branchCoverage k fuel type (children.map Prod.fst)

def branches (m : Mapping Term) (resultType type : Term) (x : Var)
    (columns : List (Column Term)) : List (BranchKey × Tree Term) → Work Unit
  | [] => return ()
  | (key, t) :: rest => do
    Work.item k (return "branch " ++ key.text) <| Work.enclosed do
      let (value, params) ← Typing.branchKey k fuel type key
      tree (m.insert (.local x) value) resultType (params.columns ++ columns) t
    branches m resultType type x columns rest

end

def elim (params : Telescope Term) (resultType : Term) (e : Elim Term) : Work Unit := do
  e.clauses.forM (clause k fuel self params resultType)
  match e.tree with
  | none => return ()
  | some t => Work.enclosed (tree k fuel self .empty resultType params.columns t)

/-! ## The rules -/

def variableType (t : Term) (x : Var) : Work Term := do
  let w ← Work.space
  if x ∉ w.bound then refuse (k.about .unbound t)
  match ← w.scope.typeOf x with
  | some type => return type
  | none => refuse ((k.about .unbound t).note s!"{x.name} has no type")

def boundsInScope (t : Term) (v : Var) (exprs : Mapping Term) : Work Unit := do
  let w ← Work.space
  let u ← Core.unknown v
  let missing := u.bounds.filter fun x => !exprs.contains (.local x) && x ∉ w.bound
  if !missing.isEmpty then
    let names := (missing.map Var.name).mergeSort fun a b => a ≤ b
    let names := ", ".intercalate names
    refuse ((k.about .unbound t).note
      s!"{v.name} depends on {names}, which is not bound")

def application (fn arg : Term) : Work Term := do
  let type ← self fn none
  let type ← type.whnf k.sig fuel
  match type.node with
  | .pi sort ps codomain =>
    let domain ← Telescope.headTypeM ps
    let _ ← self arg (some domain)
    instantiatePi k.sig fuel sort ps codomain [arg]
  | _ => refuse (k.mismatch fn "a pi type" type)

def call (t : Term) (f : FuncName) (sortArg : USort) (args : List Term) : Work Term := do
  let decl := k.sig.func f
  let first ← Typing.propEqualityDomain f sortArg
  let σ ← callArgs k fuel self t first (.of .empty sortArg.instantiation)
    decl.params.columns args
  decl.resultType.subst k.sig fuel σ

def constructor (t : Term) (c : ConApp Term) : Work Term := do
  let σ ← callArgs k fuel self t none (.of .empty c.sortArg.instantiation)
    (k.sig.dataColumns c.con) c.dataArgs
  let _ ← callArgs k fuel self t none σ (k.sig.con c.con).params.columns c.args
  let d ← c.dataType k.sig fuel
  Core.build (.data d)

def dataType (t : Term) (d : DataType Term) : Work Term := do
  let decl := k.sig.data d.data
  let levels := d.sortArg.instantiation
  let _ ← callArgs k fuel self t none (.of .empty levels) decl.params.columns d.args
  Core.build (.univ (decl.sort.subst levels))

def projection (t u : Term) (index : Int64) : Work Term := do
  let type ← self u none
  let type ← type.whnf k.sig fuel
  match type.node with
  | .sigma s =>
    let columns := Telescope.columns s.params
    if index.toInt ≥ columns.length then
      let words := s!"a sigma type with at least {index + 1} fields"
      refuse (k.mismatch t words type)
    let before := columns.take index.toNatClampNeg
    let projs ← (List.range before.length).mapM fun i => makeProj u (.ofNat i)
    let m := Mapping.empty.insertVars (before.map Column.var) projs
    match columns.drop before.length with
    | [] => throw (.fault .malformed)
    | c :: _ => (← c.typeM).subst k.sig fuel (.ofMapping m)
  | _ => refuse (k.mismatch u "a sigma type" type)

def openField (t : Term) (r : RecordType Term) (this : Term) (promised : Option Int64)
    (f : FieldName) : Work Unit := do
  let type ← fieldTypeAt k.sig fuel f r.sortArg this
  let sort ← sortOf k fuel self type
  if sort.isProp then return ()
  let kept : Bool := match promised, sort.h with
    | some level, .closed h => h ≤ level
    | _, _ => false
  if ← Solver.compareLevels k.span .le sort.p r.sort.p then
    if kept then return ()
    if ← Solver.compareLevels k.span .le sort.h r.sort.h then return ()
  refuse { (k.about .sortMismatch t).note
    s!"the type of {f.name} is in {sort.text}" with
    field := some f, expected := r.sort.text }

def recordType (t : Term) (r : RecordType Term) : Work Term := Work.enclosed do
  let decl := k.sig.record r.record
  Work.add k r.this t t
  if let some (f, _) := r.impls.find? fun e => (k.sig.field e.1).record ≠ r.record then
    refuse ((k.about .typeMismatch t).note
      s!"{f.name} is not a field of {r.record.name}")
  let this ← Core.build (.ref r.this)
  for f in k.sig.implemented r do
    if let some impl := r.impl? f then
      let type ← fieldTypeAt k.sig fuel f r.sortArg this
      let _ ← self impl (some type)
  let promised := k.sig.useLevel r.record r.isImplemented
  if promised ≠ some USort.propLevel then
    for f in k.sig.notImplemented r do
      openField k fuel self t r this promised f
  if r.universes < decl.universes then
    let exceeds (f : FieldName) : Bool :=
      r.universes < (k.sig.field f).universes && !r.isImplemented f
    if let some f := decl.fields.find? exceeds then
      let kind := (k.sig.field f).universes.text
      refuse { (k.about .universeKind t).note
        s!"{f.name} has {kind}, but the class call has {r.universes.text}" with
        field := some f }
  Core.build (.univ r.sort)

def recordValue (t : Term) (renewed : Option Term) (type : Stamped (RecordType Term)) :
    Work Term := do
  let _ ← self type.record none
  let r := type.val
  let missing := k.sig.notImplemented r
  if !missing.isEmpty then
    refuse (missing.foldl (fun e f => e.note s!"{f.name} is not implemented")
      (k.about .fieldCoverage t))
  if let some u := renewed then
    let bare ← newRecordType r.record r.sortArg r.sort r.universes
    let bare ← Core.build (.record bare)
    let _ ← self u (some bare)
  return type.record

/-- Brings the clauses of the let expression `t` into scope, each after its definition, and infers
the type of its body. The type that is inferred for a clause is forgotten on every way out. -/
def letClauses (t body : Term) : List Var → Work Term
  | [] => self body none
  | x :: xs => do
    let c ← Core.clause x
    match c.type with
    | some type =>
      typeIn self type .omega
      let c ← Core.clause x
      let _ ← self c.expr (some type)
      Work.add k x none t
      letClauses t body xs
    | none =>
      let type ← self c.expr none
      Work.change (.note x type)
      Work.deferring (Ledger.change (.forget x)) do
        Work.add k x none t
        letClauses t body xs

def levelProof (proof type : Term) : Work Int := do
  let proofType ← self proof none
  let (columns, codomain) ← piParameters k.sig fuel proofType
  if codomain.asEquality.isNone then
    refuse ((k.about .malformedLevelProof proof).note
      ("expected an equality, got " ++ (← codomain.quote k.sig fuel)))
  if columns.isEmpty || columns.length % 2 ≠ 0 then
    refuse ((k.about .malformedLevelProof proof).note
      s!"expected an even number of parameters, got {columns.length}")
  Typing.levelPairs k fuel proof type columns
  return columns.length / 2 - 2

/-- The parameters are out of scope again when the match is checked. -/
def caseOf (t : Term) (c : CaseOf Term) : Work Term := do
  let σ ← Work.released do
    paramsIn k self c.params .omega
    let σ ← callArgs k fuel self t none .identity (Telescope.columns c.params) c.args
    typeIn self c.resultType .omega
    if let some proof := c.levelProof then
      let _ ← levelProof k fuel self proof c.resultType
    return σ
  match c.elim with
  | none => refuse (k.about .nonExhaustive t)
  | some e =>
    elim k fuel self c.params c.resultType e
    Typing.exhaustive k fuel t c.params e
    c.resultType.subst k.sig fuel σ

def step (t : Term) (expected : Option Term) : Work Term := do
  let conclude := Typing.conclude k fuel t expected
  match t.node with
  | .ref x => conclude (← variableType k t x)
  | .app fn arg => conclude (← application k fuel self fn arg)
  | .call f sortArg args => conclude (← call k fuel self t f sortArg args)
  | .con c => conclude (← constructor k fuel self t c)
  | .data d => conclude (← dataType k fuel self t d)
  | .field f sortArg arg =>
    let _ ← self arg (some (k.sig.record (k.sig.field f).record).thisType)
    conclude (← fieldTypeAt k.sig fuel f sortArg arg)
  | .record r => conclude (← recordType k fuel self t r)
  | .lam sort ps body =>
    let type ← Work.enclosed do
      paramsIn k self ps ⟨sort.p, .infinity⟩
      let codomain ← self body none
      Core.build (.pi sort ps codomain)
    conclude type
  | .pi sort ps codomain =>
    Work.released do
      paramsIn k self ps ⟨sort.p, .infinity⟩
      typeIn self codomain sort
    conclude (← Core.build (.univ sort))
  | .sigma s =>
    Work.released (paramsIn k self s.params s.sort)
    conclude (← Core.build (.univ s.sort))
  | .tuple fields type =>
    let _ ← self type.sigma none
    let columns := Telescope.columns type.val.params
    let _ ← callArgs k fuel self t none .identity columns fields
    conclude type.sigma
  | .proj u index => conclude (← projection k fuel self t u index)
  | .univ sort =>
    if sort.isOmega then refuse (k.about .sortOverflow t)
    conclude (← Core.build (.univ sort.succ))
  | .new renewed type => conclude (← recordValue k self t renewed type)
  | .letIn _ xs body => conclude (← Work.enclosed (letClauses k self t body xs))
  | .case c => conclude (← caseOf k fuel self t c)
  | .ofType u type =>
    typeIn self type .omega
    let _ ← self u (some type)
    conclude type
  | .int _ => conclude (← natType)
  | .hole false _ => refuse (k.about .unknownError t)
  | .hole true _ =>
    match expected with
    | some type => return type
    | none =>
      refuse ((k.about .unknownError t).note "goal without an expected type")
  | .unknown v =>
    match ← Core.solution? t with
    | some u => self u expected
    | none =>
      boundsInScope k t v .empty
      conclude (← Typing.unknownType v)
  | .delayed u exprs levels =>
    match u.node, ← Core.solution? u with
    | .unknown v, none =>
      let exprs ← Core.mapping exprs
      boundsInScope k t v exprs
      conclude (← (← Typing.unknownType v).subst k.sig fuel (.of exprs levels))
    | _, _ =>
      let e ← expandDelayed k.sig fuel u exprs levels
      self e expected

end Step

/-- Infers the type of a term, or checks it against an expected one, down to a bounded depth. -/
def term (k : Checker) : Nat → Term → Option Term → Work Term
  | 0, _, _ => throw (.fault .outOfFuel)
  | fuel + 1, t, expected =>
    Work.item k (t.quote k.sig fuel) (step k fuel (term k fuel) t expected)

/-! ## Declarations -/

section Declarations

variable (k : Checker) (fuel : Nat)

/-- Checks a constructor, from the mark that the data type began at. -/
def constructorDecl (mark : Nat) (d : DataName) (c : ConName) : Work Unit := do
  let decl := k.sig.data d
  let con := k.sig.con c
  if con.data ≠ d then
    refuse ((k.about .expectedConstructor none).note
      s!"{c.name} is not a constructor of {d.name}")
  Work.release mark
  match con.patterns with
  | none => paramsIn k (term k fuel) decl.params .omega
  | some ps =>
    let _ ← patterns k fuel .identity decl.params.columns ps
  paramsIn k (term k fuel) con.params decl.sort

/-- Checks a data type. The parameters of the last constructor stay in scope. -/
def dataDecl (mark : Nat) (d : DataName) : Work Unit :=
  Work.item k (return "data " ++ d.name) do
    let decl := k.sig.data d
    paramsIn k (term k fuel) decl.params .omega
    decl.constructors.forM (constructorDecl k fuel mark d)

def endpoint (resultType : Term) : Option Term → Work Unit
  | none => return ()
  | some t => do
    let _ ← term k fuel t (some resultType)

/-- Checks a function. The parameters are taken out of scope before a match. -/
def funcDecl (mark : Nat) (f : FuncName) : Work Unit :=
  Work.item k (return "function " ++ f.name) do
    let decl := k.sig.func f
    paramsIn k (term k fuel) decl.params .omega
    typeIn (term k fuel) decl.resultType .omega
    match decl.body with
    | none => return ()
    | some (.expr t) =>
      let _ ← term k fuel t (some decl.resultType)
    | some (.elim e) =>
      Work.release mark
      elim k fuel (term k fuel) decl.params decl.resultType e
      Typing.exhaustive k fuel none decl.params e
    | some (.interval _ ends otherwise) =>
      for (left, right) in ends do
        endpoint k fuel decl.resultType left
        endpoint k fuel decl.resultType right
      if let some e := otherwise then
        Work.release mark
        elim k fuel (term k fuel) decl.params decl.resultType e

end Declarations

end Working

/-- What a checker can be called for. -/
inductive Task where
  | check (t : Term) (expected : Option Term)
  | checkType (t : Term)
  | checkData (d : DataName)
  | checkFunc (f : FuncName)

/-- What a task comes to if it succeeds. -/
inductive Verdict where
  | type (t : Term)
  | sort (s : USort)
  | accepted

namespace Task

variable (k : Checker) (fuel : Nat)

/-- The task as an operation of the checker on a context. -/
def answer (Γ : Context) : Task → Check Verdict
  | .check t expected => return .type (← k.check fuel Γ t expected)
  | .checkType t => return .sort (← k.checkType fuel Γ t)
  | .checkData d => do
    k.checkData fuel Γ d
    return .accepted
  | .checkFunc f => do
    k.checkFunc fuel Γ f
    return .accepted

end Task

end Recheck
