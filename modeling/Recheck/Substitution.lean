import Recheck.Store

/-!
# Recheck — substitution

A `Substitution` replaces variables by terms and level variables by levels, all at once.
Binders are copied: going under one extends the substitution by a reference to the copy,
so nothing is captured. Nodes are rebuilt by smart constructors, which contract the
redexes that come about: `makeApp`, `makeProj` and `makeField`.

Beyond the tree of a term, a substitution reaches

* the solution of an occurrence of an unknown, which takes the place of the occurrence;
* the definition of a let clause that is referred to from outside of its let
  expression. It is updated in place, once in each traversal;
* an unsolved unknown. If it is `delaying`, the part of the substitution that concerns
  its bounds waits in a `delayed` node; otherwise the replaced variables are struck from
  its bounds.

A substitution can be made of a shared mapping. Then it is that mapping which going under
a binder extends, for all that refer to it. What the variable of the binder was mapped to is
put in a log, and when the scope of the binder is left the log is undone, down to where it
was when the scope was entered.

Contraction may substitute again, so the recursion is not on the term. Every function
is written against the recursive call `self`, and `traverse` ties the knot with a bound
on the depth.
-/

namespace Recheck

section

variable {T : Type} (m : Mapping T) {v w : Variable} (t : T)

theorem Mapping.get?_insert_self (v : Variable) : (m.insert v t).get? v = some t := by
  obtain ⟨entries⟩ := m
  show (place v t entries).lookup v = some t
  induction entries with
  | nil => simp [place]
  | cons e es ih =>
    unfold place
    split
    · simp
    next he =>
      have hne : (v == e.1) = false := by simpa using Ne.symm he
      rw [List.lookup_cons, hne]
      exact ih

theorem Mapping.get?_insert_of_ne (h : w ≠ v) : (m.insert v t).get? w = m.get? w := by
  have hne : (w == v) = false := by simpa using h
  obtain ⟨entries⟩ := m
  show (place v t entries).lookup w = entries.lookup w
  induction entries with
  | nil => simp [place, List.lookup_cons, hne]
  | cons e es ih =>
    unfold place
    split
    next he => rw [List.lookup_cons, List.lookup_cons, he, hne]
    next => rw [List.lookup_cons, List.lookup_cons, ih]

end

/-- What is replaced: variables by terms and level variables by levels. -/
structure Substitution where
  exprs : Mapping Term
  levels : LevelSubst
  /-- The number of the shared mapping that `exprs` are the entries of, if they are. -/
  shared : Option Nat

namespace Substitution

/-- Replaces variables and level variables, by a mapping that is not shared. -/
def of (exprs : Mapping Term) (levels : LevelSubst) : Substitution := ⟨exprs, levels, none⟩

/-- Replaces nothing. -/
def identity : Substitution := of .empty .empty

def isIdentity (σ : Substitution) : Bool := σ.exprs.isEmpty && σ.levels.isEmpty

/-- Replaces variables only. -/
def ofMapping (m : Mapping Term) : Substitution := of m .empty

/-- Replaces a single variable. -/
def single (x : Var) (t : Term) : Substitution := ofMapping (.single (.local x) t)

/-- Replaces one more variable. -/
def bind (σ : Substitution) (x : Var) (t : Term) : Substitution :=
  { σ with exprs := σ.exprs.insert (.local x) t }

/-- The mapping that a substitution is made of. -/
def mappingRef (σ : Substitution) : MappingRef Term :=
  match σ.shared with
  | none => .own σ.exprs
  | some number => .shared number

/-- Changes the mapping that a substitution is made of, if it is shared. -/
def onShared (σ : Substitution) (f : Shared → Shared) (s : Store) : Store :=
  match σ.shared with
  | none => s
  | some number => s.updateMapping number f

/-- How far the log of the mapping goes that a substitution is made of. -/
def mark (σ : Substitution) (s : Store) : Nat :=
  match σ.shared with
  | none => 0
  | some number => ((s.mappings.get? number).map Shared.mark).getD 0

/-- The substitution made of a mapping as it is now. -/
def ofRef (r : MappingRef Term) (levels : LevelSubst) : Core Substitution := do
  let exprs ← Core.mapping r
  match r with
  | .own _ => return ⟨exprs, levels, none⟩
  | .shared number => return ⟨exprs, levels, some number⟩

end Substitution

/-- A traversal remembers the let clauses that it has updated. -/
abbrev Traversal := StateT (List Var) Core

namespace Traversal

/-- Runs a traversal from its start. -/
def start {A : Type} (x : Traversal A) : Core A := x.run' []

/-- Goes under a binder. -/
def enter (σ : Substitution) (x : Var) (t : Term) : Core Substitution := do
  modify (σ.onShared fun m => m.bind (.local x) t)
  return σ.bind x t

/-- Runs what goes under binders. When their scope is left, also by a fault, the log is undone
down to where it was. -/
def inScope {A : Type} (σ : Substitution) (x : Traversal A) : Traversal A := fun done s =>
  match x done s with
  | .ok a s' => .ok a (σ.onShared (Shared.release (σ.mark s)) s')
  | .error e s' => .error e (σ.onShared (Shared.release (σ.mark s)) s')

end Traversal

/-- The component of a tuple at an index. There is none behind the last one, and nothing
sensible in front of the first. -/
def componentAt (fields : List Term) (index : Int64) : Core (Option Term) :=
  if index < 0 then throw (.negativeIndex index) else return fields[index.toNatClampNeg]?

/-- The projection of a tuple component; that of a tuple is the component itself. -/
def makeProj (t : Term) (index : Int64) : Core Term := do
  match t.node with
  | .tuple fields _ =>
    match ← componentAt fields index with
    | some u => return u
    | none => Core.build (.proj t index)
  | _ => Core.build (.proj t index)

/-- A function, which is its body if there are no parameters. -/
def makeLam (sort : USort) (params : Telescope Term) (body : Term) : Core Term :=
  if params.isEmpty then return body else Core.build (.lam sort params body)

/-- A function type, which is its codomain if there are no parameters. -/
def makePi (sort : USort) (params : Telescope Term) (codomain : Term) : Core Term :=
  if params.isEmpty then return codomain else Core.build (.pi sort params codomain)

/-- A new record type without implementations. -/
def newRecordType (r : RecordName) (sortArg sort : USort) (universes : UniverseKind) :
    Core (RecordType Term) :=
  return ⟨r, sortArg, [], sort, universes, ← Core.freshVar .given "this"⟩

/-! ## One step of a traversal -/

namespace Traversal

section Step

variable (sig : Signature) (self : Substitution → Term → Traversal Term)

/-- Substitutes into a term in a traversal of its own. -/
def applyFrom (σ : Substitution) (t : Term) : Core Term :=
  if σ.isIdentity then return t else start (self σ t)

/-- Copies a telescope, and extends the substitution by its parameters. -/
def params (σ : Substitution) :
    Telescope Term → Traversal (Telescope Term × Substitution)
  | [] => return ([], σ)
  | p :: ps => do
    let type ← p.type.mapM (self σ)
    let x ← Core.freshVar .param p.var.name
    let ref ← Core.build (.ref x)
    let σ ← enter σ p.var ref
    let (ps, σ) ← params σ ps
    return (⟨x, type, p.explicit⟩ :: ps, σ)

/-- Puts an argument in place of the first parameter of a function. -/
def beta (sort : USort) (body arg : Term) : Telescope Term → Core Term
  | [] => throw .malformed
  | [p] => applyFrom self (.single p.var arg) body
  | p :: ps => start do
    let (ps, σ) ← params self (.single p.var arg) ps
    Core.build (.lam sort ps (← self σ body))

/-- Applies a term to arguments one after the other, contracting functions. -/
def makeAppFrom (fn : Term) : List Term → Core Term
  | [] => return fn
  | arg :: args => do
    let fn ← match fn.node with
      | .lam sort ps body => beta self sort body arg ps
      | _ => Core.build (.app fn arg)
    makeAppFrom fn args

/-- The implementation of a field on an instance. -/
def implementationFrom (r : RecordType Term) (f : FieldName) (this : Term) :
    Core (Option Term) :=
  (r.impl? f).mapM fun impl => applyFrom self (.single r.this this) impl

/-- The projection of a field; that of a record value is the implementation. -/
def makeFieldFrom (f : FieldName) (sortArg : USort) (arg : Term) : Core Term := do
  match arg.node with
  | .new _ r =>
    match ← implementationFrom self r.val f arg with
    | some impl => return impl
    | none => Core.build (.field f sortArg arg)
  | _ => Core.build (.field f sortArg arg)

/-- The mapping that acts like `m` and then like `σ`. -/
def composeFrom (m : Mapping Term) (σ : Substitution) : Core (Mapping Term) := do
  if m.isEmpty then return σ.exprs
  else if σ.isIdentity then return m
  else
    let entries ← m.entries.mapM fun e => return (e.1, ← applyFrom self σ e.2)
    return ⟨entries ++ σ.exprs.entries.filter fun e => !m.contains e.1⟩

/-- Updates the definition of a let clause, unless this traversal already did. -/
def updateClause (σ : Substitution) (x : Var) : Traversal Unit := do
  if x ∉ (← get) then
    modify (x :: ·)
    let c ← Core.clause x
    let expr ← self σ c.expr
    Core.setClause x { c with expr }

/-- Copies the clauses of a let expression, and extends the substitution by them. -/
def clauses (σ : Substitution) : List Var → Traversal (List Var × Substitution)
  | [] => return ([], σ)
  | x :: xs => do
    let c ← Core.clause x
    let expr ← self σ c.expr
    let type ← c.type.mapM (self σ)
    let y ← Core.newClause x.name expr type
    let ref ← Core.build (.ref y)
    let σ ← enter σ x ref
    let (ys, σ) ← clauses σ xs
    return (y :: ys, σ)

/-- Copies a record type with its instance. -/
def recordType (σ : Substitution) (r : RecordType Term) : Traversal (RecordType Term) := do
  let copy ← newRecordType r.record (r.sortArg.subst σ.levels) (r.sort.subst σ.levels)
    r.universes
  if r.impls.isEmpty then return copy
  let ref ← Core.build (.ref copy.this)
  let impls ← inScope σ do
    let σ ← enter σ r.this ref
    (sig.implemented r).filterMapM fun f =>
      (r.impl? f).mapM fun impl => return (f, ← self σ impl)
  return { copy with impls }

/-- An occurrence of an unknown. -/
def unknown (σ : Substitution) (t : Term) (v : Var) : Traversal Term := do
  match ← Core.solution? t with
  | some u => self σ u
  | none =>
  match σ.exprs.get? (.local v) with
  | some u => return u
  | none =>
    let u ← Core.unknown v
    if u.delaying then
      let relevant := σ.exprs.restrict fun k => k.var?.any (· ∈ u.bounds)
      if relevant.isEmpty && σ.levels.isEmpty then return t
      Core.build (.delayed t (.own relevant) σ.levels)
    else
      Core.removeBounds v (σ.exprs.entries.filterMap fun e => e.1.var?)
      return t

mutual

/-- Copies a pattern, and extends the substitution by its variables. -/
def pattern (σ : Substitution) :
    Pattern Term → Traversal (Pattern Term × Substitution)
  | .bind x type => do
    let type ← self σ type
    let y ← Core.freshVar .param x.name
    let ref ← Core.build (.ref y)
    return (.bind y type, ← enter σ x ref)
  | .wild => return (.wild, σ)
  | .absurd => return (.absurd, σ)
  | .con c args => do
    let (args, σ) ← patterns σ args
    return (.con c args, σ)
  | .tuple args => do
    let (args, σ) ← patterns σ args
    return (.tuple args, σ)
  | .record fields args => do
    let (args, σ) ← patterns σ args
    return (.record fields args, σ)

/-- Copies patterns from left to right. -/
def patterns (σ : Substitution) :
    List (Pattern Term) → Traversal (List (Pattern Term) × Substitution)
  | [] => return ([], σ)
  | p :: ps => do
    let (p, σ) ← pattern σ p
    let (ps, σ) ← patterns σ ps
    return (p :: ps, σ)

end

/-- Copies a clause of a pattern match. -/
def clause (σ : Substitution) (c : Clause Term) : Traversal (Clause Term) := inScope σ do
  let (ps, σ) ← patterns self σ c.patterns
  return ⟨ps, ← c.body.mapM (self σ)⟩

/-- Substitutes into the sort that a branch mentions. -/
def branchKey (σ : Substitution) : BranchKey → BranchKey
  | .record r sort implemented => .record r (sort.subst σ.levels) implemented
  | key => key

mutual

/-- Copies a decision tree. -/
def tree (σ : Substitution) : Tree Term → Traversal (Tree Term)
  | .leaf ps body => inScope σ do
    let (ps, σ) ← params self σ ps
    return .leaf ps (← self σ body)
  | .branch ps children => inScope σ do
    let (ps, σ) ← params self σ ps
    return .branch ps (← branches σ children)

/-- Copies the children of a branch. -/
def branches (σ : Substitution) :
    List (BranchKey × Tree Term) → Traversal (List (BranchKey × Tree Term))
  | [] => return []
  | (key, t) :: rest => do
    let t ← tree σ t
    return (branchKey σ key, t) :: (← branches σ rest)

end

/-- Copies a pattern match. -/
def elim (σ : Substitution) (e : Elim Term) : Traversal (Elim Term) := do
  let clauses ← e.clauses.mapM (clause self σ)
  let tree ← e.tree.mapM (tree self σ)
  return ⟨← Core.fresh, clauses, tree⟩

/-- Copies a case expression. The arguments and the match are outside of the scope of the
parameters. This is the one scope that is not left by a fault. -/
def caseOf (σ : Substitution) (c : CaseOf Term) : Traversal (CaseOf Term) := do
  let args ← c.args.mapM (self σ)
  let mark := σ.mark (← (get : Core Store))
  let (params, inner) ← params self σ c.params
  let resultType ← self inner c.resultType
  let levelProof ← c.levelProof.mapM (self inner)
  (modify (σ.onShared (Shared.release mark)) : Core Unit)
  let elim ← c.elim.mapM (elim self σ)
  return { c with params, resultType, levelProof, elim, args }

/-- Substitutes into a term, the subterms being left to `self`. Nodes that nothing can
change are handed back as they are. -/
def step (σ : Substitution) (t : Term) : Traversal Term := do
  match t.node with
  | .ref x =>
    match σ.exprs.get? (.local x) with
    | some u => return u
    | none =>
      if x.kind = .clause then updateClause self σ x
      return t
  | .app fn arg => do
    let fn ← self σ fn
    let arg ← self σ arg
    makeAppFrom self fn [arg]
  | .call f sortArg args => do
    let args ← args.mapM (self σ)
    Core.build (.call f (sortArg.subst σ.levels) args)
  | .con c => do
    let dataArgs ← c.dataArgs.mapM (self σ)
    let args ← c.args.mapM (self σ)
    Core.build (.con ⟨c.con, c.sortArg.subst σ.levels, dataArgs, args⟩)
  | .data d => do
    let args ← d.args.mapM (self σ)
    Core.build (.data ⟨d.data, d.sortArg.subst σ.levels, args⟩)
  | .field f sortArg arg =>
    match σ.exprs.get? (.field f) with
    | some u => do
      let arg ← self σ arg
      makeAppFrom self u [arg]
    | none => do
      let arg ← self σ arg
      makeFieldFrom self f (sortArg.subst σ.levels) arg
  | .record r => do
    let r ← recordType sig self σ r
    Core.build (.record r)
  | .lam sort ps body => inScope σ do
    let (ps, σ) ← params self σ ps
    let body ← self σ body
    Core.build (.lam (sort.subst σ.levels) ps body)
  | .pi sort ps codomain => inScope σ do
    let (ps, σ) ← params self σ ps
    let codomain ← self σ codomain
    Core.build (.pi (sort.subst σ.levels) ps codomain)
  | .sigma s => inScope σ do
    let (ps, σ) ← params self σ s.params
    Core.build (.sigma ⟨s.sort.subst σ.levels, ps⟩)
  | .tuple fields type => do
    let fields ← fields.mapM (self σ)
    let (ps, _) ← inScope σ (params self σ type.val.params)
    Core.build (.tuple fields ⟨← Core.fresh, type.val.sort.subst σ.levels, ps⟩)
  | .proj u index => do
    let u ← self σ u
    makeProj u index
  | .univ sort =>
    if σ.levels.isEmpty then return t else Core.build (.univ (sort.subst σ.levels))
  | .new renewed type => do
    let r ← recordType sig self σ type.val
    let renewed ← renewed.mapM (self σ)
    Core.build (.new renewed ⟨← Core.fresh, r⟩)
  | .letIn strict xs body => inScope σ do
    let (ys, σ) ← clauses self σ xs
    let body ← self σ body
    Core.build (.letIn strict ys body)
  | .case c => do
    let c ← caseOf self σ c
    Core.build (.case c)
  | .ofType u type => do
    let u ← self σ u
    let type ← self σ type
    Core.build (.ofType u type)
  | .int _ => return t
  | .hole goal part =>
    match part with
    | none => return t
    | some u => do
      let u ← self σ u
      Core.build (.hole goal (some u))
  | .unknown v => unknown self σ t v
  | .delayed u exprs levels => do
    let exprs ← composeFrom self (← Core.mapping exprs) σ
    applyFrom self (.of exprs (levels.compose σ.levels)) u

end Step

/-- Substitutes into a term down to a bounded depth. -/
def traverse (sig : Signature) : Nat → Substitution → Term → Traversal Term
  | 0, _, _ => throw Fault.outOfFuel
  | fuel + 1, σ, t => step sig (traverse sig fuel) σ t

end Traversal

/-! ## The operations -/

section Operations

variable (sig : Signature) (fuel : Nat)

/-- The term with the free occurrences of variables replaced. -/
def Term.subst (t : Term) (σ : Substitution) : Core Term :=
  Traversal.applyFrom (Traversal.traverse sig fuel) σ t

/-- A copy of a telescope, together with the substitution extended by references to the
copies of its parameters, for use in the scope of the telescope. A shared mapping stays
extended. -/
def Telescope.subst (ps : Telescope Term) (σ : Substitution) :
    Core (Telescope Term × Substitution) := do
  let mark := σ.mark (← get)
  let r ← Traversal.start (Traversal.params (Traversal.traverse sig fuel) σ ps)
  modify (σ.onShared (Shared.commit mark))
  return r

/-- The mapping that acts like `m` and then like `σ`: each value of `m` is substituted
into, and the variables that only `σ` maps keep their values. -/
def Mapping.compose (m : Mapping Term) (σ : Substitution) : Core (Mapping Term) :=
  Traversal.composeFrom (Traversal.traverse sig fuel) m σ

/-- A term applied to arguments, functions being contracted. -/
def makeApp (fn : Term) (args : List Term) : Core Term :=
  Traversal.makeAppFrom (Traversal.traverse sig fuel) fn args

/-- The projection of a field, record values being contracted. -/
def makeField (f : FieldName) (sortArg : USort) (arg : Term) : Core Term :=
  Traversal.makeFieldFrom (Traversal.traverse sig fuel) f sortArg arg

/-- The implementation of a field on an instance, if there is one. -/
def RecordType.implementation (r : RecordType Term) (f : FieldName) (this : Term) :
    Core (Option Term) :=
  Traversal.implementationFrom (Traversal.traverse sig fuel) r f this

/-- A term under a delayed substitution. Nothing is delayed by the identity, and two
delayed substitutions become one. -/
def makeDelayed (t : Term) (σ : Substitution) : Core Term := do
  if σ.isIdentity then return t
  match t.node with
  | .delayed u exprs levels =>
    let exprs ← (← Core.mapping exprs).compose sig fuel σ
    Core.build (.delayed u (.own exprs) (levels.compose σ.levels))
  | _ => Core.build (.delayed t σ.mappingRef σ.levels)

/-- What a delayed substitution comes to, which is the unknown itself as long as it is
unsolved. Its mapping takes part as it is now, and is not extended on the way. -/
def expandDelayed (t : Term) (exprs : MappingRef Term) (levels : LevelSubst) :
    Core Term := do
  match t.node, ← Core.solution? t with
  | .unknown _, none => return t
  | _, _ => t.subst sig fuel (.of (← Core.mapping exprs) levels)

/-- The term that `t` stands for, seen through solved unknowns and delayed
substitutions. -/
def Term.underlying : Nat → Term → Core Term
  | 0, _ => throw .outOfFuel
  | fuel + 1, t => do
    match t.node with
    | .unknown _ =>
      match ← Core.solution? t with
      | none => return t
      | some u => u.underlying fuel
    | .delayed u exprs levels =>
      let e ← expandDelayed sig fuel u exprs levels
      if e.same t then return t else e.underlying fuel
    | _ => return t

/-- A function type instantiated at its first parameters. -/
def instantiatePi (sort : USort) (params : Telescope Term) (codomain : Term)
    (args : List Term) : Core Term := do
  if params.length < args.length then throw .tooManyArguments
  let σ := Substitution.ofMapping (Mapping.empty.insertVars params.vars args)
  match params.drop args.length with
  | [] => codomain.subst sig fuel σ
  | rest => Traversal.start do
    let (rest, σ) ← Traversal.params (Traversal.traverse sig fuel) σ rest
    let codomain ← Traversal.traverse sig fuel σ codomain
    Core.build (.pi sort rest codomain)

end Operations

end Recheck
