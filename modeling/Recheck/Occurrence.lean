import Recheck.Substitution

/-!
# Recheck — occurrences of variables

Two searches through a term, through solved unknowns and through what delayed
substitutions come to:

* `Term.find` looks for any of a set of variables. Declarations are found where they are
  used. Binders are not tracked: a variable that is bound inside the term is found like
  any other.
* `Term.findFree` looks for a variable with a property. It passes over unknowns, and over
  every variable that the term has bound up to that point.

Both go from left to right and return the first hit. Declared types of let clauses and
the parts of holes are not searched.
-/

namespace Recheck

/-- What is searched for. -/
structure Query where
  hits : Variable → Bool
  /-- Whether to pass over the variables that the term itself binds. -/
  freeOnly : Bool

/-- A search remembers the variables that it has seen bound. -/
abbrev Search := StateT (List Var) Core

namespace Search

section Step

variable (sig : Signature) (fuel : Nat) (q : Query) (self : Term → Search (Option Variable))

/-- Continues the search unless there is a hit. -/
def orElse (x y : Search (Option Variable)) : Search (Option Variable) := do
  match ← x with
  | some v => return some v
  | none => y

/-- The first hit among several places. -/
def first {A : Type} (f : A → Search (Option Variable)) :
    List A → Search (Option Variable)
  | [] => return none
  | a :: rest => orElse (f a) (first f rest)

/-- The first hit in a term that may be missing. -/
def optional : Option Term → Search (Option Variable)
  | none => return none
  | some t => self t

def noteBound (x : Var) : Search Unit := modify (x :: ·)

/-- Looks at an occurrence. -/
def occurrence (v : Variable) : Search (Option Variable) := do
  let bound ← get
  if q.freeOnly && v.var?.any (· ∈ bound) then return none
  return if q.hits v then some v else none

/-- The types of a telescope. -/
def params (ps : Telescope Term) : Search (Option Variable) :=
  first (fun p => orElse (optional self p.type) do noteBound p.var; return none) ps

/-- The types of the variables of patterns, and the body. -/
def clause (c : Clause Term) : Search (Option Variable) :=
  orElse
    (first (fun b => orElse (self b.2) do noteBound b.1; return none)
      (Pattern.bindingsOf c.patterns))
    (optional self c.body)

mutual

def tree : Tree Term → Search (Option Variable)
  | .leaf ps body => orElse (params self ps) (self body)
  | .branch ps children => orElse (params self ps) (branches children)

def branches : List (BranchKey × Tree Term) → Search (Option Variable)
  | [] => return none
  | (_, t) :: rest => orElse (tree t) (branches rest)

end

/-- The clauses of a pattern match, and then its decision tree. -/
def elim (e : Elim Term) : Search (Option Variable) :=
  orElse (first (clause self) e.clauses) (first (tree self) e.tree.toList)

/-- A record type: its implementations, and then the record itself. -/
def recordType (r : RecordType Term) : Search (Option Variable) := do
  noteBound r.this
  orElse (first (fun f => optional self (r.impl? f)) (sig.implemented r))
    (occurrence q (.record r.record))

/-- The definition of a let clause. -/
def clauseExpr (x : Var) : Search (Option Variable) := do
  let c ← Core.clause x
  orElse (self c.expr) do noteBound x; return none

/-- A term, the subterms being left to `self`. -/
def step (t : Term) : Search (Option Variable) := do
  match t.node with
  | .ref x => occurrence q (.local x)
  | .app fn arg => orElse (self fn) (self arg)
  | .call f _ args => orElse (first self args) (occurrence q (.func f))
  | .con c =>
    orElse (first self c.dataArgs) (orElse (first self c.args) (occurrence q (.con c.con)))
  | .data d => orElse (first self d.args) (occurrence q (.data d.data))
  | .field f _ arg => orElse (self arg) (occurrence q (.field f))
  | .record r => recordType sig q self r
  | .lam _ ps body => orElse (params self ps) (self body)
  | .pi _ ps codomain => orElse (params self ps) (self codomain)
  | .sigma s => params self s.params
  | .tuple fields type => orElse (first self fields) (params self type.val.params)
  | .proj u _ => self u
  | .univ _ | .int _ | .hole .. => return none
  | .new renewed type => orElse (recordType sig q self type.val) (optional self renewed)
  | .letIn _ xs body => orElse (first (clauseExpr self) xs) (self body)
  | .case c =>
    orElse (first self c.args) <|
    orElse (params self c.params) <|
    orElse (self c.resultType) <|
    orElse (optional self c.levelProof) <|
    first (elim self) c.elim.toList
  | .ofType u type => orElse (self u) (self type)
  | .unknown v =>
    match ← Core.solution? t with
    | some u => self u
    | none => occurrence q (.local v)
  | .delayed u exprs levels =>
    let e ← expandDelayed sig fuel u exprs levels
    self e

/-- A function body. -/
def body : Body → Search (Option Variable)
  | .expr t => self t
  | .elim e => elim self e
  | .interval _ ends otherwise =>
    orElse (first (fun e => orElse (optional self e.1) (optional self e.2)) ends)
      (first (elim self) otherwise.toList)

end Step

/-- Searches a term down to a bounded depth. -/
def run (sig : Signature) (q : Query) : Nat → Term → Search (Option Variable)
  | 0, _ => throw Fault.outOfFuel
  | fuel + 1, t => step sig fuel q (run sig q fuel) t

end Search

section Operations

variable (sig : Signature) (fuel : Nat)

/-- The first of the given variables that occurs in the term. -/
def Term.find (t : Term) (vars : List Variable) : Core (Option Variable) := do
  if vars.isEmpty then return none
  let q : Query := ⟨fun v => v ∈ vars, false⟩
  (Search.run sig q fuel t).run' []

/-- The first of the given variables that occurs in a function body. -/
def Body.find (b : Body) (vars : List Variable) : Core (Option Variable) := do
  if vars.isEmpty then return none
  let q : Query := ⟨fun v => v ∈ vars, false⟩
  (Search.body (Search.run sig q fuel) b).run' []

/-- The first variable with a property that occurs free in the term, unknowns apart. -/
def Term.findFree (t : Term) (hits : Var → Bool) : Core (Option Var) := do
  let hits : Variable → Bool
    | .local x => x.kind ≠ .unknown && hits x
    | _ => false
  let q : Query := ⟨hits, true⟩
  return (← (Search.run sig q fuel t).run' []).bind Variable.var?

end Operations

end Recheck
