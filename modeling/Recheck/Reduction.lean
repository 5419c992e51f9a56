import Recheck.Prelude
import Recheck.Record

/-!
# Recheck — weak-head reduction

`Term.whnf` reduces the head of a term as far as it goes: let clauses and function bodies
are unfolded, functions applied, components of tuples and fields of record values
projected, and pattern matches decided whose scrutinees have a constructor at their head.
A delayed substitution over an unsolved unknown stays as it is. A term that does not
reduce is handed back as the node it is.

A pattern match that cannot be decided reports the scrutinee that blocks it, which
`Term.status` follows up: it says whether a term is in weak-head normal form, and on
what the reduction is stuck.
-/

namespace Recheck

/-- The outcome of matching patterns against arguments. -/
inductive Match where
  /-- Some argument has another head. -/
  | no
  /-- All arguments match; the variables of the patterns are mapped to what they matched. -/
  | yes (bindings : Mapping Term)
  /-- Undecided as long as this argument has no head. -/
  | maybe (blocker : Term)

/-- The outcome of evaluating a call or a match. -/
inductive Evaluation where
  | reduced (t : Term)
  /-- Nothing applies, or the given argument has no head yet. -/
  | stuck (blocker : Option Term)

/-- The reduct, if there is one. -/
def Evaluation.reduct? : Evaluation → Option Term
  | .reduced t => some t
  | .stuck _ => none

/-- The head of a term that a match can be decided by. -/
inductive Head where
  | con (c : ConName) (args : List Term)
  | tuple (fields : List Term)
  | record (value : Term) (type : RecordType Term)

/-- The constructor at the head of a term in weak-head normal form, and its arguments.
A literal is `zero` or the successor of the literal before it. -/
def Term.constructor? (t : Term) : Core (Option (ConName × List Term)) :=
  match t.node with
  | .con c => return some (c.con, c.args)
  | .int n =>
    if n = 0 then return some (Prelude.zero, [])
    else return some (Prelude.suc, [← Core.build (.int (n - 1))])
  | _ => return none

/-- The head of a term in weak-head normal form. -/
def Term.head? (t : Term) : Core (Option Head) := do
  match t.node with
  | .tuple fields _ => return some (.tuple fields)
  | .new _ r => return some (.record t r.val)
  | _ => return (← t.constructor?).map fun (c, args) => .con c args

namespace Reduction

/-! ## Matching -/

section Matching

variable (sig : Signature) (fuel : Nat) (self : Term → Core Term)

/-- The implementations of fields of a record value, all of which it has to have. -/
def fieldValues (value : Term) (r : RecordType Term) : List FieldName → Core (List Term)
  | [] => return []
  | f :: fs => do
    match ← r.implementation sig fuel f value with
    | none => throw .malformed
    | some impl => return impl :: (← fieldValues value r fs)

mutual

/-- Matches one pattern. Constructor patterns look at the head of the argument, the
others do not. -/
def matchOne (m : Mapping Term) : Pattern Term → Term → Core Match
  | .bind x _, t => return .yes (m.insert (.local x) t)
  | .wild, _ => return .yes m
  | .absurd, _ => return .no
  | .con c ps, t => do
    let t ← self t
    match ← t.constructor? with
    | none => return .maybe t
    | some (d, ts) =>
      if d = c then
        if ps.length = ts.length then matchAll m none ps ts else return .no
      else return .no
  | .tuple ps, t => do
    let t ← self t
    match t.node with
    | .tuple ts _ => if ps.length = ts.length then matchAll m none ps ts else return .no
    | _ => return .maybe t
  | .record fields ps, t => do
    let t ← self t
    match t.node with
    | .new _ r =>
      let ts ← fieldValues sig fuel t r.val fields
      if ps.length = ts.length then matchAll m none ps ts else return .no
    | _ => return .maybe t

/-- Matches patterns from left to right. A single `no` decides; otherwise the first
argument without a head blocks. -/
def matchAll (m : Mapping Term) (blocker : Option Term) :
    List (Pattern Term) → List Term → Core Match
  | p :: ps, t :: ts => do
    match ← matchOne m p t with
    | .no => return .no
    | .yes m => matchAll m blocker ps ts
    | .maybe t => matchAll m (blocker <|> some t) ps ts
  | _, _ =>
    match blocker with
    | none => return .yes m
    | some t => return .maybe t

end

/-- Matches as many patterns as there are arguments. -/
def matchPatterns (ps : List (Pattern Term)) (ts : List Term) : Core Match :=
  if ps.length = ts.length then matchAll sig fuel self .empty none ps ts else return .no

end Matching

/-! ## Evaluating matches and calls -/

section Evaluating

variable (sig : Signature) (fuel : Nat) (self : Term → Core Term)

/-- Evaluates the first clause that matches. A clause that cannot be decided blocks the
clauses after it. -/
def clauses (levels : LevelSubst) (args : List Term) :
    List (Clause Term) → Core Evaluation
  | [] => return .stuck none
  | c :: rest => do
    match ← matchPatterns sig fuel self c.patterns args with
    | .no => clauses levels args rest
    | .maybe t => return .stuck (some t)
    | .yes m =>
      match c.body with
      | none => return .stuck none
      | some body => return .reduced (← body.subst sig fuel (.of m levels))

/-- Binds the parameters of a node to the topmost arguments. -/
def bindParams (m : Mapping Term) :
    List Var → List Term → Option (Mapping Term × List Term)
  | [], stack => some (m, stack)
  | _ :: _, [] => none
  | x :: xs, t :: stack => bindParams (m.insert (.local x) t) xs stack

/-- The arguments that a head pushes if it is selected by the key of a branch. -/
def pushed (head : Head) (key : BranchKey) : Core (Option (List Term)) := do
  match head, key with
  | .con c args, .con d => return if c = d then some args else none
  | .tuple fields, .tuple size =>
    return if size.toInt = fields.length then some fields else none
  | .record value r, .record name _ implemented =>
    if name = r.record then
      let fields := (sig.record r.record).fields.filter fun f => f ∉ implemented
      return some (← fieldValues sig fuel value r fields)
    else return none
  | _, _ => return none

mutual

/-- Evaluates a decision tree on a stack of arguments. -/
def tree (levels : LevelSubst) (m : Mapping Term) (stack : List Term) :
    Tree Term → Core Evaluation
  | .leaf ps body =>
    match bindParams m (Telescope.vars ps) stack with
    | none => return .stuck none
    | some (m, stack) => do
      let body ← body.subst sig fuel (.of m levels)
      return .reduced (← makeApp sig fuel body stack)
  | .branch ps children =>
    match bindParams m (Telescope.vars ps) stack with
    | none | some (_, []) => return .stuck none
    | some (m, t :: stack) => do
      let t ← self t
      match ← t.head? with
      | none => return .stuck (some t)
      | some head => branches levels m stack head children

/-- Evaluates the first branch that a head selects. -/
def branches (levels : LevelSubst) (m : Mapping Term) (stack : List Term) (head : Head) :
    List (BranchKey × Tree Term) → Core Evaluation
  | [] => return .stuck none
  | (key, t) :: rest => do
    match ← pushed sig fuel head key with
    | some args => tree levels m (args ++ stack) t
    | none => branches levels m stack head rest

end

/-- Evaluates a pattern match, by its decision tree if it has one. -/
def elim (levels : LevelSubst) (args : List Term) (e : Elim Term) : Core Evaluation :=
  match e.tree with
  | some t => tree sig fuel self levels .empty args t
  | none => clauses sig fuel self levels args e.clauses

/-- Unfolds a function call. -/
def call (f : FuncName) (sortArg : USort) (args : List Term) : Core Evaluation := do
  let decl := sig.func f
  let levels := sortArg.instantiation
  match decl.body with
  | none | some (.interval _ _ none) => return .stuck none
  | some (.expr body) =>
    let m := Mapping.empty.insertVars decl.params.vars args
    return .reduced (← body.subst sig fuel (.of m levels))
  | some (.elim e) | some (.interval _ _ (some e)) => elim sig fuel self levels args e

/-- Evaluates a case expression. -/
def caseOf (c : CaseOf Term) : Core Evaluation :=
  match c.elim with
  | none => throw .malformed
  | some e => elim sig fuel self .empty c.args e

end Evaluating

/-! ## One head step -/

section Step

variable (sig : Signature) (fuel : Nat) (self : Term → Core Term)

/-- A node whose principal argument may have changed: there is a step exactly if it is
another node than before. -/
def rebuilt (old new : Term) (node : Node Term) : Core (Option Term) :=
  if new.same old then return none else return some (← Core.build node)

/-- One step at the head of a term, unless it is in weak-head normal form; principal
arguments are reduced by `self`. -/
def step (t : Term) : Core (Option Term) := do
  match t.node with
  | .ref x =>
    if x.kind = .clause then return some (← Core.clause x).expr else return none
  | .app fn arg =>
    let head ← self fn
    match head.node with
    | .lam .. => return some (← makeApp sig fuel head [arg])
    | _ => rebuilt fn head (.app head arg)
  | .call f sortArg args => return (← call sig fuel self f sortArg args).reduct?
  | .field f sortArg arg =>
    let value ← self arg
    let impl ← match value.node with
      | .new _ r => r.val.implementation sig fuel f value
      | _ => pure none
    match impl with
    | some u => return some u
    | none => rebuilt arg value (.field f sortArg value)
  | .proj u index =>
    let value ← self u
    let component ← match value.node with
      | .tuple fields _ => componentAt fields index
      | _ => pure none
    match component with
    | some c => return some c
    | none => rebuilt u value (.proj value index)
  | .letIn _ _ body => return some body
  | .case c => return (← caseOf sig fuel self c).reduct?
  | .ofType u _ => return some u
  | .unknown _ => Core.solution? t
  | .delayed u exprs levels =>
    match u.node, ← Core.solution? u with
    | .unknown _, none => return none
    | _, _ => return some (← expandDelayed sig fuel u exprs levels)
  | .con _ | .data _ | .record _ | .lam .. | .pi .. | .sigma _ | .tuple .. | .univ _
  | .new .. | .int _ | .hole .. => return none

end Step

end Reduction

section Operations

variable (sig : Signature)

/-- The weak-head normal form of a term. -/
def Term.whnf : Nat → Term → Core Term
  | 0, _ => throw .outOfFuel
  | fuel + 1, t => do
    match ← Reduction.step sig fuel (Term.whnf fuel) t with
    | none => return t
    | some u => Term.whnf fuel u

/-- The outcome of unfolding a function call. -/
def evalCall (fuel : Nat) (f : FuncName) (sortArg : USort) (args : List Term) :
    Core Evaluation :=
  Reduction.call sig fuel (Term.whnf sig fuel) f sortArg args

/-- The outcome of evaluating a case expression. -/
def evalCase (fuel : Nat) (c : CaseOf Term) : Core Evaluation :=
  Reduction.caseOf sig fuel (Term.whnf sig fuel) c

/-- Matches patterns against arguments. -/
def matchPatterns (fuel : Nat) (ps : List (Pattern Term)) (ts : List Term) : Core Match :=
  Reduction.matchPatterns sig fuel (Term.whnf sig fuel) ps ts

/-! ## Normal forms -/

/-- The status of a call or a match, given the outcome of evaluating it. -/
def Evaluation.statusWith (self : Term → Core (Decision × Option Term)) :
    Evaluation → Core (Decision × Option Term)
  | .reduced _ => return (.no, none)
  | .stuck none => return (.yes, none)
  | .stuck (some t) => do
    let (d, s) ← self t
    return (if d = .maybe then .maybe else .yes, s)

/-- Whether a term is in weak-head normal form, and the subterm that its reduction is
stuck on: an unsolved unknown, a variable or a hole. The answer is `maybe` if it is an
unsolved unknown, and nothing blocks a term that reduces or has a canonical head. -/
def Term.status : Nat → Term → Core (Decision × Option Term)
  | 0, _ => throw .outOfFuel
  | fuel + 1, t => do
    match t.node with
    | .ref x => return if x.kind = .clause then (.no, none) else (.yes, some t)
    | .app fn _ =>
      match (← fn.underlying sig fuel).node with
      | .lam .. => return (.no, none)
      | _ => Term.status fuel fn
    | .call f sortArg args =>
      (← evalCall sig fuel f sortArg args).statusWith (Term.status fuel)
    | .field f _ arg =>
      let value ← arg.whnf sig fuel
      match value.node with
      | .new _ r =>
        if r.val.isImplemented f then return (.no, none) else Term.status fuel value
      | _ => Term.status fuel value
    | .proj u index =>
      let value ← u.whnf sig fuel
      match value.node with
      | .tuple fields _ =>
        if index.toInt < fields.length then return (.no, none) else Term.status fuel value
      | _ => Term.status fuel value
    | .case c => (← evalCase sig fuel c).statusWith (Term.status fuel)
    | .letIn .. | .ofType .. => return (.no, none)
    | .con _ | .data _ | .record _ | .lam .. | .pi .. | .sigma _ | .tuple .. | .univ _
    | .new .. | .int _ => return (.yes, none)
    | .hole .. => return (.yes, some t)
    | .unknown _ =>
      match ← Core.solution? t with
      | some u => Term.status fuel u
      | none => return (.maybe, some t)
    | .delayed u exprs levels =>
      let e ← expandDelayed sig fuel u exprs levels
      Term.status fuel e

/-- Whether a term is in weak-head normal form. -/
def Term.isWhnf (fuel : Nat) (t : Term) : Core Decision := return (← t.status sig fuel).1

/-- The subterm that the reduction of a term is stuck on. -/
def Term.stuckOn (fuel : Nat) (t : Term) : Core (Option Term) :=
  return (← t.status sig fuel).2

/-- The unsolved unknown that the reduction of a term is stuck on. -/
def Term.stuckUnknown (fuel : Nat) (t : Term) : Core (Option Var) := do
  match ← t.stuckOn sig fuel with
  | none => return none
  | some u =>
    match u.node, ← Core.solution? u with
    | .unknown v, none => return some v
    | _, _ => return none

/-- The parameters of nested function types, and the innermost codomain in weak-head
normal form. -/
def piParameters : Nat → Term → Core (List (Column Term) × Term)
  | 0, _ => throw .outOfFuel
  | fuel + 1, t => do
    let t ← t.whnf sig fuel
    match t.node with
    | .pi _ ps codomain =>
      let (rest, result) ← piParameters fuel codomain
      return (Telescope.columns ps ++ rest, result)
    | _ => return ([], t)

end Operations

end Recheck
