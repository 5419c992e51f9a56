import Recheck.Exchange.Datum
import Recheck.Exchange.Session

/-!
# Recheck — writing terms

How terms are written as trees of plain data: in the forms in which they are read, with
every part spelled out. The binders are numbered `#0`, `#1`, … in the order in which they
are written, so that two terms that differ only in the identity of their binders are
written alike. Anything else is written with its id, and `free:` with the printed name if
it never got one.
-/

namespace Recheck

/-- The numbers given to binders so far. -/
structure Numbering where
  next : Nat
  /-- The latest number of a binder, by its serial number. -/
  numbers : Table Nat

/-- Writing looks things up in a session and numbers binders. -/
abbrev Writer := ReaderT Session (StateT Numbering (Except Fault))

namespace Write

/-! ## Names -/

/-- The id of a declaration, with its kind in front. -/
def defText {kind : DefKind} (s : Session) (d : DefName kind) : String :=
  (s.defIds.get? d.serial).getD s!"free:{d.name}"

/-- The id of a local variable. -/
def varText (s : Session) (x : Var) : String :=
  (s.varIds.get? x.serial).getD s!"free:{x.name}"

/-- The id of a variable. -/
def variableText (s : Session) : Variable → String
  | .local x => varText s x
  | .field f => defText s f
  | .func f => defText s f
  | .data d => defText s d
  | .con c => defText s c
  | .record r => defText s r

/-- A variable by its number, or else by its id. -/
def variableName (v : Variable) : Writer String := do
  let number := match v with
    | .local x => fun (n : Numbering) => n.numbers.get? x.serial
    | _ => fun _ => none
  match number (← get) with
  | some n => return s!"#{n}"
  | none => return variableText (← read) v

def variableDatum (v : Variable) : Writer Datum := return .text (← variableName v)

/-- Gives a binder the next number. -/
def binder (x : Var) : Writer Datum :=
  modifyGet fun s =>
    (.text s!"#{s.next}", ⟨s.next + 1, s.numbers.insert x.serial s.next⟩)

/-! ## Plain values -/

def sort (s : USort) : Datum := .texts [s.p.text, s.h.text]

/-- A substitution of levels, sorted by the names of the variables. -/
def levels (l : LevelSubst) : Datum :=
  let entries := l.entries.mergeSort fun a b => a.1.name ≤ b.1.name
  .list (entries.map fun e => .texts [e.1.name, e.2.text])

def span (s : Span) : Datum := .list [.ofInt64 s.first, .ofInt64 s.last]

def fields (fs : List FieldName) : Writer Datum := do
  return .list (← fs.mapM fun f => variableDatum (.field f))

/-! ## Parts of terms -/

section Parts

variable (term : Term → Writer Datum)

def orNull {A : Type} (write : A → Writer Datum) : Option A → Writer Datum
  | none => return .null
  | some a => write a

def listOf {A : Type} (write : A → Writer Datum) (xs : List A) : Writer Datum :=
  return .list (← xs.mapM write)

def param (p : Param Term) : Writer Datum := do
  let type ← orNull term p.type
  let n ← binder p.var
  return .list [n, .text p.var.name, type, .bool p.explicit]

def params (ps : Telescope Term) : Writer Datum := listOf (param term) ps

def sigmaType (s : SigmaType Term) : Writer Datum :=
  return .list [.text "sigma", sort s.sort, ← params term s.params]

/-- A record type, with its implementations in the order of the declaration. -/
def recordType (r : RecordType Term) : Writer Datum := do
  let name ← variableDatum (.record r.record)
  let n ← binder r.this
  let impls ← ((← read).sig.implemented r).filterMapM fun f =>
    (r.impl? f).mapM fun t => do
      let name ← variableDatum (.field f)
      return Datum.list [name, ← term t]
  return .list [.text "class", name, sort r.sortArg, sort r.sort, .ofNat r.universes.rank, n,
    .list impls]

/-- A mapping, sorted by the names of the variables. All of them are named before any
term is written. -/
def mapping (m : Mapping Term) : Writer Datum := do
  let named ← m.entries.mapM fun e => return (← variableName e.1, e.2)
  let sorted := named.mergeSort fun a b => a.1 ≤ b.1
  listOf (fun e => return .list [.text e.1, ← term e.2]) sorted

def pattern : Nat → Pattern Term → Writer Datum
  | 0, _ => throw .outOfFuel
  | fuel + 1, p => do
    match p with
    | .bind x type =>
      let type ← term type
      let n ← binder x
      return .list [.text "bind", n, .text x.name, type]
    | .wild => return .list [.text "_"]
    | .absurd => return .list [.text "empty"]
    | .con c ps =>
      return .list [.text "con", ← variableDatum (.con c), ← listOf (pattern fuel) ps]
    | .tuple ps => return .list [.text "tuple", ← listOf (pattern fuel) ps]
    | .record fs ps =>
      return .list [.text "record", ← fields fs, ← listOf (pattern fuel) ps]

def branchKey : BranchKey → Writer Datum
  | .con c => return .list [.text "con", ← variableDatum (.con c)]
  | .tuple n => return .list [.text "tuple", .ofInt64 n]
  | .record r s fs =>
    return .list [.text "class", ← variableDatum (.record r), sort s, ← fields fs]

def tree : Nat → Tree Term → Writer Datum
  | 0, _ => throw .outOfFuel
  | fuel + 1, t => do
    match t with
    | .leaf ps body => return .list [.text "leaf", ← params term ps, ← term body]
    | .branch ps children =>
      let ps ← params term ps
      let children ← listOf (fun (c : BranchKey × Tree Term) => do
        let key ← branchKey c.1
        return .list [key, ← tree fuel c.2]) children
      return .list [.text "branch", ps, children]

def elim (fuel : Nat) (e : Elim Term) : Writer Datum := do
  let clauses ← listOf (fun (c : Clause Term) => do
    let ps ← listOf (pattern term fuel) c.patterns
    return .list [ps, ← orNull term c.body]) e.clauses
  return .list [clauses, ← orNull (tree term fuel) e.tree]

/-- A let clause, with what it stands for now. -/
def letClause (x : Var) : Writer Datum := do
  match (← read).store.clauses.get? x.serial with
  | none => throw .malformed
  | some c =>
    let expr ← term c.expr
    let type ← orNull term c.type
    let n ← binder x
    return .list [n, .text x.name, expr, type]

/-- One node of a term, whose subterms are written by `term`. -/
def node (fuel : Nat) (stamp : Nat) : Node Term → Writer Datum
  | .ref x => return .list [.text "ref", ← variableDatum (.local x)]
  | .app f x => return .list [.text "app", ← term f, ← term x]
  | .call f s args =>
    return .list [.text "fun", ← variableDatum (.func f), sort s, ← listOf term args]
  | .con c =>
    return .list [.text "con", ← variableDatum (.con c.con), sort c.sortArg,
      ← listOf term c.dataArgs, ← listOf term c.args]
  | .data d =>
    return .list [.text "data", ← variableDatum (.data d.data), sort d.sortArg,
      ← listOf term d.args]
  | .field f s x =>
    return .list [.text "field", ← variableDatum (.field f), sort s, ← term x]
  | .record r => recordType term r
  | .lam s ps body => return .list [.text "lam", sort s, ← params term ps, ← term body]
  | .pi s ps body => return .list [.text "pi", sort s, ← params term ps, ← term body]
  | .sigma s => sigmaType term s
  | .tuple us type => return .list [.text "tuple", ← listOf term us, ← sigmaType term type.val]
  | .proj u i => return .list [.text "proj", ← term u, .ofInt64 i]
  | .univ s => return .list [.text "univ", sort s]
  | .new renewed type =>
    return .list [.text "new", ← orNull term renewed, ← recordType term type.val]
  | .letIn strict xs body =>
    return .list [.text "let", .bool strict, ← listOf (letClause term) xs, ← term body]
  | .case c =>
    return .list [.text "case", .bool c.strict, ← params term c.params, ← term c.resultType,
      ← orNull term c.levelProof, ← orNull (elim term fuel) c.elim, ← listOf term c.args]
  | .ofType u type => return .list [.text "oftype", ← term u, ← term type]
  | .int n => return .list [.text "int", .text (toString n)]
  | .hole goal part =>
    return .list [.text (if goal then "goal" else "error"), ← orNull term part]
  | .unknown v => do
    match (← read).store.solutions.get? stamp with
    | none => return .list [.text "iref", ← variableDatum (.local v)]
    | some u => return .list [.text "solved", ← variableDatum (.local v), ← term u]
  | .delayed u exprs l => do
    match (← read).store.mapping? exprs with
    | none => throw .malformed
    | some m => return .list [.text "subst", ← term u, ← mapping term m, levels l]

end Parts

/-! ## Terms -/

def termWithin : Nat → Term → Writer Datum
  | 0, _ => throw .outOfFuel
  | fuel + 1, t => node (termWithin fuel) fuel t.stamp t.node

def term : Term → Writer Datum := termWithin depthLimit

end Write

/-- Writes something, numbering its binders from zero. -/
def Exchange.write {A : Type} (w : Writer A) : Exchange A := do
  match (w (← get)).run' ⟨0, .empty⟩ with
  | .ok a => return a
  | .error e => throw (.fault e)

end Recheck
