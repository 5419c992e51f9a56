import Recheck.Exchange.Datum
import Recheck.Exchange.Session

/-!
# Recheck — reading terms

How trees of plain data are read. A term is a list that starts with a word for its form;
parts are given in order, and an optional part may be null. Things with ids are referred
to by them, and binders enter their ids as they are read, from left to right: first the
type of a parameter and then the parameter, but the instance of a record type before its
implementations.

Each list read is a new term, apart from `["share", id]`, which is the very term with
that id.
-/

namespace Recheck

namespace Read

/-! ## Plain values -/

/-- The value of a datum, which has to make sense. -/
def require {A : Type} (what : String) : Option A → Exchange A
  | some a => return a
  | none => Exchange.malformed s!"{what} expected"

def text (d : Datum) : Exchange String := require "text" d.text?

def bool (d : Datum) : Exchange Bool := require "truth value" d.bool?

def int64 (d : Datum) : Exchange Int64 := return Int64.ofInt (← require "number" d.int?)

/-- A list, item by item. -/
def listOf {A : Type} (read : Datum → Exchange A) (d : Datum) : Exchange (List A) := do
  (← require "list" d.items?).mapM read

/-- A value or null. -/
def orNull {A : Type} (read : Datum → Exchange A) (d : Datum) : Exchange (Option A) :=
  match d with
  | .null => return none
  | d => return some (← read d)

/-- A pair. -/
def pair {A B : Type} (first : Datum → Exchange A) (second : Datum → Exchange B) (d : Datum) :
    Exchange (A × B) := do
  let a ← first (d.item 0)
  return (a, ← second (d.item 1))

def var (d : Datum) : Exchange Var := do Exchange.var (← text d)

def variableOf (d : Datum) : Exchange Variable := do Exchange.variableOf (← text d)

def data (d : Datum) : Exchange DataName := do Exchange.lookup Session.datas (← text d)

def con (d : Datum) : Exchange ConName := do Exchange.lookup Session.cons (← text d)

def record (d : Datum) : Exchange RecordName := do Exchange.lookup Session.records (← text d)

def field (d : Datum) : Exchange FieldName := do Exchange.lookup Session.fields (← text d)

def func (d : Datum) : Exchange FuncName := do Exchange.lookup Session.funcs (← text d)

/-- A level: a constant, `"oo"`, a variable, or a list of a variable or null and the two
constants. -/
def level (d : Datum) : Exchange Level := do
  match d with
  | .int _ => return .closed (← int64 d)
  | .text "oo" => return .infinity
  | .text v => return .ofVar ⟨v⟩
  | _ =>
    let c ← int64 (d.item 1)
    let m ← int64 (d.item 2)
    match ← orNull text (d.item 0) with
    | none => return .closed c
    | some v => return .var ⟨v⟩ c m

/-- A sort: one of four words, or a pair of levels. -/
def sort (d : Datum) : Exchange USort := do
  match d with
  | .text "Prop" => return .prop
  | .text "Set0" => return .set0
  | .text "Std" => return .std
  | .text "Omega" => return .omega
  | d =>
    let (p, h) ← pair level level d
    return ⟨p, h⟩

/-- A substitution of levels: pairs of a variable and a level. -/
def levels (d : Datum) : Exchange LevelSubst := do
  let entries ← listOf (pair text level) d
  return .ofList (entries.map fun e => (⟨e.1⟩, e.2))

/-- A span: a pair of offsets. -/
def span (d : Datum) : Exchange Span := do
  let (first, last) ← pair int64 int64 d
  return ⟨first, last⟩

/-- A relation: its text, or its code. -/
def relation (d : Datum) : Exchange Relation := do
  match d with
  | .text "==" => return .eq
  | .text "<=" => return .le
  | .text ">=" => return .ge
  | d => return .ofCode (← int64 d)

def universes (d : Datum) : Exchange UniverseKind := do
  require "kind of universes" (UniverseKind.ofCode? (← int64 d))

/-- A source file: its path, its length and the offsets of its newlines. -/
def file (d : Datum) : Exchange SourceFile := do
  let path ← text (d.item 0)
  let length ← int64 (d.item 1)
  return ⟨path, length, ← listOf int64 (d.item 2)⟩

/-! ## Parts of terms -/

section Parts

variable (term : Datum → Exchange Term)

/-- A parameter: its id, its type or null, and whether it is explicit, as it is by default. -/
def param (d : Datum) : Exchange (Param Term) := do
  let id ← text (d.item 0)
  let type ← orNull term (d.item 1)
  let explicit ← orNull bool (d.item 2)
  let x ← Exchange.newParam id
  return ⟨x, type, explicit.getD true⟩

/-- A telescope: its id, or a list of parameters. -/
def telescope (d : Datum) : Exchange (Telescope Term) := do
  match d with
  | .text id => Exchange.telescope id
  | d =>
    let ps : Telescope Term ← listOf (param term) d
    ps.columns.forM fun c => Exchange.declareType c.var c.type
    return ps

/-- A mapping: the id of a shared one, or a list of variables and terms. -/
def mapping (d : Datum) : Exchange (MappingRef Term) := do
  match d with
  | .text id => return .shared (← Exchange.lookup Session.mappings id)
  | d =>
    let entries ← listOf (pair variableOf term) d
    return .own (entries.foldl (fun m e => m.insert e.1 e.2) .empty)

/-- A pattern. -/
def pattern : Nat → Datum → Exchange (Pattern Term)
  | 0, _ => throw (.fault .outOfFuel)
  | fuel + 1, d => do
    match ← text (d.item 0) with
    | "bind" =>
      let id ← text (d.item 1)
      let type ← term (d.item 2)
      let x ← Exchange.newParam id
      Exchange.declareType x (some type)
      return .bind x type
    | "_" => return .wild
    | "empty" => return .absurd
    | "con" =>
      let c ← con (d.item 1)
      return .con c (← listOf (pattern fuel) (d.item 2))
    | "tuple" => return .tuple (← listOf (pattern fuel) (d.item 1))
    | "record" =>
      let fields ← listOf field (d.item 1)
      return .record fields (← listOf (pattern fuel) (d.item 2))
    | form => Exchange.malformed s!"unknown pattern {form}"

/-- The key of a branch. -/
def branchKey (d : Datum) : Exchange BranchKey := do
  match ← text (d.item 0) with
  | "con" => return .con (← con (d.item 1))
  | "tuple" => return .tuple (← int64 (d.item 1))
  | "class" =>
    let r ← record (d.item 1)
    let s ← sort (d.item 2)
    return .record r s (← listOf field (d.item 3))
  | form => Exchange.malformed s!"unknown key {form}"

/-- A decision tree. -/
def tree : Nat → Datum → Exchange (Tree Term)
  | 0, _ => throw (.fault .outOfFuel)
  | fuel + 1, d => do
    match ← text (d.item 0) with
    | "leaf" =>
      let ps ← telescope term (d.item 1)
      return .leaf ps (← term (d.item 2))
    | "branch" =>
      let ps ← telescope term (d.item 1)
      return .branch ps (← listOf (pair branchKey (tree fuel)) (d.item 2))
    | form => Exchange.malformed s!"unknown tree {form}"

/-- A clause: its patterns, and its body or null. -/
def clause (fuel : Nat) (d : Datum) : Exchange (Clause Term) := do
  let (ps, body) ← pair (listOf (pattern term fuel)) (orNull term) d
  return ⟨ps, body⟩

/-- A match: its id, or its clauses with its decision tree or null. -/
def elim (fuel : Nat) (d : Datum) : Exchange (Elim Term) := do
  match d with
  | .text id => Exchange.lookup Session.elims id
  | d =>
    let (clauses, tree) ← pair (listOf (clause term fuel)) (orNull (tree term fuel)) d
    return ⟨← Core.fresh, clauses, tree⟩

/-- The instance of a record type and its implementations. -/
def recordType (d : Datum) : Exchange Term := do
  let r ← record (d.item 1)
  let sortArg ← sort (d.item 2)
  let s ← sort (d.item 3)
  let us ← universes (d.item 4)
  let type ← newRecordType r sortArg s us
  Exchange.enterVar (← text (d.item 5)) type.this
  let impls ← listOf (pair field term) (d.item 6)
  let t ← Core.build (.record (impls.foldl (fun type e => type.implement e.1 e.2) type))
  Exchange.declareType type.this (some t)
  return t

/-- A let clause: its id, its term, and its type or null. -/
def letClause (d : Datum) : Exchange Var := do
  let id ← text (d.item 0)
  let expr ← term (d.item 1)
  Exchange.newClause id expr (← orNull term (d.item 2))

/-- One node of a term, whose subterms are read by `term`. -/
def node (fuel : Nat) (d : Datum) : Exchange (Node Term) := do
  match ← text (d.item 0) with
  | "ref" => return .ref (← var (d.item 1))
  | "app" =>
    let (f, x) ← pair term term (.list [d.item 1, d.item 2])
    return .app f x
  | "fun" =>
    let f ← func (d.item 1)
    let s ← sort (d.item 2)
    return .call f s (← listOf term (d.item 3))
  | "con" =>
    let c ← con (d.item 1)
    let s ← sort (d.item 2)
    let dataArgs ← listOf term (d.item 3)
    return .con ⟨c, s, dataArgs, ← listOf term (d.item 4)⟩
  | "data" =>
    let x ← data (d.item 1)
    let s ← sort (d.item 2)
    return .data ⟨x, s, ← listOf term (d.item 3)⟩
  | "field" =>
    let f ← field (d.item 1)
    let s ← sort (d.item 2)
    return .field f s (← term (d.item 3))
  | "lam" =>
    let s ← sort (d.item 1)
    let ps ← telescope term (d.item 2)
    return .lam s ps (← term (d.item 3))
  | "pi" =>
    let s ← sort (d.item 1)
    let ps ← telescope term (d.item 2)
    return .pi s ps (← term (d.item 3))
  | "sigma" =>
    let s ← sort (d.item 1)
    return .sigma ⟨s, ← telescope term (d.item 2)⟩
  | "tuple" =>
    let us ← listOf term (d.item 1)
    let type ← term (d.item 2)
    match type.node with
    | .sigma s => return .tuple us ⟨type.stamp, s⟩
    | _ => Exchange.malformed "sigma type expected"
  | "proj" =>
    let t ← term (d.item 1)
    return .proj t (← int64 (d.item 2))
  | "univ" => return .univ (← sort (d.item 1))
  | "new" =>
    let renewed ← orNull term (d.item 1)
    let type ← term (d.item 2)
    match type.node with
    | .record r => return .new renewed ⟨type.stamp, r⟩
    | _ => Exchange.malformed "record type expected"
  | "let" =>
    let strict ← bool (d.item 1)
    let clauses ← listOf (letClause term) (d.item 2)
    return .letIn strict clauses (← term (d.item 3))
  | "case" =>
    let strict ← bool (d.item 1)
    let params ← telescope term (d.item 2)
    let resultType ← term (d.item 3)
    let levelProof ← orNull term (d.item 4)
    let elim ← orNull (elim term fuel) (d.item 5)
    let args ← listOf term (d.item 6)
    return .case { strict, params, resultType, levelProof, elim, args }
  | "oftype" =>
    let t ← term (d.item 1)
    return .ofType t (← term (d.item 2))
  | "int" => return .int (← require "integer" (← text (d.item 1)).toInt?)
  | "error" => return .hole false (← orNull term (d.item 1))
  | "goal" => return .hole true (← orNull term (d.item 1))
  | "subst" =>
    let t ← term (d.item 1)
    let m ← mapping term (d.item 2)
    return .delayed t m (← levels (d.item 3))
  | form => Exchange.malformed s!"unknown term {form}"

end Parts

/-! ## Terms -/

/-- A term. Forms that stand for more than one new node come first. -/
def termWithin : Nat → Datum → Exchange Term
  | 0, _ => throw (.fault .outOfFuel)
  | fuel + 1, d => do
    match d.item 0 with
    | .text "share" => Exchange.lookup Session.terms (← text (d.item 1))
    | .text "nat" => natType
    | .text "zero" => zeroTerm
    | .text "suc" => sucTerm (← termWithin fuel (d.item 1))
    | .text "path" =>
      let s ← sort (d.item 1)
      let type ← termWithin fuel (d.item 2)
      let a ← termWithin fuel (d.item 3)
      let b ← termWithin fuel (d.item 4)
      equalityTerm s type a b
    | .text "class" => recordType (termWithin fuel) d
    | _ => Core.build (← node (termWithin fuel) fuel d)

def term : Datum → Exchange Term := termWithin depthLimit

/-- The body of a function. -/
def body (d : Datum) : Exchange Body := do
  match ← text (d.item 0) with
  | "expr" => return .expr (← term (d.item 1))
  | "elim" => return .elim (← elim term depthLimit (d.item 1))
  | "interval" =>
    let ps ← telescope term (d.item 1)
    let ends ← listOf (pair (orNull term) (orNull term)) (d.item 2)
    return .interval ps ends (← orNull (elim term depthLimit) (d.item 3))
  | form => Exchange.malformed s!"unknown body {form}"

end Read

end Recheck
