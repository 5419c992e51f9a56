import Recheck.Typing.Monad

/-!
# Recheck — sessions

A `Session` is what a dialogue about terms builds up: the declarations, the store, and
the ids under which things were entered. Each kind of thing has ids of its own. An id
entered again stands for the later thing from then on, and what refers to the earlier
thing goes on referring to it.

Mappings, equations and contexts can be changed after they were entered. Their ids stand
for numbers, and a number for the thing as it is now: that of a mapping in the store, and
those of equations and contexts in a `Pool`.

What is printed for a thing is its id up to the first `@`, so that `x@1` and `x@2` are
two things that are both printed `x`.

`Exchange` is the monad of the operations on a session. The changes made before a
failure are kept.
-/

namespace Recheck

/-- Things by their ids, the latest first. -/
abbrev Directory (A : Type) := List (String × A)

/-- Things that can be changed after they were entered, by numbers that stay the same. -/
structure Pool (A : Type) where
  numbers : Directory Nat
  values : Table A

namespace Pool

variable {A : Type}

def empty : Pool A := ⟨[], .empty⟩

/-- Changes the thing with a number. -/
def set (p : Pool A) (number : Nat) (a : A) : Pool A :=
  { p with values := p.values.insert number a }

/-- Lets an id stand for a number. -/
def enter (p : Pool A) (id : String) (number : Nat) : Pool A :=
  { p with numbers := (id, number) :: p.numbers }

end Pool

/-- The options of a checker that was entered. -/
structure CheckerOptions where
  /-- The number of the context, if there is one. -/
  context : Option Nat
  /-- The number of the equations. -/
  equations : Nat
  /-- The depth of the trace, if it was asked for. -/
  trace : Option Int64
  span : Span

/-- What a dialogue about terms has built up. -/
structure Session where
  sig : Signature
  store : Store
  vars : Directory Var
  /-- The ids of variables, by their serial numbers. -/
  varIds : Table String
  /-- The declared types of parameters and given variables, by their serial numbers. -/
  declared : Table (Option Term)
  /-- The ids of declarations with their kinds in front, by their serial numbers. -/
  defIds : Table String
  terms : Directory Term
  telescopes : Directory (Telescope Term)
  elims : Directory (Elim Term)
  datas : Directory DataName
  cons : Directory ConName
  records : Directory RecordName
  fields : Directory FieldName
  funcs : Directory FuncName
  /-- The numbers of shared mappings. -/
  mappings : Directory Nat
  equations : Pool Equations
  contexts : Pool Context
  checkers : Directory CheckerOptions

/-- A session in which nothing but the prelude has been entered. -/
def Session.new : Session where
  sig := Prelude.signature
  store := Prelude.store
  vars := []
  varIds := .empty
  declared := .empty
  defIds :=
    ⟨[(Prelude.nat.serial, "data:Nat"), (Prelude.zero.serial, "con:Nat.zero"),
      (Prelude.suc.serial, "con:Nat.suc"), (Prelude.empty.serial, "data:Empty"),
      (Prelude.equality.serial, "fun:=")]⟩
  terms := []
  telescopes := []
  elims := []
  datas := [("Nat", Prelude.nat), ("Empty", Prelude.empty)]
  cons := [("Nat.zero", Prelude.zero), ("Nat.suc", Prelude.suc)]
  records := []
  fields := []
  funcs := [("=", Prelude.equality)]
  mappings := []
  equations := .empty
  contexts := .empty
  checkers := []

/-- Why an operation on a session fails. -/
inductive Refusal where
  /-- The data handed in make no sense. -/
  | malformed (text : String)
  | fault (f : Fault)

instance : Inhabited Refusal := ⟨.malformed ""⟩

/-- Operations on a session. -/
abbrev Exchange := EStateM Refusal Session

namespace Exchange

def malformed {A : Type} (text : String) : Exchange A := throw (.malformed text)

/-- An operation on terms as one on a session. -/
def ofCore {A : Type} (x : Core A) : Exchange A := fun s =>
  match x s.store with
  | .ok a store => .ok a { s with store }
  | .error e store => .error (.fault e) { s with store }

instance : MonadLift Core Exchange := ⟨ofCore⟩

/-! ## Looking up -/

/-- What is printed for the thing with an id. -/
def printedName (id : String) : String := (id.takeWhile (· ≠ '@')).toString

/-- The thing with an id. -/
def lookup {A : Type} (directory : Session → Directory A) (id : String) : Exchange A := do
  match (directory (← get)).lookup id with
  | some a => return a
  | none => malformed s!"unknown id {id}"

def var : String → Exchange Var := lookup Session.vars

/-- The thing with a number. -/
def current {A : Type} (pool : Session → Pool A) (number : Nat) : Exchange A := do
  match (pool (← get)).values.get? number with
  | some a => return a
  | none => malformed s!"unknown number {number}"

/-- The number of the equations with an id. -/
def equationsNumber : String → Exchange Nat := lookup fun s => s.equations.numbers

/-- The number of the context with an id. -/
def contextNumber : String → Exchange Nat := lookup fun s => s.contexts.numbers

def equations : Nat → Exchange Equations := current Session.equations

def context : Nat → Exchange Context := current Session.contexts

/-- The telescope with an id `T`, or what is left of it after `n` parameters for `T+n`.
Nothing is left out for a negative number. -/
def telescope (id : String) : Exchange (Telescope Term) := do
  let telescopes := (← get).telescopes
  match telescopes.lookup id with
  | some ps => return ps
  | none =>
    let parts := id.splitOn "+"
    match telescopes.lookup ("+".intercalate parts.dropLast),
        parts.getLast?.bind String.toInt? with
    | some ps, some n => return ps.drop n.toNat
    | _, _ => malformed s!"unknown id {id}"

/-- A variable. All but the local ones are written with their kind in front. -/
def variableOf (text : String) : Exchange Variable := do
  let id (kind : String) : String := (text.drop kind.length).toString
  if text.startsWith "field:" then return .field (← lookup Session.fields (id "field:"))
  else if text.startsWith "fun:" then return .func (← lookup Session.funcs (id "fun:"))
  else if text.startsWith "data:" then return .data (← lookup Session.datas (id "data:"))
  else if text.startsWith "con:" then return .con (← lookup Session.cons (id "con:"))
  else if text.startsWith "class:" then return .record (← lookup Session.records (id "class:"))
  else return .local (← var text)

/-- The type that a parameter or a given variable was declared with. -/
def declaredType (x : Var) : Exchange (Option Term) := do
  return ((← get).declared.get? x.serial).join

/-! ## Entering -/

/-- Enters a variable. The empty id is none. -/
def enterVar (id : String) (x : Var) : Exchange Unit :=
  unless id.isEmpty do
    modify fun s =>
      { s with vars := (id, x) :: s.vars, varIds := s.varIds.insert x.serial id }

/-- Records the type that a parameter or a given variable is declared with. -/
def declareType (x : Var) (type : Option Term) : Exchange Unit :=
  modify fun s => { s with declared := s.declared.insert x.serial type }

def enterTerm (id : String) (t : Term) : Exchange Unit :=
  modify fun s => { s with terms := (id, t) :: s.terms }

def enterTelescope (id : String) (ps : Telescope Term) : Exchange Unit :=
  modify fun s => { s with telescopes := (id, ps) :: s.telescopes }

def enterElim (id : String) (e : Elim Term) : Exchange Unit :=
  modify fun s => { s with elims := (id, e) :: s.elims }

/-- Enters a mapping. One that is shared stays the same under both ids. -/
def enterMapping (id : String) (r : MappingRef Term) : Exchange Unit := do
  let number ← match r with
    | .own m => ofCore (Core.newMapping m)
    | .shared number => pure number
  modify fun s => { s with mappings := (id, number) :: s.mappings }

/-- Changes the mapping with an id. -/
def updateMapping (id : String) (f : Mapping Term → Mapping Term) : Exchange Unit := do
  let number ← lookup Session.mappings id
  let m ← ofCore (Core.mapping (.shared number))
  modify fun s => { s with store := s.store.setMapping number (f m) }

def setEquations (number : Nat) (eqs : Equations) : Exchange Unit :=
  modify fun s => { s with equations := s.equations.set number eqs }

/-- New equations, without an id. -/
def newEquations (levelsOnly deferLevels : Bool) : Exchange Nat := do
  let number ← ofCore Core.fresh
  setEquations number (.new levelsOnly deferLevels)
  return number

def enterEquations (id : String) (number : Nat) : Exchange Unit :=
  modify fun s => { s with equations := s.equations.enter id number }

def setContext (number : Nat) (Γ : Context) : Exchange Unit :=
  modify fun s => { s with contexts := s.contexts.set number Γ }

def enterChecker (id : String) (options : CheckerOptions) : Exchange Unit :=
  modify fun s => { s with checkers := (id, options) :: s.checkers }

/-- A new parameter. -/
def newParam (id : String) : Exchange Var := do
  let x ← Core.freshVar .param (printedName id)
  enterVar id x
  return x

/-- A new variable outside of any telescope. -/
def newGiven (id : String) (type : Option Term) : Exchange Unit := do
  let x ← Core.freshVar .given (printedName id)
  enterVar id x
  declareType x type

/-- A new let clause. -/
def newClause (id : String) (expr : Term) (type : Option Term) : Exchange Var := do
  let x ← Core.newClause (printedName id) expr type
  enterVar id x
  return x

/-- A new unknown. -/
def newUnknown (id : String) (type : Option Term) (delaying : Bool) (span : Span)
    (bounds : List Var) : Exchange Unit := do
  let v ← Core.newUnknown (printedName id) type delaying span bounds
  enterVar id v

/-- A new context of the given variables; one that is listed twice counts once. -/
def newContext (id : String) (xs : List Var) : Exchange Context := do
  let Γ ← xs.foldlM (fun (Γ : Context) x => do
    return (Γ.add? x (← declaredType x)).getD Γ) .empty
  let number ← ofCore Core.fresh
  setContext number Γ
  modify fun s => { s with contexts := s.contexts.enter id number }
  return Γ

/-- Adds a variable to a context; the answer is whether it was not in there yet. -/
def addToContext (number : Nat) (x : Var) : Exchange Bool := do
  match (← context number).add? x (← declaredType x) with
  | none => return false
  | some Γ =>
    setContext number Γ
    return true

/-! ## Solving and checking -/

/-- An operation of a solver on equations as one on a session. -/
def solve {A : Type} (number : Nat) (f : Signature → Solver A) : Exchange A := do
  let eqs ← equations number
  let s ← get
  let keep (st : SolverState) : Session :=
    { s with store := st.store, equations := s.equations.set number st.equations }
  match f s.sig ⟨s.store, eqs⟩ with
  | .ok a st => set (keep st); return a
  | .error e st => set (keep st); throw (.fault e)

/-- What came out of a check. -/
structure Verdict (A : Type) where
  result : Except TypeError A
  /-- The number of variables in the context, if there is one. -/
  contextSize : Option Nat
  /-- The lines of the trace, if it was asked for. -/
  trace : Option (List String)

/-- Runs a check with the context and the equations of a checker. -/
def check {A : Type} (options : CheckerOptions) (f : Checker → Context → Check A) :
    Exchange (Verdict A) := do
  let Γ ← options.context.mapM context
  let eqs ← equations options.equations
  let s ← get
  let keep (st : CheckState) : Session :=
    { s with
      store := st.solver.store
      equations := s.equations.set options.equations st.solver.equations }
  let verdict (st : CheckState) (result : Except TypeError A) : Verdict A :=
    ⟨result, Γ.map Context.size, options.trace.map fun _ => st.trace.toList⟩
  let k : Checker := ⟨s.sig, options.span, options.trace.getD 0⟩
  match f k (Γ.getD .empty) ⟨⟨s.store, eqs⟩, #[]⟩ with
  | .ok a st => set (keep st); return verdict st (.ok a)
  | .error (.error e) st => set (keep st); return verdict st (.error e)
  | .error (.fault e) st => set (keep st); throw (.fault e)

/-! ## Declaring -/

/-- A new name of a declaration. -/
def newDef (kind : DefKind) (name idWithKind : String) : Exchange (DefName kind) := do
  let serial ← Core.fresh
  modify fun s => { s with defIds := s.defIds.insert serial idWithKind }
  return ⟨serial, printedName name⟩

def modifySignature (f : Signature → Signature) : Exchange Unit :=
  modify fun s => { s with sig := f s.sig }

def declareData (id : String) (params : Telescope Term) (sort : USort) : Exchange Unit := do
  let d ← newDef .data id s!"data:{id}"
  modifySignature fun sig => sig.setData d ⟨params, sort, []⟩
  modify fun s => { s with datas := (id, d) :: s.datas }

def declareConstructor (dataId name : String) (patterns : Option (List (Pattern Term)))
    (params : Telescope Term) : Exchange Unit := do
  let data ← lookup Session.datas dataId
  let c ← newDef .con name s!"con:{dataId}.{name}"
  modifySignature fun sig => sig.addConstructor c ⟨data, patterns, params⟩
  modify fun s => { s with cons := (s!"{dataId}.{name}", c) :: s.cons }

/-- Declares a record without fields. Its instance is entered under the id with `.this`
behind it. -/
def declareRecord (id : String) (sort : USort) (universes : UniverseKind) : Exchange Unit := do
  let r ← newDef .record id s!"class:{id}"
  let this ← Core.freshVar .param "this"
  enterVar s!"{id}.this" this
  let type ← newRecordType r .std sort .none
  let thisType ← Core.build (.record type)
  declareType this (some thisType)
  modifySignature fun sig => sig.setRecord r ⟨[], sort, this, thisType, [], universes⟩
  modify fun s => { s with records := (id, r) :: s.records }

def declareField (recordId name : String) (type : Term) (property : Bool)
    (universes : UniverseKind) : Exchange Unit := do
  let record ← lookup Session.records recordId
  let f ← newDef .field name s!"field:{recordId}.{name}"
  modifySignature fun sig => sig.addField f ⟨record, type, property, universes⟩
  modify fun s => { s with fields := (s!"{recordId}.{name}", f) :: s.fields }

/-- Enters a function that is yet to be declared, so that it can be referred to. -/
def newFunc (id : String) : Exchange FuncName := do
  let f ← newDef .func id s!"fun:{id}"
  modify fun s => { s with funcs := (id, f) :: s.funcs }
  return f

end Exchange

end Recheck
