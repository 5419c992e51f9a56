import Recheck.Pattern

/-!
# Recheck — terms

A `Term` is a node with a stamp. Terms are immutable trees, and the stamp says which
node it is: a traversal that has nothing to do hands back the node it was given, and a
comparison is settled as soon as it meets one node on both sides. Building a node always
takes a new stamp, so equal stamps mean equal terms.

Four constructors lead out of the tree and into the store:

* `unknown`, an occurrence of a placeholder, whose solution is kept under its stamp;
* `letIn`, whose clauses are variables that stand for definitions;
* `ref`, when it refers to such a clause;
* `delayed`, when the mapping of the substitution is shared.

The types that share a head and a list of arguments with something else (constructor
and data type applications, sigma types, record types) are structures of their own.
-/

namespace Recheck

/-- A finite map from variables to what replaces them, each variable at most once. -/
structure Mapping (T : Type) where
  entries : List (Variable × T)

/-- The mapping of a delayed substitution. -/
inductive MappingRef (T : Type) where
  /-- A mapping of its own. -/
  | own (m : Mapping T)
  /-- A mapping that is kept in the store under a number, where it may be changed. All that
  refer to it see the change. -/
  | shared (number : Nat)

/-- A dependent tuple type. -/
structure SigmaType (T : Type) where
  sort : USort
  params : List (Param T)

/-- A data type applied to all of its arguments. -/
structure DataType (T : Type) where
  data : DataName
  sortArg : USort
  args : List T

/-- A constructor applied to all of its arguments. `dataArgs` instantiate the parameters
of the data type, or the variables of the patterns of a constructor that has some. -/
structure ConApp (T : Type) where
  con : ConName
  sortArg : USort
  dataArgs : List T
  args : List T

/-- A record type in which some fields are implemented. The implementations may refer to
`this`, the instance. -/
structure RecordType (T : Type) where
  record : RecordName
  sortArg : USort
  impls : List (FieldName × T)
  sort : USort
  universes : UniverseKind
  this : Var

/-- A pattern match on `args`. The parameters are in scope of the result type and of the
level proof, a proof that the result type has a bounded homotopy level. -/
structure CaseOf (T : Type) where
  strict : Bool
  params : List (Param T)
  resultType : T
  levelProof : Option T
  elim : Option (Elim T)
  args : List T

/-- Something with an identity of its own. -/
structure Stamped (A : Type) where
  stamp : Nat
  val : A

/-- The forms of terms, over an arbitrary type of subterms. -/
inductive Node (T : Type) where
  /-- A reference to a variable. -/
  | ref (x : Var)
  | app (fn arg : T)
  /-- A function applied to all of its arguments. -/
  | call (f : FuncName) (sortArg : USort) (args : List T)
  | con (c : ConApp T)
  | data (d : DataType T)
  /-- The projection of a record field. -/
  | field (f : FieldName) (sortArg : USort) (arg : T)
  | record (r : RecordType T)
  | lam (sort : USort) (params : List (Param T)) (body : T)
  | pi (sort : USort) (params : List (Param T)) (codomain : T)
  | sigma (s : SigmaType T)
  | tuple (fields : List T) (type : Stamped (SigmaType T))
  /-- The projection of a tuple component, counted from zero. -/
  | proj (t : T) (index : Int64)
  | univ (sort : USort)
  /-- A record value, made anew or from an earlier one. -/
  | new (renewed : Option T) (type : Stamped (RecordType T))
  /-- A let expression; each clause is in scope of the ones after it. -/
  | letIn (strict : Bool) (clauses : List Var) (body : T)
  | case (c : CaseOf T)
  | ofType (t type : T)
  /-- A literal natural number. -/
  | int (n : Int)
  /-- A term that could not be built, or a goal that is left open, perhaps with a part
  that could. -/
  | hole (goal : Bool) (part : Option T)
  /-- An occurrence of an unknown. -/
  | unknown (v : Var)
  /-- A substitution that waits for the unknown beneath it. -/
  | delayed (t : T) (exprs : MappingRef T) (levels : LevelSubst)

/-- A term. -/
inductive Term where
  | mk (stamp : Nat) (node : Node Term)

instance : Inhabited Term := ⟨.mk 0 (.hole false none)⟩

namespace Term

/-- The identity of the node. -/
def stamp : Term → Nat
  | .mk s _ => s

/-- The form of the node. -/
def node : Term → Node Term
  | .mk _ n => n

/-- Whether two terms are one and the same node. -/
def same (t u : Term) : Bool := t.stamp == u.stamp

end Term

/-- The sigma type of a tuple as a term. -/
def Stamped.sigma (s : Stamped (SigmaType Term)) : Term := .mk s.stamp (.sigma s.val)

/-- The record type of a record value as a term. -/
def Stamped.record (r : Stamped (RecordType Term)) : Term := .mk r.stamp (.record r.val)

/-! ## Mappings -/

namespace Mapping

variable {T : Type}

def empty : Mapping T := ⟨[]⟩

instance : Inhabited (Mapping T) := ⟨empty⟩

def isEmpty (m : Mapping T) : Bool := m.entries.isEmpty

/-- What replaces a variable, if anything does. -/
def get? (m : Mapping T) (v : Variable) : Option T := m.entries.lookup v

def contains (m : Mapping T) (v : Variable) : Bool := (m.get? v).isSome

/-- The mapping without a variable. -/
def erase (m : Mapping T) (v : Variable) : Mapping T :=
  ⟨m.entries.filter fun e => e.1 ≠ v⟩

/-- Entries with a variable mapped to a term, in place of its entry or behind all others. -/
def place (v : Variable) (t : T) : List (Variable × T) → List (Variable × T)
  | [] => [(v, t)]
  | e :: es => if e.1 = v then (v, t) :: es else e :: place v t es

/-- Maps a variable, in place of what it was mapped to before. -/
def insert (m : Mapping T) (v : Variable) (t : T) : Mapping T := ⟨place v t m.entries⟩

/-- The mapping of a single variable. -/
def single (v : Variable) (t : T) : Mapping T := empty.insert v t

/-- Maps variables to terms, pair by pair, as far as both lists go. -/
def insertVars (m : Mapping T) : List Var → List T → Mapping T
  | x :: xs, t :: ts => (m.insert (.local x) t).insertVars xs ts
  | _, _ => m

/-- All entries of another mapping, in place of entries for the same variables. -/
def insertAll (m other : Mapping T) : Mapping T :=
  other.entries.foldr (fun e m => m.insert e.1 e.2) m

/-- The part of the mapping on the variables to keep. -/
def restrict (m : Mapping T) (keep : Variable → Bool) : Mapping T :=
  ⟨m.entries.filter fun e => keep e.1⟩

/-- The entries in the order of the printed names of their variables. -/
def sortedEntries (m : Mapping T) : List (Variable × T) :=
  m.entries.mergeSort fun a b => a.1.name ≤ b.1.name

end Mapping

/-! ## Record types -/

namespace RecordType

variable {T : Type}

/-- The implementation of a field, in terms of `this`. -/
def impl? (r : RecordType T) (f : FieldName) : Option T := r.impls.lookup f

def isImplemented (r : RecordType T) (f : FieldName) : Bool := (r.impl? f).isSome

/-- Implements a field, in place of an earlier implementation. -/
def implement (r : RecordType T) (f : FieldName) (t : T) : RecordType T :=
  { r with impls := r.impls.filter (fun e => e.1 ≠ f) ++ [(f, t)] }

end RecordType

end Recheck
