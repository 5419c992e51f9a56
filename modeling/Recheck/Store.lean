import Recheck.Signature
import Recheck.Span

/-!
# Recheck — the store

Terms are immutable, but four kinds of things behind them are not, and they live in the
store: the definitions of let clauses, the types and bounds of unknowns, the solutions of
their occurrences, and shared mappings. The store also hands out serial numbers and
stamps.

`Core` is the monad of all operations on terms: it can change the store and end in a
fault. The changes made before a fault are kept.
-/

namespace Recheck

/-- What a let clause stands for. -/
structure LetClause where
  expr : Term
  /-- The type, unless it is left to be inferred. -/
  type : Option Term
deriving Inhabited

/-- A placeholder for a term that is still to be found. -/
structure Unknown where
  type : Option Term
  /-- The variables that a solution may refer to. -/
  bounds : List Var
  /-- Whether substitutions are delayed until the unknown is solved, rather than narrowing
  its bounds. -/
  delaying : Bool
  span : Span
  /-- Whether a reference was introduced through a solver that takes equations. -/
  introduced : Bool
deriving Inhabited

/-- A shared mapping. Substitutions extend it while they are carried out, and keep a log of
that: the variables they have mapped, the last one first, and what each was mapped to before. -/
structure Shared where
  mapping : Mapping Term
  undo : List (Variable × Option Term)
deriving Inhabited

namespace Shared

/-- Maps a variable, which is put in the log. -/
def bind (m : Shared) (v : Variable) (t : Term) : Shared :=
  ⟨m.mapping.insert v t, (v, m.mapping.get? v) :: m.undo⟩

/-- How far the log goes. -/
def mark (m : Shared) : Nat := m.undo.length

/-- Undoes the entries of a log down to a mark, the last one first. -/
def undoTo (mark : Nat) (m : Mapping Term) : List (Variable × Option Term) → Shared
  | [] => ⟨m, []⟩
  | (v, old) :: undo =>
    if undo.length < mark then ⟨m, (v, old) :: undo⟩
    else undoTo mark (match old with | some t => m.insert v t | none => m.erase v) undo

/-- Undoes what has been put in the log since a mark was taken. -/
def release (mark : Nat) (m : Shared) : Shared := undoTo mark m.mapping m.undo

/-- Strikes from the log what has been put in it since a mark was taken. -/
def commit (mark : Nat) (m : Shared) : Shared :=
  ⟨m.mapping, m.undo.drop (m.undo.length - mark)⟩

end Shared

/-- The state behind terms. -/
structure Store where
  /-- The next serial number or stamp. -/
  next : Nat
  /-- The let clauses, by the serial numbers of their variables. -/
  clauses : Table LetClause
  /-- The unknowns, by the serial numbers of their variables. -/
  unknowns : Table Unknown
  /-- The solutions of occurrences of unknowns, by their stamps. -/
  solutions : Table Term
  /-- The shared mappings, by their numbers. -/
  mappings : Table Shared
deriving Inhabited

/-- The store in which the numbers below are taken and nothing else has happened. -/
def Store.start (next : Nat) : Store := ⟨next, .empty, .empty, .empty, .empty⟩

/-- The entries of a mapping as they are now. -/
def Store.mapping? (s : Store) : MappingRef Term → Option (Mapping Term)
  | .own m => some m
  | .shared number => (s.mappings.get? number).map Shared.mapping

/-- Sets the entries of a shared mapping. -/
def Store.setMapping (s : Store) (number : Nat) (m : Mapping Term) : Store :=
  { s with mappings := s.mappings.insert number ⟨m, []⟩ }

/-- Changes a shared mapping, if there is one of that number. -/
def Store.updateMapping (s : Store) (number : Nat) (f : Shared → Shared) : Store :=
  match s.mappings.get? number with
  | some m => { s with mappings := s.mappings.insert number (f m) }
  | none => s

/-- Operations on terms. -/
abbrev Core := EStateM Fault Store

/-- The bound on the depth of computations that programs set. -/
def depthLimit : Nat := 1000000

namespace Core

/-- A number that was never handed out before. -/
def fresh : Core Nat :=
  modifyGet fun s => (s.next, { s with next := s.next + 1 })

/-- A new node. -/
def build (n : Node Term) : Core Term := return .mk (← fresh) n

/-- A new variable. -/
def freshVar (kind : VarKind) (name : String) : Core Var := return ⟨← fresh, kind, name⟩

/-- What a let clause stands for. -/
def clause (x : Var) : Core LetClause := do
  match (← get).clauses.get? x.serial with
  | some c => return c
  | none => throw .malformed

def setClause (x : Var) (c : LetClause) : Core Unit :=
  modify fun s => { s with clauses := s.clauses.insert x.serial c }

/-- A new let clause. -/
def newClause (name : String) (expr : Term) (type : Option Term) : Core Var := do
  let x ← freshVar .clause name
  setClause x ⟨expr, type⟩
  return x

/-- The state of an unknown. -/
def unknown (v : Var) : Core Unknown := do
  match (← get).unknowns.get? v.serial with
  | some u => return u
  | none => throw .malformed

def setUnknown (v : Var) (u : Unknown) : Core Unit :=
  modify fun s => { s with unknowns := s.unknowns.insert v.serial u }

/-- Strikes variables from the bounds of an unknown. -/
def removeBounds (v : Var) (xs : List Var) : Core Unit := do
  let u ← unknown v
  setUnknown v { u with bounds := u.bounds.filter fun x => x ∉ xs }

/-- The solution of an occurrence of an unknown. -/
def solution? (t : Term) : Core (Option Term) :=
  return (← get).solutions.get? t.stamp

/-- Solves an occurrence of an unknown. -/
def solve (t u : Term) : Core Unit :=
  modify fun s => { s with solutions := s.solutions.insert t.stamp u }

/-- The entries of a mapping as they are now. -/
def mapping (r : MappingRef Term) : Core (Mapping Term) := do
  match (← get).mapping? r with
  | some m => return m
  | none => throw .malformed

/-- A new shared mapping. -/
def newMapping (m : Mapping Term) : Core Nat := do
  let number ← fresh
  modify fun s => s.setMapping number m
  return number

end Core

/-- The type of a parameter, which is a fault if there is none. -/
def Column.typeM (c : Column Term) : Core Term :=
  match c.type with
  | some t => return t
  | none => throw (.untypedParam c.var.name)

/-- The type of the first parameter of a telescope. -/
def Telescope.headTypeM : Telescope Term → Core Term
  | [] => throw .malformed
  | p :: ps => Column.typeM ⟨p, Telescope.headType (p :: ps)⟩

end Recheck
