import Recheck.Fault
import Recheck.Relation

/-!
# Recheck — universe levels

A level is infinity, a constant, or `max (v + c) m` for a level variable `v` that
ranges over the non-negative integers. Constants are machine words and wrap around.

Comparison is decided syntactically where it can be. The remaining cases go to a
parameter, `undecided`: a strict reader answers `false` there, and a solver may record
the comparison as an obligation. `Level.compareWith` is the one body behind both.
-/

namespace Recheck

/-- A universe level variable. -/
structure LevelVar where
  name : String
deriving DecidableEq, Repr, Inhabited

namespace LevelVar

/-- The standard predicative level variable, over which definitions are polymorphic. -/
def predicative : LevelVar := ⟨"lp"⟩

/-- The standard homotopy level variable, over which definitions are polymorphic. -/
def homotopy : LevelVar := ⟨"lh"⟩

end LevelVar

/-- A universe level. -/
inductive Level where
  /-- The level above every other. -/
  | infinity
  /-- A constant. -/
  | closed (c : Int64)
  /-- The level `max (v + c) m`. -/
  | var (v : LevelVar) (c m : Int64)
deriving DecidableEq, Repr, Inhabited

/-- A finite map from level variables to levels, each variable at most once. -/
structure LevelSubst where
  entries : List (LevelVar × Level)
deriving DecidableEq, Repr, Inhabited

namespace Level

/-- The level of a bare variable. -/
def ofVar (v : LevelVar) : Level := .var v 0 0

/-- The level `max (v + c) m`, in the form where the bound is at least the constant. -/
def bounded (v : LevelVar) (c m : Int64) : Level :=
  .var v c (if m ≤ c then c else m)

def isInfinity : Level → Bool
  | .infinity => true
  | _ => false

/-- Whether the level is a constant; infinity is not. -/
def isClosed : Level → Bool
  | .closed _ => true
  | _ => false

/-- The least value of `max (v + c) m`. -/
def bound (c m : Int64) : Int64 := if m < c then c else m

/-- Equality of levels; a bound below the constant is the same as none. -/
def equal : Level → Level → Bool
  | .infinity, .infinity => true
  | .closed a, .closed b => a == b
  | .var v c m, .var w d n => v == w && c == d && bound c m == bound d n
  | _, _ => false

/-- The level raised by a constant. -/
def add (l : Level) (n : Int64) : Level :=
  if n = 0 then l
  else match l with
    | .infinity => .infinity
    | .closed c => .closed (c + n)
    | .var v c m => bounded v (c + n) (m + n)

/-- The least upper bound; with two different variables there is none to be written. -/
def max? : Level → Level → Option Level
  | .infinity, _ | _, .infinity => some .infinity
  | .closed a, .closed b => some (.closed (max a b))
  | .closed a, .var w d n => some (bounded w d (max n a))
  | .var v c m, .closed b => some (bounded v c (max m b))
  | .var v c m, .var w d n =>
    if v = w then some (bounded v (max c d) (max m n)) else none

/-- The least upper bound of a level and a constant. -/
def atLeast (l : Level) (k : Int64) : Level :=
  match l with
  | .infinity => .infinity
  | .closed c => .closed (max c k)
  | .var v c m => bounded v c (max m k)

def text : Level → String
  | .infinity => "\\oo"
  | .closed c => toString c
  | .var v c m =>
    let shifted :=
      if 0 < c then s!"{v.name}+{c}"
      else if c < 0 then s!"{v.name}{c}"
      else v.name
    if c < m then s!"\\max {shifted} {m}" else shifted

end Level

namespace LevelSubst

/-- The identity. -/
def empty : LevelSubst := ⟨[]⟩

def isEmpty (s : LevelSubst) : Bool := s.entries.isEmpty

/-- The level that replaces a variable, if any. -/
def get? (s : LevelSubst) (v : LevelVar) : Option Level := s.entries.lookup v

/-- Maps a variable to a level, in place of an earlier one. -/
def insert (s : LevelSubst) (v : LevelVar) (l : Level) : LevelSubst :=
  ⟨s.entries.filter (fun e => e.1 ≠ v) ++ [(v, l)]⟩

def ofList (entries : List (LevelVar × Level)) : LevelSubst :=
  entries.foldl (fun s e => s.insert e.1 e.2) empty

end LevelSubst

/-- The level with its variable replaced. A bound above the constant stays a lower
bound of the result. -/
def Level.subst (l : Level) (s : LevelSubst) : Level :=
  match l with
  | .var v c m =>
    match s.get? v with
    | none => l
    | some r => if c < m then (r.add c).atLeast m else r.add c
  | _ => l

/-- The substitution that acts like `s` and then like `o`. -/
def LevelSubst.compose (s o : LevelSubst) : LevelSubst :=
  ⟨s.entries.map (fun e => (e.1, e.2.subst o)) ++
    o.entries.filter (fun e => (s.get? e.1).isNone)⟩

namespace Level

/-- Decides `a ≤ b` as far as the two levels alone tell. -/
def le : Level → Level → Decision
  | _, .infinity => .yes
  | .infinity, _ => .no
  | .closed a, .closed b => if a ≤ b then .yes else .no
  | .closed a, .var _ d n => if a ≤ bound d n then .yes else .maybe
  | .var .., .closed _ => .maybe
  | .var v c m, .var w d n =>
    if v = w ∧ c ≤ d ∧ bound c m ≤ bound d n then .yes else .maybe

section Compare

variable {m : Type → Type} [Monad m] [MonadExceptOf Fault m]

/-- Compares two levels. `undecided` answers for equations that do not hold on the nose
and for inequalities that hang on the values of variables; it is never asked about
`ge`, which is `le` with the sides exchanged. -/
def compareWith (undecided : Relation → Level → Level → m Bool) :
    Relation → Level → Level → m Bool
  | .ge, a, b => leWith b a
  | .le, a, b => leWith a b
  | .eq, a, b => if a.equal b then pure true else undecided .eq a b
  | .other code, _, _ => throw (.unknownRelation code)
where
  /-- The case `a ≤ b`. -/
  leWith (a b : Level) : m Bool :=
    match a.le b with
    | .yes => pure true
    | .no => pure false
    | .maybe => undecided .le a b

end Compare

/-- Compares two levels and refuses what cannot be decided. -/
def compare : Relation → Level → Level → Except Fault Bool :=
  compareWith fun _ _ _ => pure false

end Level

end Recheck
