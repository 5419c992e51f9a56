import Recheck.Level

/-!
# Recheck — universe sorts

A `USort` classifies a universe by its predicative level and its homotopy level. The
homotopy level `-1` is that of propositions, `0` that of sets. A sort of propositions
lies below every sort, whatever its predicative level says.

`UniverseKind` says how a definition may depend on the levels it is instantiated with.
-/

namespace Recheck

/-- The sort of a universe. -/
structure USort where
  /-- The predicative level. -/
  p : Level
  /-- The homotopy level. -/
  h : Level
deriving DecidableEq, Repr, Inhabited

namespace USort

/-- The homotopy level of proof-irrelevant propositions. -/
def propLevel : Int64 := -1

/-- The sort of propositions. -/
def prop : USort := ⟨.closed 0, .closed propLevel⟩

/-- The sort of sets at the lowest predicative level. -/
def set0 : USort := ⟨.closed 0, .closed 0⟩

/-- The sort made of the two standard level variables. -/
def std : USort := ⟨.ofVar .predicative, .ofVar .homotopy⟩

/-- The sort that classifies every type and is not itself classified. -/
def omega : USort := ⟨.infinity, .infinity⟩

/-- The sort with two constant levels. -/
def ofConstants (p h : Int64) : USort := ⟨.closed p, .closed h⟩

/-- The sort of sets at a predicative level. -/
def ofSet (p : Int64) : USort := ofConstants p 0

/-- Whether this is a sort of propositions, at any predicative level. -/
def isProp (s : USort) : Bool :=
  match s.h with
  | .closed h => h ≤ propLevel
  | _ => false

/-- Whether the predicative level is unbounded. -/
def isOmega (s : USort) : Bool := s.p.isInfinity

/-- The sort that the universe of `s` lives in. -/
def succ (s : USort) : USort :=
  if s.isProp then set0 else ⟨s.p.add 1, s.h.add 1⟩

/-- The join of two sorts, if it can be written. -/
def max? (s t : USort) : Option USort :=
  if s.isProp then some t
  else if t.isProp then some s
  else do
    let p ← s.p.max? t.p
    let h ← s.h.max? t.h
    return ⟨p, h⟩

/-- The sort with its level variables replaced. -/
def subst (s : USort) (σ : LevelSubst) : USort := ⟨s.p.subst σ, s.h.subst σ⟩

def equal (s t : USort) : Bool := s.p.equal t.p && s.h.equal t.h

/-- The substitution of the levels of `s` for the standard variables, which is how a
level-polymorphic definition is instantiated. -/
def instantiation (s : USort) : LevelSubst :=
  ⟨[(.predicative, s.p), (.homotopy, s.h)]⟩

section Compare

variable {m : Type → Type} [Monad m] [MonadExceptOf Fault m]

/-- Compares two sorts level by level, the predicative levels first. A sort of
propositions is below every sort and equal to every other sort of propositions. -/
def compareWith (undecided : Relation → Level → Level → m Bool) :
    Relation → USort → USort → m Bool
  | .ge, a, b => leWith b a
  | .le, a, b => leWith a b
  | .eq, a, b => if a.isProp && b.isProp then pure true else levelsWith .eq a b
  | .other code, a, b => levelsWith (.other code) a b
where
  /-- Both pairs of levels; the homotopy levels are looked at only if the predicative
  levels pass. -/
  levelsWith (r : Relation) (a b : USort) : m Bool := do
    if ← Level.compareWith undecided r a.p b.p then
      Level.compareWith undecided r a.h b.h
    else
      return false
  /-- The case `a ≤ b`. -/
  leWith (a b : USort) : m Bool :=
    if a.isProp then pure true else levelsWith .le a b

end Compare

/-- Compares two sorts and refuses what cannot be decided. -/
def compare : Relation → USort → USort → Except Fault Bool :=
  compareWith fun _ _ _ => pure false

/-- A predicative level behind the name of a universe. -/
private def suffix (l : Level) : String :=
  if l.isClosed then l.text else " " ++ l.text

def text (s : USort) : String :=
  if s.isProp then "\\Prop"
  else match s.p, s.h with
    | p, .infinity => "\\oo-Type" ++ suffix p
    | p, .closed h =>
      if h = 0 then "\\Set" ++ suffix p
      else if p.isClosed then s!"\\{h}-Type{p.text}"
      else s!"\\Type ({p.text},{s.h.text})"
    | p, .var .. => s!"\\Type ({p.text},{s.h.text})"

end USort

/-- How a definition may depend on its universe levels, from less to more. -/
inductive UniverseKind where
  | none
  | covariant
  | all
deriving DecidableEq, Repr, Inhabited

namespace UniverseKind

/-- The place in the order of the kinds. -/
def rank : UniverseKind → Nat
  | .none => 0
  | .covariant => 1
  | .all => 2

instance : LT UniverseKind := ⟨fun a b => a.rank < b.rank⟩

instance (a b : UniverseKind) : Decidable (a < b) :=
  inferInstanceAs (Decidable (a.rank < b.rank))

def ofCode? (code : Int64) : Option UniverseKind :=
  if code = 0 then some .none
  else if code = 1 then some .covariant
  else if code = 2 then some .all
  else Option.none

def text : UniverseKind → String
  | .none => "no universes"
  | .covariant => "covariant universes"
  | .all => "universes"

/-- The text of the kind with a given code. -/
def describe (code : Int64) : String :=
  match ofCode? code with
  | some k => k.text
  | Option.none => s!"UniverseKind({code})"

end UniverseKind

end Recheck
