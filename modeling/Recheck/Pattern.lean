import Recheck.Name
import Recheck.USort

/-!
# Recheck — telescopes, patterns and decision trees

The binding structure of terms, for an arbitrary type `T` of types and bodies.

* A `Telescope` is a list of parameters. A parameter without a type of its own shares
  that of the next typed one, so `(x y : A)` is an untyped `x` before a typed `y`. The
  type of a parameter may mention the parameters before it.
* A `Pattern` matches one scrutinee and binds the variables in it.
* A `Tree` is a pattern match compiled into successive decisions. It runs on a stack of
  arguments: each node binds its parameters to the topmost arguments, and a branch then
  takes one more argument, chooses a child by the head of it and pushes the arguments of
  the head.
* An `Elim` is a pattern match by clauses, with or without the tree compiled from them.
-/

namespace Recheck

/-! ## Telescopes -/

/-- A parameter of a telescope. -/
structure Param (T : Type) where
  var : Var
  /-- The type, unless it is shared with the next typed parameter. -/
  type : Option T
  explicit : Bool

/-- A list of parameters, each in scope of the ones after it. -/
abbrev Telescope (T : Type) := List (Param T)

/-- A parameter together with the type it has in its telescope; there is none if no
typed parameter follows. -/
structure Column (T : Type) where
  param : Param T
  type : Option T

namespace Column

variable {T : Type}

def var (c : Column T) : Var := c.param.var

/-- A typed parameter. -/
def ofTyped (x : Var) (type : T) : Column T := ⟨⟨x, some type, true⟩, some type⟩

end Column

namespace Telescope

variable {T : Type}

/-- The type of the first parameter. -/
def headType (ps : Telescope T) : Option T := ps.findSome? Param.type

/-- The parameters with their types. -/
def columns : Telescope T → List (Column T)
  | [] => []
  | p :: ps => ⟨p, headType (p :: ps)⟩ :: columns ps

/-- The variables that the telescope binds, in order. -/
def vars (ps : Telescope T) : List Var := ps.map Param.var

end Telescope

/-! ## Patterns -/

/-- A pattern. -/
inductive Pattern (T : Type) where
  /-- Matches anything and binds it to a variable of the given type. -/
  | bind (x : Var) (type : T)
  /-- Matches anything and binds nothing. -/
  | wild
  /-- Asserts that the type of the scrutinee is empty. -/
  | absurd
  /-- Matches a constructor applied to arguments. -/
  | con (c : ConName) (args : List (Pattern T))
  /-- Matches a tuple component by component. -/
  | tuple (args : List (Pattern T))
  /-- Matches a record value; the arguments match the listed fields in order. -/
  | record (fields : List FieldName) (args : List (Pattern T))

namespace Pattern

variable {T : Type}

mutual

/-- The variables that a pattern binds, with their types, from left to right. -/
@[simp] def bindings : Pattern T → List (Var × T)
  | .bind x type => [(x, type)]
  | .wild | .absurd => []
  | .con _ args | .tuple args | .record _ args => bindingsOf args

/-- The bindings of a list of patterns. -/
def bindingsOf : List (Pattern T) → List (Var × T)
  | [] => []
  | p :: ps => p.bindings ++ bindingsOf ps

end

mutual

/-- Whether an absurd pattern occurs in the pattern. -/
def hasAbsurd : Pattern T → Bool
  | .absurd => true
  | .bind .. | .wild => false
  | .con _ args | .tuple args | .record _ args => anyAbsurd args

/-- Whether an absurd pattern occurs in a list of patterns. -/
def anyAbsurd : List (Pattern T) → Bool
  | [] => false
  | p :: ps => p.hasAbsurd || anyAbsurd ps

end

/-- Whether the pattern needs parentheses as the argument of a constructor. -/
def isCompound : Pattern T → Bool
  | .con _ (_ :: _) => true
  | _ => false

mutual

def text : Pattern T → String
  | .bind x _ => x.name
  | .wild => "_"
  | .absurd => "()"
  | .con c args => c.name ++ argTexts args
  | .tuple args | .record _ args => "(" ++ ", ".intercalate (texts args) ++ ")"

/-- The texts of a list of patterns. -/
def texts : List (Pattern T) → List String
  | [] => []
  | p :: ps => p.text :: texts ps

/-- The arguments of a constructor, each after a blank. -/
def argTexts : List (Pattern T) → String
  | [] => ""
  | p :: ps =>
    let arg := if p.isCompound then "(" ++ p.text ++ ")" else p.text
    " " ++ arg ++ argTexts ps

end

/-- A list of patterns, divided by commas. -/
def rowText (ps : List (Pattern T)) : String := ", ".intercalate (texts ps)

end Pattern

/-! ## Pattern matches -/

/-- What a branch of a decision tree selects by. -/
inductive BranchKey where
  /-- A constructor. -/
  | con (c : ConName)
  /-- The tuples with a number of components. -/
  | tuple (size : Int64)
  /-- The values of a record declaration; the implemented fields are not pushed. -/
  | record (r : RecordName) (sort : USort) (implemented : List FieldName)
deriving DecidableEq, Repr, Inhabited

namespace BranchKey

def text : BranchKey → String
  | .con c => c.name
  | .tuple size => s!"tuple {size}"
  | .record r _ _ => r.name

end BranchKey

/-- A decision tree. -/
inductive Tree (T : Type) where
  | leaf (params : List (Param T)) (body : T)
  | branch (params : List (Param T)) (children : List (BranchKey × Tree T))

/-- The parameters that a node binds. -/
def Tree.params {T : Type} : Tree T → Telescope T
  | .leaf ps _ | .branch ps _ => ps

/-- A clause of a pattern match. -/
structure Clause (T : Type) where
  patterns : List (Pattern T)
  /-- The body, missing in a clause with an absurd pattern. -/
  body : Option T

/-- A pattern match. The stamp tells apart matches that were written separately. -/
structure Elim (T : Type) where
  stamp : Nat
  clauses : List (Clause T)
  tree : Option (Tree T)

end Recheck
