/-!
# Recheck — faults

A fault is a broken precondition: an operation was asked for something that no
well-formed input asks for, and there is no meaningful answer. Faults are kept apart
from checking failures, which are ordinary answers about ill-typed terms.

`Fault.message` holds all of the wording.
-/

namespace Recheck

/-- The reasons why an operation has no answer at all. -/
inductive Fault where
  /-- A function type was instantiated with more arguments than it has parameters. -/
  | tooManyArguments
  /-- A telescope was to be copied without a mapping to record the copies in. -/
  | missingMapping
  /-- Levels were compared by a relation that is none of the known ones. -/
  | unknownRelation (code : Int64)
  /-- The type of a parameter was asked for, but no typed parameter follows it. -/
  | untypedParam (name : String)
  /-- A span was looked up in an empty list of files. -/
  | noFiles
  /-- A span reaches outside of all files. -/
  | spanOutOfRange
  /-- A span ends before it begins. -/
  | reversedSpan
  /-- The two ends of a span lie in different files. -/
  | severalFiles
  /-- A tuple component in front of the first one was asked for. -/
  | negativeIndex (index : Int64)
  /-- A term has a shape on which the operation is not defined. -/
  | malformed
  /-- The bound on the depth of a computation was reached. -/
  | outOfFuel
deriving DecidableEq, Repr, Inhabited

/-- The wording of a fault; the last three faults have none. -/
def Fault.message : Fault → Option String
  | .tooManyArguments => some "too many arguments"
  | .missingMapping => some "nil ExprSubst"
  | .unknownRelation code => some s!"bad CMP: {code}"
  | .untypedParam name =>
    some s!"impossible: untyped link at the end of a telescope: {name}"
  | .noFiles => some "no files"
  | .spanOutOfRange => some "out of range"
  | .reversedSpan => some "bad Loc"
  | .severalFiles => some "multi-file Loc"
  | .negativeIndex _ | .malformed | .outOfFuel => none

/-- The wording for a term whose type is not kept by a substitution as what it has to be. No
operation gets there: tuples and record values have types of the right form in them. -/
def Fault.shapeMessage (term want : String) : String :=
  s!"substitution into {term} did not preserve {want}"

/-- What a message says about a fault that came up while it was worded. -/
def Fault.reason (f : Fault) : String :=
  match f with
  | .negativeIndex index => s!"runtime error: index out of range [{index}]"
  | f => f.message.getD "runtime error: invalid memory address or nil pointer dereference"

end Recheck
