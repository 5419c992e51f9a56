import Recheck.Equations
import Recheck.Printer

/-!
# Recheck — failures of the checker

A check fails with a `TypeError`: the rule that was violated, the terms involved and
notes that explain it. `TypeError.message` has all of the wording except the notes, which
are worded where the rules are.
-/

namespace Recheck

/-- The kinds of violated rules. -/
inductive Cause where
  | typeMismatch
  | unbound
  | alreadyBound
  | malformedLevelProof
  | nonExhaustive
  | tooManyPatterns
  | tooFewPatterns
  | fieldCoverage
  | sortMismatch
  | universeKind
  | sortOverflow
  | impossibleElimination
  | dataTypeNotEmpty
  | missingBody
  | expectedConstructor
  | cannotInferSort
  | unknownError
deriving DecidableEq, Repr, Inhabited

namespace Cause

/-- All causes, in the order of their codes. -/
def all : List Cause :=
  [.typeMismatch, .unbound, .alreadyBound, .malformedLevelProof, .nonExhaustive,
    .tooManyPatterns, .tooFewPatterns, .fieldCoverage, .sortMismatch, .universeKind,
    .sortOverflow, .impossibleElimination, .dataTypeNotEmpty, .missingBody,
    .expectedConstructor, .cannotInferSort, .unknownError]

def ofCode? (code : Int64) : Option Cause :=
  if code < 0 then none else all[code.toInt.toNat]?

def text : Cause → String
  | .typeMismatch => "type mismatch"
  | .unbound => "unbound variable"
  | .alreadyBound => "variable already bound"
  | .malformedLevelProof => "malformed level proof"
  | .nonExhaustive => "non-exhaustive patterns"
  | .tooManyPatterns => "too many patterns"
  | .tooFewPatterns => "too few patterns"
  | .fieldCoverage => "fields not implemented"
  | .sortMismatch => "sort mismatch"
  | .universeKind => "universe kind mismatch"
  | .sortOverflow => "sort overflow"
  | .impossibleElimination => "impossible elimination"
  | .dataTypeNotEmpty => "data type is not empty"
  | .missingBody => "missing body"
  | .expectedConstructor => "expected a constructor"
  | .cannotInferSort => "cannot infer sort"
  | .unknownError => "unknown error"

/-- The text of the cause with a given code. -/
def describe (code : Int64) : String :=
  match ofCode? code with
  | some c => c.text
  | none => s!"Cause({code})"

end Cause

/-- A violated rule. -/
structure TypeError where
  cause : Cause
  /-- The offending term. -/
  term : Option Term
  /-- What was expected, a term or a description; empty if nothing in particular was. -/
  expected : String
  /-- What was found instead. -/
  actual : Option Term
  /-- The offending record field. -/
  field : Option FieldName
  notes : List String
  span : Span
deriving Inhabited

namespace TypeError

/-- An error about a term. -/
def about (cause : Cause) (term : Option Term) (span : Span) : TypeError :=
  ⟨cause, term, "", none, none, [], span⟩

/-- A mismatch of types at a term. -/
def mismatch (term : Option Term) (expected : String) (actual : Term) (span : Span) :
    TypeError :=
  ⟨.typeMismatch, term, expected, some actual, none, [], span⟩

/-- The error with one more note. -/
def note (e : TypeError) (text : String) : TypeError := { e with notes := e.notes ++ [text] }

/-- The error in words: the cause and what was expected on the first line, then the term
and the notes on lines of their own. -/
def message (sig : Signature) (fuel : Nat) (e : TypeError) : Core String := do
  let field := e.field.elim "" fun f => ": " ++ f.name
  let mut expected := ""
  if e.expected ≠ "" then
    expected := ": expected " ++ e.expected
    if let some t := e.actual then
      expected := expected ++ ", got " ++ (← t.print sig fuel)
  let mut term := ""
  if let some t := e.term then
    term := "\n\tin " ++ (← t.print sig fuel)
  let notes := String.join (e.notes.map fun n => "\n\t" ++ n)
  return e.cause.text ++ field ++ expected ++ term ++ notes

end TypeError

/-- How a check can end without a type. -/
inductive Failure where
  | fault (f : Fault)
  | error (e : TypeError)
deriving Inhabited

end Recheck
