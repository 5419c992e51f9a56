import Recheck.Equations
import Recheck.Reduction

/-!
# Recheck — unknowns and their occurrences

An unknown is a placeholder with a type and bounds, the variables that a solution may
refer to. It occurs in terms through references, each of which is solved once and behaves
from then on exactly like its solution.
-/

namespace Recheck

/-- Why an occurrence cannot be solved. -/
inductive ResolveError where
  | noSolution
  | alreadySolved (v : Var)
deriving DecidableEq, Repr

def ResolveError.message : ResolveError → String
  | .noSolution => "nil solution"
  | .alreadySolved v => s!"{v.name}: inference variable already solved"

namespace Core

/-- A new unknown. -/
def newUnknown (name : String) (type : Option Term) (delaying : Bool) (span : Span)
    (bounds : List Var) : Core Var := do
  let v ← freshVar .unknown name
  setUnknown v ⟨type, bounds, delaying, span, false⟩
  return v

/-- A new reference to an unknown. -/
def newOccurrence (v : Var) : Core Term := build (.unknown v)

/-- Solves an occurrence of the unknown `v`, which is possible only once. -/
def resolve (t : Term) (v : Var) (u : Option Term) : Core (Except ResolveError Unit) := do
  match u, ← solution? t with
  | none, _ => return .error .noSolution
  | some _, some _ => return .error (.alreadySolved v)
  | some u, none =>
    solve t u
    return .ok ()

end Core

section Introduction

variable (sig : Signature) (fuel : Nat)

/-- Equates the projections of an unknown record with the implementations that its type
prescribes, properties apart. -/
def equateFields (v : Var) (span : Span) (ref : Term) (r : RecordType Term) :
    List FieldName → Solver Unit
  | [] => return ()
  | f :: fs => do
    if !(sig.field f).property then
      match ← r.implementation sig fuel f ref with
      | none => pure ()
      | some impl =>
        let a ← makeField sig fuel f r.sortArg ref
        let b ← impl.whnf sig fuel
        let type ← fieldTypeAt sig fuel f r.sortArg ref
        let rhs ← impl.stuckUnknown sig fuel
        let _ ← Solver.addEquation ⟨a, b, some type, .eq, span, some v, rhs⟩
    equateFields v span ref r fs

/-- A new reference to an unknown. If its type is a record type with fields, what the type
prescribes becomes equations, and the type of the unknown is widened to the record type
without implementations. -/
def introduce (v : Var) : Solver Term := do
  let ref ← Core.newOccurrence v
  if !(← Solver.acceptsTerms) then return ref
  let u ← Core.unknown v
  Core.setUnknown v { u with introduced := true }
  let type ← match u.type with
    | none => throw .malformed
    | some type => type.whnf sig fuel
  let widened ← match type.node with
    | .record r =>
      let decl := sig.record r.record
      if decl.fields.isEmpty then pure type
      else
        equateFields sig fuel v u.span ref r decl.fields
        let wide ← newRecordType r.record r.sortArg (decl.sort.subst r.sortArg.instantiation)
          r.universes
        Core.build (.record wide)
    | _ => pure type
  let u ← Core.unknown v
  Core.setUnknown v { u with type := some widened }
  return ref

end Introduction

end Recheck
