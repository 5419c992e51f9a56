import Recheck.Substitution

/-!
# Recheck — record types and their values

The types of the fields of a record are over its instance. This module instantiates them:
at a given instance (`fieldTypeAt`), and without one, as a telescope of the fields that
are left to implement (`fieldParams`), in which every projection of the instance has been
replaced by the implementation of the field or by the parameter that stands for it.
-/

namespace Recheck

section Records

variable (sig : Signature) (fuel : Nat)

/-- The type of a field on an instance. -/
def fieldTypeAt (f : FieldName) (sortArg : USort) (this : Term) : Core Term :=
  let decl := sig.field f
  decl.type.subst sig fuel
    (.of (.single (.local (sig.record decl.record).this) this) sortArg.instantiation)

/-- The function from an instance of a record type to a term over that instance. -/
def overThis (r : Stamped (RecordType Term)) (body : Term) : Core Term := do
  let x ← Core.freshVar .param "this"
  let ref ← Core.build (.ref x)
  let body ← body.subst sig fuel (.single r.val.this ref)
  Core.build (.lam .omega [⟨x, some r.record, true⟩] body)

/-- The parameters for the given fields of a record type. Projections of the instance are
replaced according to the mapping, which gains each field in turn. -/
def fieldParamsFrom (r : Stamped (RecordType Term)) :
    Mapping Term → List FieldName → Core (Telescope Term)
  | _, [] => return []
  | m, f :: fs => do
    let this ← Core.build (.ref r.val.this)
    let type ← fieldTypeAt sig fuel f r.val.sortArg this
    let type ← type.subst sig fuel (.ofMapping m)
    let x ← Core.freshVar .param f.name
    let ref ← Core.build (.ref x)
    let projection ← overThis sig fuel r ref
    let rest ← fieldParamsFrom r (m.insert (.field f) projection) fs
    return ⟨x, some type, true⟩ :: rest

/-- A telescope with one parameter for each field of a record type that is not
implemented. -/
def fieldParams (r : Stamped (RecordType Term)) : Core (Telescope Term) := do
  let m ← r.val.impls.foldlM (fun (m : Mapping Term) (e : FieldName × Term) => do
    let projection ← overThis sig fuel r e.2
    return m.insert (.field e.1) projection) Mapping.empty
  fieldParamsFrom sig fuel r m (sig.notImplemented r.val)

/-- Implements the fields of `copy` as in `r`, over the instance of `copy`, and the fields
that `r` leaves open by the arguments in order. -/
def implementAll (r : RecordType Term) (this : Term) :
    RecordType Term → List FieldName → List Term → Core (RecordType Term)
  | copy, [], _ => return copy
  | copy, f :: fs, args => do
    match ← r.implementation sig fuel f this with
    | some impl => implementAll r this (copy.implement f impl) fs args
    | none =>
      match args with
      | [] => throw .malformed
      | arg :: args => implementAll r this (copy.implement f arg) fs args

/-- The record value of a record type whose open fields are the arguments. -/
def makeRecord (r : RecordType Term) (args : List Term) : Core Term := do
  let copy ← newRecordType r.record r.sortArg r.sort r.universes
  let this ← Core.build (.ref copy.this)
  let full ← implementAll sig fuel r this copy (sig.record r.record).fields args
  Core.build (.new none ⟨← Core.fresh, full⟩)

end Records

end Recheck
