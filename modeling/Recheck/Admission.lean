import Recheck.Reduction

/-!
# Recheck — constructors of a data type

A constructor with patterns belongs only to those instances of its data type whose
arguments match the patterns. This module decides which constructors an instance admits,
and goes back from a constructor application to the instance that it belongs to.
-/

namespace Recheck

/-- Whether an instance of a data type admits a constructor. -/
inductive Admission where
  /-- Admitted, with the data arguments of an application of the constructor. -/
  | admitted (dataArgs : List Term)
  | refused
  /-- An argument that the patterns look at has no constructor at its head. -/
  | undetermined

mutual

/-- The term that a pattern of a constructor declaration matches. Tuple, record and absurd
patterns and wildcards have none and become holes. -/
def Pattern.toTerm : Pattern Term → Core Term
  | .bind x _ => Core.build (.ref x)
  | .con c args => do
    let args ← Pattern.toTerms args
    Core.build (.con ⟨c, .set0, [], args⟩)
  | .wild | .absurd | .tuple _ | .record .. => Core.build (.hole false none)

/-- The terms that patterns match. -/
def Pattern.toTerms : List (Pattern Term) → Core (List Term)
  | [] => return []
  | p :: ps => do
    let t ← p.toTerm
    return t :: (← Pattern.toTerms ps)

end

section Operations

variable (sig : Signature) (fuel : Nat)

/-- Whether an instance of a data type admits a constructor. -/
def DataType.admission (d : DataType Term) (c : ConName) : Core Admission := do
  match (sig.con c).patterns with
  | none => return .admitted d.args
  | some ps =>
    match ← matchPatterns sig fuel ps d.args with
    | .no => return .refused
    | .maybe _ => return .undetermined
    | .yes m =>
      return .admitted ((Pattern.bindingsOf ps).filterMap fun b => m.get? (.local b.1))

/-- The constructors among the given ones that an instance admits, with their data
arguments; none at all if one of them is undetermined. -/
def DataType.admittedAmong (d : DataType Term) :
    List ConName → Core (Option (List (ConName × List Term)))
  | [] => return some []
  | c :: cs => do
    match ← d.admission sig fuel c with
    | .undetermined => return none
    | .refused => d.admittedAmong cs
    | .admitted dataArgs => return (← d.admittedAmong cs).map ((c, dataArgs) :: ·)

/-- The constructors that an instance of a data type admits. -/
def DataType.admitted (d : DataType Term) : Core (Option (List (ConName × List Term))) :=
  d.admittedAmong sig fuel (sig.data d.data).constructors

/-- The data arguments of a constructor in place of the variables they instantiate. -/
def Signature.dataMapping (c : ConName) (dataArgs : List Term) : Mapping Term :=
  Mapping.empty.insertVars ((sig.dataColumns c).map Column.var) dataArgs

/-- The instance of its data type that a constructor application belongs to. -/
def ConApp.dataType (c : ConApp Term) : Core (DataType Term) := do
  let decl := sig.con c.con
  match decl.patterns with
  | none => return ⟨decl.data, c.sortArg, c.dataArgs⟩
  | some ps =>
    let σ := Substitution.ofMapping (sig.dataMapping c.con c.dataArgs)
    let args ← ps.mapM fun p => do (← p.toTerm).subst sig fuel σ
    return ⟨decl.data, c.sortArg, args⟩

end Operations

end Recheck
