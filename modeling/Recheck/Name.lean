/-!
# Recheck — names

Everything that can be referred to carries a serial number next to the text that is
printed for it. Two things are the same exactly if their names are equal, serial
number included; the text alone identifies nothing.

`Var` names what a term binds or refers to by reference, `DefName` what a signature
declares, and `Variable` either of them: the keys of a mapping and the things that an
occurrence search looks for.
-/

namespace Recheck

/-- What introduced a variable. -/
inductive VarKind where
  /-- A parameter of a telescope or of a pattern. -/
  | param
  /-- A variable outside of any telescope, such as the instance of a record type. -/
  | given
  /-- A clause of a let expression, standing for its definition. -/
  | clause
  /-- A placeholder for a term that is still to be found. -/
  | unknown
deriving DecidableEq, Repr, Inhabited

/-- A variable. -/
structure Var where
  serial : Nat
  kind : VarKind
  name : String
deriving DecidableEq, Repr, Inhabited

/-- What a signature can declare. -/
inductive DefKind where
  | data
  | con
  | record
  | field
  | func
deriving DecidableEq, Repr, Inhabited

/-- The name of a declaration of a given kind. -/
structure DefName (kind : DefKind) where
  serial : Nat
  name : String
deriving DecidableEq, Repr, Inhabited

/-- The name of a data type. -/
abbrev DataName := DefName .data

/-- The name of a constructor. -/
abbrev ConName := DefName .con

/-- The name of a record declaration. -/
abbrev RecordName := DefName .record

/-- The name of a record field. -/
abbrev FieldName := DefName .field

/-- The name of a function. -/
abbrev FuncName := DefName .func

/-- What a mapping can replace and an occurrence search can find. -/
inductive Variable where
  | local (x : Var)
  | field (f : FieldName)
  | func (f : FuncName)
  | data (d : DataName)
  | con (c : ConName)
  | record (r : RecordName)
deriving DecidableEq, Repr, Inhabited

namespace Variable

/-- The text that is printed. -/
def name : Variable → String
  | .local x => x.name
  | .field f => f.name
  | .func f => f.name
  | .data d => d.name
  | .con c => c.name
  | .record r => r.name

/-- The variable, unless a declaration is meant. -/
def var? : Variable → Option Var
  | .local x => some x
  | _ => none

end Variable

end Recheck
