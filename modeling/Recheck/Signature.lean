import Recheck.Table
import Recheck.Term

/-!
# Recheck — signatures

A `Signature` holds the declarations that terms refer to by name: data types with their
constructors, records with their fields, and functions. All of them are polymorphic in
the two standard level variables, and every use instantiates these by a sort argument.

Looking up an undeclared name gives an empty declaration, so that looking up is total.
-/

namespace Recheck

/-- A data type. -/
structure DataDef where
  params : Telescope Term
  sort : USort
  /-- The constructors, in order. -/
  constructors : List ConName

/-- A constructor. If it has patterns, one for each parameter of the data type, it belongs
only to the instances that match them, and its parameters are over the variables of the
patterns instead of those of the data type. -/
structure ConDef where
  data : DataName
  patterns : Option (List (Pattern Term))
  params : Telescope Term

/-- The promise that a record is a type of the given homotopy level as soon as the listed
fields are implemented. -/
structure UseLevel where
  fields : List FieldName
  level : Int64

/-- A record declaration. The types of its fields are over the instance `this`, whose type
is the record type without implementations. -/
structure RecordDef where
  /-- The fields, in order; a field may refer to the ones before it. -/
  fields : List FieldName
  sort : USort
  this : Var
  thisType : Term
  useLevels : List UseLevel
  universes : UniverseKind

/-- A record field. -/
structure FieldDef where
  record : RecordName
  /-- The type, over the instance of the record. -/
  type : Term
  /-- Whether the field is irrelevant for the equality of record values. -/
  property : Bool
  universes : UniverseKind

/-- The body of a function. -/
inductive Body where
  | expr (t : Term)
  | elim (e : Elim Term)
  /-- Values at the two ends of interval parameters, and a match for everything else. -/
  | interval (params : Telescope Term) (ends : List (Option Term × Option Term))
      (otherwise : Option (Elim Term))

/-- A function. Without a body it is an assumption. -/
structure FuncDef where
  params : Telescope Term
  resultType : Term
  body : Option Body

instance : Inhabited DataDef := ⟨⟨[], .prop, []⟩⟩
instance : Inhabited ConDef := ⟨⟨default, none, []⟩⟩
instance : Inhabited RecordDef := ⟨⟨[], .prop, default, default, [], .none⟩⟩
instance : Inhabited FieldDef := ⟨⟨default, default, false, .none⟩⟩
instance : Inhabited FuncDef := ⟨⟨[], default, none⟩⟩

/-- The declarations in force. -/
structure Signature where
  dataDefs : Table DataDef
  conDefs : Table ConDef
  recordDefs : Table RecordDef
  fieldDefs : Table FieldDef
  funcDefs : Table FuncDef
deriving Inhabited

namespace Signature

variable (sig : Signature)

/-! ## Looking up -/

def data (d : DataName) : DataDef := (sig.dataDefs.get? d.serial).getD default

def con (c : ConName) : ConDef := (sig.conDefs.get? c.serial).getD default

def record (r : RecordName) : RecordDef := (sig.recordDefs.get? r.serial).getD default

def field (f : FieldName) : FieldDef := (sig.fieldDefs.get? f.serial).getD default

def func (f : FuncName) : FuncDef := (sig.funcDefs.get? f.serial).getD default

/-- The variables that the data arguments of a constructor instantiate, with their types:
those of its patterns, or else the parameters of the data type. -/
def dataColumns (c : ConName) : List (Column Term) :=
  match (sig.con c).patterns with
  | none => (sig.data (sig.con c).data).params.columns
  | some ps => (Pattern.bindingsOf ps).map fun b => .ofTyped b.1 b.2

/-- The constructor of a data type that is printed as `name`. -/
def constructorNamed (d : DataName) (name : String) : Option ConName :=
  (sig.data d).constructors.find? fun c => c.name == name

/-- The field of a record that is printed as `name`. -/
def fieldNamed (r : RecordName) (name : String) : Option FieldName :=
  (sig.record r).fields.find? fun f => f.name == name

/-- The homotopy level that a record is promised to have once the given fields are
implemented; the first promise that applies counts. -/
def useLevel (r : RecordName) (isImplemented : FieldName → Bool) : Option Int64 :=
  ((sig.record r).useLevels.find? fun u => u.fields.all isImplemented).map UseLevel.level

/-- The instance parameter that the types of the fields of a record are over. -/
def thisParam (r : RecordName) : Param Term :=
  ⟨(sig.record r).this, some (sig.record r).thisType, true⟩

/-- The implemented fields of a record type, in the order of the declaration. -/
def implemented (r : RecordType Term) : List FieldName :=
  (sig.record r.record).fields.filter r.isImplemented

/-- The other fields of a record type, in the order of the declaration. -/
def notImplemented (r : RecordType Term) : List FieldName :=
  (sig.record r.record).fields.filter fun f => !r.isImplemented f

/-! ## Declaring -/

def setData (d : DataName) (decl : DataDef) : Signature :=
  { sig with dataDefs := sig.dataDefs.insert d.serial decl }

def setRecord (r : RecordName) (decl : RecordDef) : Signature :=
  { sig with recordDefs := sig.recordDefs.insert r.serial decl }

def setFunc (f : FuncName) (decl : FuncDef) : Signature :=
  { sig with funcDefs := sig.funcDefs.insert f.serial decl }

/-- Lists a constructor under a data type, whichever data type it was declared for. -/
def listConstructor (d : DataName) (c : ConName) : Signature :=
  let decl := sig.data d
  sig.setData d { decl with constructors := decl.constructors ++ [c] }

/-- Declares a constructor of its data type. -/
def addConstructor (c : ConName) (decl : ConDef) : Signature :=
  let sig := sig.listConstructor decl.data c
  { sig with conDefs := sig.conDefs.insert c.serial decl }

/-- Declares a field of its record. -/
def addField (f : FieldName) (decl : FieldDef) : Signature :=
  let rdecl := sig.record decl.record
  let sig := sig.setRecord decl.record { rdecl with fields := rdecl.fields ++ [f] }
  { sig with fieldDefs := sig.fieldDefs.insert f.serial decl }

def addUseLevel (r : RecordName) (u : UseLevel) : Signature :=
  let decl := sig.record r
  sig.setRecord r { decl with useLevels := decl.useLevels ++ [u] }

/-- Gives a function another body. -/
def setBody (f : FuncName) (body : Option Body) : Signature :=
  sig.setFunc f { sig.func f with body }

end Signature

end Recheck
