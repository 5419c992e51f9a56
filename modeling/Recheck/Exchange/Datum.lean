/-!
# Recheck — plain data

Terms are handed in and out as trees of plain data: truth values, integers, texts and
lists. `Exchange.Reader` says how a tree is read as a term, and `Exchange.Writer` how a
term is written as one.
-/

namespace Recheck

/-- A tree of plain data. -/
inductive Datum where
  | null
  | bool (b : Bool)
  | int (n : Int)
  | text (s : String)
  | list (ds : List Datum)

namespace Datum

instance : Inhabited Datum := ⟨null⟩

/-- An item of a list. What is missing is null. -/
def item (d : Datum) (i : Nat) : Datum :=
  match d with
  | .list ds => ds[i]?.getD .null
  | _ => .null

/-- The items of a list. Null is the empty list. -/
def items? : Datum → Option (List Datum)
  | .null => some []
  | .list ds => some ds
  | _ => none

/-- An integer. Null is zero. -/
def int? : Datum → Option Int
  | .null => some 0
  | .int n => some n
  | _ => none

/-- A truth value. Null is false. -/
def bool? : Datum → Option Bool
  | .null => some false
  | .bool b => some b
  | _ => none

def text? : Datum → Option String
  | .text s => some s
  | _ => none

def ofInt64 (n : Int64) : Datum := .int n.toInt

def ofNat (n : Nat) : Datum := .int n

def texts (ss : List String) : Datum := .list (ss.map .text)

end Datum

end Recheck
