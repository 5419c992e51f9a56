/-!
# Recheck — relations and three-valued answers

`Relation` is what is asked of a comparison, `Decision` is the answer of a question
that may have to wait until more is known.
-/

namespace Recheck

/-- The relation requested of a comparison. Relations arrive as codes, and codes
beyond the three known ones are carried along: only comparing levels by one of them is
a fault. -/
inductive Relation where
  | eq
  | le
  | ge
  | other (code : Int64)
deriving DecidableEq, Repr, Inhabited

namespace Relation

/-- The relation with a given code. -/
def ofCode (code : Int64) : Relation :=
  if code = 0 then .eq
  else if code = 1 then .le
  else if code = 2 then .ge
  else .other code

/-- The relation with its sides exchanged. -/
def flip : Relation → Relation
  | .le => .ge
  | .ge => .le
  | r => r

def text : Relation → String
  | .eq => "=="
  | .le => "<="
  | .ge => ">="
  | .other code => s!"CMP({code})"

end Relation

/-- A three-valued answer; `maybe` waits for an unresolved unknown. -/
inductive Decision where
  | no
  | yes
  | maybe
deriving DecidableEq, Repr, Inhabited

namespace Decision

def ofCode? (code : Int64) : Option Decision :=
  if code = 0 then some .no
  else if code = 1 then some .yes
  else if code = 2 then some .maybe
  else none

def text : Decision → String
  | .no => "no"
  | .yes => "yes"
  | .maybe => "maybe"

/-- Conjunction: one `no` decides, and one `maybe` keeps the answer open. -/
def and : Decision → Decision → Decision
  | .no, _ | _, .no => .no
  | .maybe, _ | _, .maybe => .maybe
  | .yes, .yes => .yes

end Decision

end Recheck
