import Recheck.Prelude
import Recheck.Substitution

/-!
# Recheck — printing terms

Terms are printed for diagnostics. A solved unknown prints as its solution and a delayed
substitution as what it comes to, so printing takes place in `Core`; an unsolved one
prints as the unknown followed by the substitution in brackets.
-/

namespace Recheck

/-- Whether a term can stand in argument position without parentheses. -/
def Term.isAtomic (sig : Signature) : Nat → Term → Core Bool
  | 0, _ => throw .outOfFuel
  | fuel + 1, t => do
    match t.node with
    | .ref _ | .tuple .. | .univ _ | .int _ | .hole .. | .ofType .. | .proj ..
    | .field .. => return true
    | .sigma s => return s.params.isEmpty
    | .call _ _ args => return args.isEmpty
    | .con c => return c.args.isEmpty
    | .data d => return d.args.isEmpty
    | .record r => return r.impls.isEmpty
    | .unknown _ =>
      match ← Core.solution? t with
      | none => return true
      | some u => u.isAtomic sig fuel
    | .delayed u exprs levels =>
      let e ← expandDelayed sig fuel u exprs levels
      e.isAtomic sig fuel
    | .app .. | .lam .. | .pi .. | .new .. | .letIn .. | .case _ => return false

namespace Printer

section Step

variable (sig : Signature) (fuel : Nat) (self : Term → Core String)

/-- A term in argument position. -/
def arg (t : Term) : Core String := do
  if ← t.isAtomic sig fuel then self t
  else return "(" ++ (← self t) ++ ")"

/-- Arguments, each after a blank. -/
def args : List Term → Core String
  | [] => return ""
  | t :: ts => do
    let first ← arg sig fuel self t
    let rest ← args ts
    return " " ++ first ++ rest

/-- Terms divided by commas. -/
def commas (ts : List Term) : Core String :=
  return ", ".intercalate (← ts.mapM self)

/-- A telescope. Parameters that share a type are grouped, in braces if the first of them
is implicit; `group` says whether a group is open and how. -/
def params (group : Option Bool) : Telescope Term → Core String
  | [] => if group.isSome then throw .malformed else return ""
  | p :: ps => do
    let explicit := group.getD p.explicit
    let opening :=
      if group.isSome then "" else if explicit then "(" else "\x7b"
    match p.type with
    | none => return opening ++ p.var.name ++ " " ++ (← params (some explicit) ps)
    | some type =>
      let type ← self type
      let closing := if explicit then ")" else "\x7d"
      let rest ← params none ps
      let gap := if ps.isEmpty then "" else " "
      return opening ++ p.var.name ++ " : " ++ type ++ closing ++ gap ++ rest

/-- The implementations of a record type, in the order of the declaration. -/
def impls (r : RecordType Term) : Core String := do
  let texts ← (sig.implemented r).filterMapM fun f =>
    (r.impl? f).mapM fun impl => return " | " ++ f.name ++ " => " ++ (← self impl)
  if texts.isEmpty then return ""
  return " \x7b" ++ String.join texts ++ " \x7d"

/-- A record type. -/
def recordType (r : RecordType Term) : Core String :=
  return r.record.name ++ (← impls sig self r)

/-- The clauses of a let expression. -/
def clauses (xs : List Var) : Core String := do
  let texts ← xs.mapM fun x => return x.name ++ " => " ++ (← self (← Core.clause x).expr)
  return " | ".intercalate texts

/-- The arguments of a case expression with the names of the parameters. -/
def scrutinees : List Term → Telescope Term → Core (List String)
  | [], _ => return []
  | t :: ts, [] => return (← self t) :: (← scrutinees ts [])
  | t :: ts, p :: ps =>
    return ((← self t) ++ " \\as " ++ p.var.name) :: (← scrutinees ts ps)

/-- A clause of a pattern match. -/
def clause (c : Clause Term) : Core String := do
  let head := " | " ++ Pattern.rowText c.patterns
  match c.body with
  | none => return head
  | some body => return head ++ " => " ++ (← self body)

/-- A case expression. -/
def caseOf (c : CaseOf Term) : Core String := do
  let head := if c.strict then "\\scase " else "\\case "
  let scrutinees ← scrutinees self c.args c.params
  let result ← self c.resultType
  let clauses ← (c.elim.elim [] Elim.clauses).mapM (clause self)
  return head ++ ", ".intercalate scrutinees ++ " \\return " ++ result ++ " \\with \x7b" ++
    String.join clauses ++ " \x7d"

/-- A term, the subterms being left to `self`. -/
def step (t : Term) : Core String := do
  match t.node with
  | .ref x => return x.name
  | .app fn a =>
    let fn ← match fn.node with
      | .app .. => self fn
      | _ => arg sig fuel self fn
    return fn ++ " " ++ (← arg sig fuel self a)
  | .call f _ ts =>
    match t.asEquality with
    | some (_, a, b) =>
      let a ← arg sig fuel self a
      let b ← arg sig fuel self b
      return a ++ " = " ++ b
    | none => return f.name ++ (← args sig fuel self ts)
  | .con c => return c.con.name ++ (← args sig fuel self c.args)
  | .data d => return d.data.name ++ (← args sig fuel self d.args)
  | .field f _ a => return (← arg sig fuel self a) ++ "." ++ f.name
  | .record r => recordType sig self r
  | .lam _ ps body =>
    let ps ← params self none ps
    return "\\lam " ++ ps ++ " => " ++ (← self body)
  | .pi _ ps codomain =>
    let ps ← params self none ps
    return "\\Pi " ++ ps ++ " -> " ++ (← self codomain)
  | .sigma s =>
    if s.params.isEmpty then return "\\Sigma"
    return "\\Sigma " ++ (← params self none s.params)
  | .tuple fields _ => return "(" ++ (← commas self fields) ++ ")"
  | .proj u index => return (← arg sig fuel self u) ++ "." ++ toString (index + 1)
  | .univ sort => return sort.text
  | .new renewed type =>
    let renewed ← match renewed with
      | none => pure ""
      | some u => pure ((← arg sig fuel self u) ++ " ")
    return "\\new " ++ renewed ++ (← recordType sig self type.val)
  | .letIn strict xs body =>
    let head := if strict then "\\let! " else "\\let "
    let clauses ← clauses self xs
    return head ++ clauses ++ " \\in " ++ (← self body)
  | .case c => caseOf self c
  | .ofType u type =>
    let u ← self u
    return "(" ++ u ++ " : " ++ (← self type) ++ ")"
  | .int n => return toString n
  | .hole true _ => return "\x7b?\x7d"
  | .hole false none => return "\x7berror\x7d"
  | .hole false (some u) => return "\x7berror: " ++ (← self u) ++ "\x7d"
  | .unknown v =>
    match ← Core.solution? t with
    | some u => self u
    | none => return v.name
  | .delayed u exprs levels =>
    let e ← expandDelayed sig fuel u exprs levels
    if !e.same u then self e
    else
      let u ← self u
      let entries ← (← Core.mapping exprs).sortedEntries.mapM fun e =>
        return e.1.name ++ " := " ++ (← self e.2)
      return u ++ "[" ++ ", ".intercalate entries ++ "]"

end Step

end Printer

/-- The text of a term. -/
def Term.print (sig : Signature) : Nat → Term → Core String
  | 0, _ => throw .outOfFuel
  | fuel + 1, t => Printer.step sig fuel (Term.print sig fuel) t

/-- The text of a term in a message or a trace. A fault in printing the term does not
spoil the message: the fault is mentioned in place of the term. -/
def Term.quote (sig : Signature) (fuel : Nat) (t : Term) : Core String := fun s =>
  match t.print sig fuel s with
  | .ok text s => .ok text s
  | .error .outOfFuel s => .error .outOfFuel s
  | .error f s => .ok s!"%!s(PANIC=String method: {f.reason})" s

end Recheck
