import Recheck.Literal
import Recheck.Typing.Declarations

/-!
# Recheck — the command line

The command checks the declarations of the prelude and exits with a failure if one of
them is ill-typed. Flags are written `-name` or `--name`, with a value after `=` or, if
the flag is not a switch, as the next argument. The first argument that is no flag, or
`--`, ends them.
-/

namespace Recheck

namespace CommandLine

/-! ## Flags -/

/-- What the flags can set. -/
structure Flags where
  /-- Print each declaration as it is checked. -/
  verbose : Bool
  /-- Accept undecided comparisons of levels and print them. -/
  deferLevels : Bool
  traceDepth : Int64
deriving DecidableEq, Repr, Inhabited

/-- The result of reading flags. -/
inductive Parsed where
  /-- The flags, and the arguments after them. -/
  | flags (flags : Flags) (rest : List String)
  /-- The list of flags was asked for. -/
  | help
  /-- Not a flag, a bad value or none. -/
  | invalid
deriving DecidableEq, Repr

/-- The spellings of a truth value. -/
def bool? (text : String) : Option Bool :=
  if text ∈ ["1", "t", "T", "TRUE", "true", "True"] then some true
  else if text ∈ ["0", "f", "F", "FALSE", "false", "False"] then some false
  else none

/-- An argument as a reader of flags sees it. -/
inductive Argument where
  /-- A flag, with the value after its equality sign. -/
  | flag (name : String) (value : Option String)
  /-- The end of the flags, `--`. -/
  | terminator
  /-- Not a flag. -/
  | operand
  /-- A dash or two that nothing sensible follows. -/
  | malformed
deriving DecidableEq, Repr

/-- Divides the name of a flag from its value. A name has at least one character. -/
def splitFlag : List Char → Argument
  | [] | '-' :: _ | '=' :: _ => .malformed
  | c :: cs =>
    let name := String.ofList (c :: cs.takeWhile (· ≠ '='))
    match cs.dropWhile (· ≠ '=') with
    | [] => .flag name none
    | _ :: value => .flag name (some (String.ofList value))

/-- Classifies an argument. A sole dash is no flag. -/
def classify (text : String) : Argument :=
  match text.toList with
  | ['-', '-'] => .terminator
  | '-' :: '-' :: cs => splitFlag cs
  | ['-'] => .operand
  | '-' :: cs => splitFlag cs
  | _ => .operand

/-- Reads flags, later ones in place of earlier ones. -/
def parse (flags : Flags) : List String → Parsed
  | [] => .flags flags []
  | arg :: rest =>
    match classify arg with
    | .operand => .flags flags (arg :: rest)
    | .terminator => .flags flags rest
    | .malformed => .invalid
    | .flag "v" value =>
      match bool? (value.getD "true") with
      | some verbose => parse { flags with verbose } rest
      | none => .invalid
    | .flag "defer-levels" value =>
      match bool? (value.getD "true") with
      | some deferLevels => parse { flags with deferLevels } rest
      | none => .invalid
    | .flag "trace.depth" (some value) =>
      match Literal.int64? value with
      | some traceDepth => parse { flags with traceDepth } rest
      | none => .invalid
    | .flag "trace.depth" none =>
      match rest with
      | [] => .invalid
      | value :: rest =>
        match Literal.int64? value with
        | some traceDepth => parse { flags with traceDepth } rest
        | none => .invalid
    | .flag name _ => if name = "h" ∨ name = "help" then .help else .invalid

/-! ## Checking the prelude -/

/-- What a run of the command writes and how it exits. -/
structure Outcome where
  lines : List String
  exitCode : UInt32
deriving DecidableEq, Repr, Inhabited

/-- What the command has found so far. -/
structure Progress where
  state : CheckState
  lines : List String
  failed : Bool

/-- Runs one check and collects its trace and its error. -/
def checkOne (flags : Flags) (progress : Progress) (name : String) (check : Check Unit) :
    Progress :=
  let heading := if flags.verbose then [name] else []
  let lines (s : CheckState) := progress.lines ++ heading ++ s.trace.toList
  match check { progress.state with trace := #[] } with
  | .ok _ s => { progress with state := s, lines := lines s }
  | .error e s =>
    let report : Check String := do
      match e with
      | .fault f => return f.message.getD ""
      | .error e => e.message Prelude.signature depthLimit
    match report s with
    | .ok text s => ⟨s, lines s ++ [s!"{name}: {text}"], true⟩
    | .error _ s => ⟨s, lines s, true⟩

/-- The lines for the comparisons that were put off, those of levels first. -/
def deferredLines (e : Equations) : Core (List String) := do
  let levels := e.levels.map fun l => "deferred: " ++ l.text
  let terms ← e.deferred.mapM fun q => do
    let a ← q.a.print Prelude.signature depthLimit
    let b ← q.b.print Prelude.signature depthLimit
    return s!"deferred: {a} {q.relation.text} {b}"
  return levels ++ terms

/-- Checks the declarations of the prelude. -/
def checkPrelude (flags : Flags) : Outcome :=
  let k : Checker := ⟨Prelude.signature, .nowhere, flags.traceDepth⟩
  let solver : SolverState := ⟨Prelude.store, .new false flags.deferLevels⟩
  let start : Progress := ⟨⟨solver, #[]⟩, [], false⟩
  let progress :=
    [(Prelude.nat.name, k.checkData depthLimit .empty Prelude.nat),
     (Prelude.empty.name, k.checkData depthLimit .empty Prelude.empty),
     (Prelude.equality.name, k.checkFunc depthLimit .empty Prelude.equality)].foldl
      (fun progress (name, check) => checkOne flags progress name check) start
  let solver := progress.state.solver
  let deferred := match deferredLines solver.equations solver.store with
    | .ok lines _ => lines
    | .error _ _ => []
  ⟨progress.lines ++ deferred, if progress.failed then 1 else 0⟩

/-- Runs the command on its arguments. Help and complaints about flags are not part of the
output; only stray arguments are answered there. -/
def run (args : List String) : Outcome :=
  match parse ⟨false, false, 0⟩ args with
  | .help => ⟨[], 0⟩
  | .invalid => ⟨[], 2⟩
  | .flags flags [] => checkPrelude flags
  | .flags _ (_ :: _) => ⟨["unexpected arguments", "dttcheck [flags]"], 1⟩

end CommandLine

end Recheck
