import Recheck.Typing.Terms

/-!
# Recheck — checking declarations, and the operations of the checker

A data type is checked by its parameters and, for each constructor, its patterns and the
types of its parameters, which have to be in the sort of the data type. A function is
checked by its parameters, its result type and its body.

The operations of a `Checker` start from a context. Whatever they do on the way, the
context is the caller's and stays as it was.
-/

namespace Recheck

namespace Typing

variable (k : Checker) (fuel : Nat)

/-- Checks a constructor that is listed under a data type. Its patterns, if it has some,
bind variables in place of the parameters of the data type. -/
def constructorDecl (scope : Scope) (d : DataName) (c : ConName) : Check Unit := do
  let decl := k.sig.data d
  let con := k.sig.con c
  if con.data ≠ d then
    refuse ((k.about .expectedConstructor none).note
      s!"{c.name} is not a constructor of {d.name}")
  let scope ← match con.patterns with
    | none => paramsIn k (term k fuel) scope decl.params .omega
    | some ps => do
      let (_, _, scope) ← patterns k fuel scope .identity decl.params.columns ps
      pure scope
  let _ ← paramsIn k (term k fuel) scope con.params decl.sort

/-- Checks a data type. -/
def dataDecl (scope : Scope) (d : DataName) : Check Unit :=
  traced k scope (return "data " ++ d.name) fun scope => do
    let decl := k.sig.data d
    let _ ← paramsIn k (term k fuel) scope decl.params .omega
    decl.constructors.forM (constructorDecl k fuel scope d)

/-- Checks one end of an interval elimination. -/
def endpoint (scope : Scope) (resultType : Term) : Option Term → Check Unit
  | none => return ()
  | some t => do
    let _ ← term k fuel scope t (some resultType)

/-- Checks a function. A match is checked outside of the scope of the parameters, which its
patterns bind anew; the match behind an interval elimination need not be exhaustive. -/
def funcDecl (scope : Scope) (f : FuncName) : Check Unit :=
  traced k scope (return "function " ++ f.name) fun scope => do
    let decl := k.sig.func f
    let inner ← paramsIn k (term k fuel) scope decl.params .omega
    typeIn (term k fuel) inner decl.resultType .omega
    match decl.body with
    | none => return ()
    | some (.expr t) =>
      let _ ← term k fuel inner t (some decl.resultType)
    | some (.elim e) =>
      elim k fuel (term k fuel) scope decl.params decl.resultType e
      exhaustive k fuel none decl.params e
    | some (.interval _ ends otherwise) =>
      for (left, right) in ends do
        endpoint k fuel inner decl.resultType left
        endpoint k fuel inner decl.resultType right
      if let some e := otherwise then
        elim k fuel (term k fuel) scope decl.params decl.resultType e

end Typing

namespace Checker

variable (k : Checker) (fuel : Nat) (Γ : Context)

/-- Checks a term against an expected type, which is then returned, or infers its type. -/
def check (t : Term) (expected : Option Term) : Check Term :=
  Typing.term k fuel (.ofContext Γ) t expected

/-- Checks that a term is a type and returns its sort. -/
def checkType (t : Term) : Check USort :=
  Typing.sortOf k fuel (Typing.term k fuel) (.ofContext Γ) t

/-- Checks a data type. -/
def checkData (d : DataName) : Check Unit := Typing.dataDecl k fuel (.ofContext Γ) d

/-- Checks a function. -/
def checkFunc (f : FuncName) : Check Unit := Typing.funcDecl k fuel (.ofContext Γ) f

end Checker

end Recheck
