import Recheck.Store

/-!
# Recheck — typing contexts

A `Context` lists the variables in scope, the latest first, together with the types they
were declared with. No variable is listed twice. Contexts are values: leaving a scope is
going back to the context from before.

Let clauses and unknowns are listed without a type. Theirs is kept in the store, or, for
a let clause without a declared type, inferred on the way in.
-/

namespace Recheck

/-- A variable in scope. -/
structure ContextEntry where
  var : Var
  type : Option Term

/-- The variables in scope, the latest first. -/
structure Context where
  entries : List ContextEntry

namespace Context

def empty : Context := ⟨[]⟩

instance : Inhabited Context := ⟨empty⟩

def vars (Γ : Context) : List Var := Γ.entries.map ContextEntry.var

def contains (Γ : Context) (x : Var) : Bool := x ∈ Γ.vars

/-- The number of variables in scope. -/
def size (Γ : Context) : Nat := Γ.entries.length

/-- The entry of a variable. -/
def entry? (Γ : Context) (x : Var) : Option ContextEntry :=
  Γ.entries.find? fun e => e.var = x

/-- Brings a variable into scope, unless it already is. -/
def add? (Γ : Context) (x : Var) (type : Option Term) : Option Context :=
  if Γ.contains x then none else some ⟨⟨x, type⟩ :: Γ.entries⟩

end Context

end Recheck
