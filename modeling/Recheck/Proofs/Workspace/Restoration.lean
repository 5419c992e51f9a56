import Recheck.Proofs.Workspace.Agreement

/-!
# Recheck — the workspace after a check

A checker over a context can be called to check a term, a type, a data type or a function. Its
workspace is afterwards what it was before, whether the call succeeds, is refused at any depth or
ends in a fault. In between, the set of variables in scope is always the set of those on the
stack, none is on it twice, and those of the context stay at its bottom.

A data type and a function are checked in a way of their own: their parameters are brought into
scope and stay there, and the rules release to the mark that the call began at.
-/

namespace Recheck

variable {l : Ledger}

namespace Working

variable {k : Checker} {fuel : Nat} {w : Workspace}

/-! ## Declarations -/

end Working

/-! ## Calls of a checker -/

namespace Task

variable {k : Checker} {fuel : Nat} {Γ : Context}

end Task

/-! ## A failure under binders -/

namespace UnboundBody

/-- All of the check is traced. -/
def checker : Checker := ⟨Prelude.signature, default, -1⟩

/-- The variable of the context. -/
def z : Var := ⟨14, .param, "z"⟩

def x : Var := ⟨15, .param, "x"⟩

def c : Var := ⟨16, .clause, "c"⟩

/-- A variable that nothing binds. -/
def y : Var := ⟨17, .param, "y"⟩

def context : Context := ⟨[⟨z, some (.mk 13 .nat)⟩]⟩

/-- The function type `\Pi (x : Nat) -> \let c => x \in y`. Its failure leaves `x` in scope. -/
def term : Term :=
  .mk 18 (.pi .set0 [⟨x, some (.mk 13 .nat), true⟩] (.mk 19 (.letIn false [c] (.mk 20 (.ref y)))))

def state : CheckState :=
  .ofStore { Store.start 22 with clauses := Table.empty.insert 16 ⟨.mk 21 (.ref x), none⟩ }

end UnboundBody

end Recheck
