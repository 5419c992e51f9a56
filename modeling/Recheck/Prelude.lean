import Recheck.Store

/-!
# Recheck — the prelude

The declarations that are always there: the natural numbers `Nat` with `zero` and `suc`,
the equality type `a = a'` of two elements of a type, and the empty proposition `Empty`.
Integer literals are natural numbers.
-/

namespace Recheck

namespace Prelude

/-! ## Names -/

/-- The natural numbers. -/
def nat : DataName := ⟨0, "Nat"⟩

def zero : ConName := ⟨1, "zero"⟩

def suc : ConName := ⟨2, "suc"⟩

/-- The empty proposition. -/
def empty : DataName := ⟨3, "Empty"⟩

/-- The equality type, applied to a type and two elements of it. -/
def equality : FuncName := ⟨4, "="⟩

/-! ## Declarations -/

/-- The type of the parameter of `suc`. -/
private def sucParamType : Term := .mk 9 (.data ⟨nat, .set0, []⟩)

/-- The type parameter of `equality`. -/
private def equalityType : Var := ⟨6, .param, "A"⟩

/-- The parameters `(A : \Type) (a a' : A)`. -/
private def equalityParams : Telescope Term :=
  [⟨equalityType, some (.mk 10 (.univ .std)), true⟩,
   ⟨⟨7, .param, "a"⟩, none, true⟩,
   ⟨⟨8, .param, "a'"⟩, some (.mk 11 (.ref equalityType)), true⟩]

/-- An equality lives one homotopy level below its type. -/
private def equalityResult : Term :=
  .mk 12 (.univ ⟨.ofVar .predicative, (Level.ofVar .homotopy).add (-1)⟩)

/-- The declarations. -/
def signature : Signature where
  dataDefs := ⟨[(0, ⟨[], .set0, [zero, suc]⟩), (3, ⟨[], .prop, []⟩)]⟩
  conDefs :=
    ⟨[(1, ⟨nat, none, []⟩),
      (2, ⟨nat, none, [⟨⟨5, .param, "n"⟩, some sucParamType, true⟩]⟩)]⟩
  recordDefs := .empty
  fieldDefs := .empty
  funcDefs := ⟨[(4, ⟨equalityParams, equalityResult, none⟩)]⟩

theorem conDefs_entries : signature.conDefs.entries =
    [(1, ⟨nat, none, []⟩),
      (2, ⟨nat, none,
        [⟨⟨5, .param, "n"⟩, some (.mk 9 (.data ⟨nat, .set0, []⟩)), true⟩]⟩)] := rfl

theorem funcDefs_entries : signature.funcDefs.entries =
    [(4, ⟨[⟨⟨6, .param, "A"⟩, some (.mk 10 (.univ .std)), true⟩,
          ⟨⟨7, .param, "a"⟩, none, true⟩,
          ⟨⟨8, .param, "a'"⟩, some (.mk 11 (.ref ⟨6, .param, "A"⟩)), true⟩],
        .mk 12 (.univ ⟨.ofVar .predicative, (Level.ofVar .homotopy).add (-1)⟩), none⟩)] := rfl

/-- A store in which nothing but the prelude has been numbered. -/
def store : Store := .start 13

end Prelude

/-! ## Terms over the prelude -/

/-- The type of natural numbers. -/
abbrev Node.nat {T : Type} : Node T := .data ⟨Prelude.nat, .set0, []⟩

abbrev Node.zero {T : Type} : Node T := .con ⟨Prelude.zero, .set0, [], []⟩

abbrev Node.suc {T : Type} (n : T) : Node T := .con ⟨Prelude.suc, .set0, [], [n]⟩

def natType : Core Term := Core.build .nat

def zeroTerm : Core Term := Core.build .zero

def sucTerm (n : Term) : Core Term := Core.build (.suc n)

/-- The equality of two elements of a type. -/
def equalityTerm (sortArg : USort) (type a b : Term) : Core Term :=
  Core.build (.call Prelude.equality sortArg [type, a, b])

/-- The type and the two elements of an equality. -/
def Term.asEquality (t : Term) : Option (Term × Term × Term) :=
  match t.node with
  | .call f _ [type, a, b] => if f = Prelude.equality then some (type, a, b) else none
  | _ => none

end Recheck
