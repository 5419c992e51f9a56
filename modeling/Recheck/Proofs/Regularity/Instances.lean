import Recheck.Proofs.Regularity.Inference

/-!
# Recheck — record values

A record value passes if the implementations of its fields do, provided that the types of the
fields do not depend on the instance. The rule checks each implementation against the type
that the field has on the variable `this`, not on the value. If no type mentions the instance,
then this is a repetition of a check against the type that the field has on the value.

It is not if a type does. The field `a : this.A` of a record value with `A => Nat` has the type
`Nat`, but its implementation is checked against `this.A`, which does not reduce. Nor is the
instance gone where parameters are put for the fields (`ImplementedField`).
-/

namespace Recheck

open Pairing (nothing)

/-! ## Variables that are left out -/

section Again

variable {N : Nat} {X X' : Nat → Prop} {s s' : SolverState} {d x x' : Var}
variable (hs : N ≤ s.store.next) (hs' : N ≤ s'.store.next)

theorem Pairing.again_le (hX : ∀ n, X n → X' n) : (again X' hs hs').Le (again X hs hs') where
  var _ _ _ h := ⟨h.1, h.2.imp_left fun h => ⟨h.1, h.2.1, fun hx => h.2.2 (hX _ hx)⟩⟩
  stamp _ _ h := h

theorem Pairing.ne_of_left_out (hd : d.serial < N) (hX : X d.serial)
    (h : x.Paired (again X hs hs') x') : x ≠ d ∧ x' ≠ d := by
  obtain ⟨-, ⟨rfl, -, hkept⟩ | ⟨j, rfl, rfl⟩⟩ := h
  · constructor <;> rintro rfl <;> exact hkept hX
  · constructor <;> rintro rfl <;> dsimp only at hd <;> omega

/-- What is put in place of a variable that is left out does not matter. -/
theorem Substitution.paired_of_left_out (hd : d.serial < N) (hX : X d.serial) (t t' : Term)
    (levels : LevelSubst) : (Substitution.of (.single (.local d) t) levels).Paired
      (.again X hs hs') (.of (.single (.local d) t') levels) := by
  refine ⟨fun v v' hv => ?_, rfl, rfl⟩
  have hne : v ≠ .local d ∧ v' ≠ .local d := by
    cases hv with
    | «local» hx => simpa using Pairing.ne_of_left_out hs hs' hd hX hx
    | _ => simp
  dsimp only [Substitution.of, Mapping.single]
  rw [Mapping.get?_insert_of_ne _ _ hne.1, Mapping.get?_insert_of_ne _ _ hne.2]
  exact .none

end Again

/-! ## Fields whose types do not depend on the instance -/

/-- Checks the implementations of fields one after the other, each against the type that its
field has on the instance. -/
def Typing.implementations (k : Checker) (fuel : Nat)
    (self : Scope → Term → Option Term → Check Term) (scope : Scope) (r : RecordType Term)
    (this : Term) : Check Unit := do
  for f in k.sig.implemented r do
    if let some impl := r.impl? f then
      let type ← fieldTypeAt k.sig fuel f r.sortArg this
      let _ ← self scope impl (some type)

/-- All fields are implemented, and neither the implementations nor the types of the fields
mention an instance. -/
structure RecordType.Detached (sig : Signature) (N : Nat) (Γ : Context) (r : RecordType Term) :
    Prop where
  total : ∀ f ∈ (sig.record r.record).fields, r.isImplemented f
  own : ∀ e ∈ r.impls, (sig.field e.1).record = r.record
  fresh : Γ.contains r.this = false
  impl : ∀ e ∈ r.impls, e.2.Plain (Var.Old N (· = r.this.serial)) (· < N)
  field : ∀ e ∈ r.impls, (sig.field e.1).type.Plain
    (Var.Old N fun i => i = r.this.serial ∨ i = (sig.record r.record).this.serial) (· < N)

section Fields

variable {k : Checker} {N m n fuel fuel' : Nat} {Γ : Context} {r : RecordType Term} {e : Equations}
  {value this t : Term} {scope scope' : Scope} {s s' st : CheckState}
variable (hr : r.Detached k.sig N Γ)

include hr

/-- The checks on two instances correspond, each implementation being checked against types
that correspond. -/
theorem Typing.mirrors_implementations (hk : k.traceDepth = 0)
    (hsig : k.sig.Plain (Var.Old N (· = r.this.serial)) (· < N)) (hle : fuel ≤ fuel')
    (hs : s.solver.After N e) (hs' : s'.solver.After N e)
    (hscope : scope.Paired (.again (· = r.this.serial) hs.next hs'.next) scope') :
    Mirrors (.again (· = r.this.serial) hs.next hs'.next)
      (implementations k fuel (term k fuel) scope r value)
      (implementations k fuel' (term k fuel') scope' r this) fun _ _ => True := by
  refine (Mirrors.forEach fun f _ => ?_).bind fun _ _ _ => .pure trivial
  cases himpl : r.impl? f with
  | none => exact .pure ⟨rfl, rfl⟩
  | some impl =>
    have hf := mem_of_lookup himpl
    let X (i : Nat) : Prop := i = r.this.serial ∨ i = (k.sig.record r.record).this.serial
    -- the type corresponds to itself even if the instance of the declaration is left out, too
    have hlike := (hr.field _ hf).like_again hs.next hs'.next
    have hσ := Substitution.paired_of_left_out (X := X) hs.next hs'.next
      (hsig.this r.record).serial (.inr rfl) value this r.sortArg.instantiation
    have htype : Mirrors (.again (· = r.this.serial) hs.next hs'.next)
        (fieldTypeAt k.sig fuel f r.sortArg value) (fieldTypeAt k.sig fuel' f r.sortArg this)
        (Term.Like (.again (· = r.this.serial) hs.next hs'.next)) := by
      rw [fieldTypeAt, fieldTypeAt, hr.own _ hf]
      have hsubst := @mirrors_subst _ k.sig _ _ hle _ _ _ _ hlike hσ
      -- which variables are left out does not matter for the states
      exact Mirrors.mono (β := .again _ hs.next hs'.next) hsubst fun _ _ h =>
        h.mono (Pairing.again_le _ _ fun _ => .inl)
    refine htype.liftCore.bind fun type type' htype => ?_
    exact (alike_again hk hsig hs.next hs'.next hle hscope
      ((hr.impl _ hf).like_again hs.next hs'.next) (.some htype)).bind fun _ _ _ => .pure ⟨rfl, rfl⟩

theorem RecordType.Detached.notImplemented : k.sig.notImplemented r = [] :=
  List.filter_eq_nil_iff.mpr fun f hf => by simp [hr.total f hf]

/-- Beside the implementations, the rule has nothing to check. -/
theorem Typing.recordType_of_implementations {u : Term} {s₁ : CheckState}
    (hscope : scope.context = Γ)
    (hu : (liftM (Core.build (.ref r.this)) : Check Term) s = .ok u s₁)
    (h : implementations k fuel (term k fuel) { scope with context := Γ.add r.this t } r u s₁ =
      .ok ⟨⟩ s') : ∃ T s₂, recordType k fuel (term k fuel) scope t r s = .ok T s₂ := by
  have hadd : k.addVar scope r.this (some t) t = pure { scope with context := Γ.add r.this t } := by
    rw [Checker.addVar, Context.add?, hscope, hr.fresh]
    rfl
  have hstray : (r.impls.find? fun e => (k.sig.field e.1).record ≠ r.record) = none :=
    List.find?_eq_none.mpr fun e he => by simp [hr.own e he]
  have hexceeds : ((k.sig.record r.record).fields.find? fun f =>
      r.universes < (k.sig.field f).universes && !r.isImplemented f) = none :=
    List.find?_eq_none.mpr fun f hf => by simp [hr.total f hf]
  rw [implementations, bind_pure_unit] at h
  rw [recordType, hadd, pure_bind, hstray]
  dsimp only
  rw [run_bind hu, hr.notImplemented, List.forIn_nil, pure_bind, ite_self, hexceeds, ite_self]
  exact ⟨_, _, run_bind h⟩

section Values

variable (hk : k.traceDepth = 0) (hsig : k.sig.Plain (Var.Old N (· = r.this.serial)) (· < N))
  (hΓ : Γ.Plain N (· = r.this.serial)) (hnext : N ≤ st.solver.store.next)

include hk hsig hΓ hnext

/-- The record type passes if the implementations pass in the smaller context. -/
theorem Typing.recordType_passes (hle : fuel ≤ fuel') (hscope : scope.context = Γ)
    (hrecord : (Stamped.record ⟨m, r⟩).Plain (Var.Old N nothing) (· < N))
    (h : implementations k fuel (term k fuel) (.ofContext Γ) r value st = .ok ⟨⟩ s') :
    ∃ T s₁, term k (fuel' + 1) scope (Stamped.record ⟨m, r⟩) none st = .ok T s₁ := by
  have hst : st.solver.After N st.solver.equations := ⟨hnext, rfl, rfl⟩
  -- the rule brings the instance into scope, and the implementations are checked again
  obtain ⟨this, s₁, hthis, -, hs₁⟩ := hst.build (.ref r.this)
  have hplain : (Γ.add r.this (Stamped.record ⟨m, r⟩)).Plain N nothing :=
    (hΓ.mono le_rfl fun _ hn => hn.elim).add
      ((Term.plain_mk.mp hrecord).2.2.2.2.binders r.this (List.mem_cons_self ..)).serial hrecord
  let inner : Scope := ⟨Γ.add r.this (Stamped.record ⟨m, r⟩), scope.inferred, scope.depth + 1⟩
  have hpaired : (Scope.ofContext Γ).Paired (.again (· = r.this.serial) hst.next hs₁.next) inner :=
    Scope.paired_again hΓ hplain fun _ => Context.entry?_add_of_old
  obtain ⟨_, s₂, hrun, -⟩ := (mirrors_implementations hr hk hsig hle hst hs₁ hpaired).again
    hst hs₁ h
  have houter : ({ scope with depth := scope.depth + 1 } : Scope).context = Γ := hscope
  obtain ⟨T, s₃, htype⟩ := recordType_of_implementations hr houter hthis hrun
  rw [term_succ hk]
  exact ⟨T, s₃, run_bind htype⟩

/-- A record value passes if the implementations do, one after the other, each against the type
that its field has on the value. -/
theorem Checker.check_new_of_fields
    (hvalue : (Term.mk n (.new none ⟨m, r⟩)).Plain (Var.Old N nothing) (· < N))
    (h : ∃ fuel st', Typing.implementations k fuel (Typing.term k fuel) (.ofContext Γ) r
      (.mk n (.new none ⟨m, r⟩)) st = .ok ⟨⟩ st') :
    ∃ least, ∀ fuel ≥ least, ∃ st', k.check fuel Γ (.mk n (.new none ⟨m, r⟩)) none st =
      .ok (Stamped.record ⟨m, r⟩) st' := by
  obtain ⟨least, st₁, hfields⟩ := h
  refine ⟨least + 2, fun fuel hle => ?_⟩
  obtain ⟨fuel, rfl⟩ : ∃ j, fuel = j + 2 := ⟨fuel - 2, by omega⟩
  let scope : Scope := { Scope.ofContext Γ with depth := 1 }
  obtain ⟨T, s₁, htype⟩ := Typing.recordType_passes hr hk hsig hΓ hnext
    (by omega : least ≤ fuel) (rfl : scope.context = Γ) hvalue.record hfields
  have hrun : Typing.recordValue k (Typing.term k (fuel + 1)) scope (.mk n (.new none ⟨m, r⟩))
      none ⟨m, r⟩ st = .ok (Stamped.record ⟨m, r⟩) s₁ := by
    rw [Typing.recordValue, run_bind htype]
    dsimp only
    rw [hr.notImplemented]
    rfl
  refine ⟨s₁, ?_⟩
  change Typing.term k (fuel + 2) (.ofContext Γ) _ none st = _
  rw [Typing.term_succ hk]
  exact run_bind hrun

end Values

end Fields

/-! ## Pointed types -/

namespace PointedType

def record : RecordName := ⟨13, "C"⟩

def carrier : FieldName := ⟨14, "A"⟩

def point : FieldName := ⟨15, "a"⟩

def this : Var := ⟨16, .given, "this"⟩

/-- A record `C` with the given fields and their types. -/
def checker (fields : List (FieldName × Term)) : Checker :=
  let type : Term := .mk 17 (.record ⟨record, .set0, [], .ofSet 1, .none, ⟨18, .given, "this"⟩⟩)
  ⟨{ Prelude.signature with
    recordDefs := ⟨[(13, ⟨fields.map Prod.fst, .ofSet 1, this, type, [], .none⟩)]⟩
    fieldDefs := ⟨fields.map fun f => (f.1.serial, ⟨record, f.2, false, .none⟩)⟩ }, default, 0⟩

def sets : Term := .mk 19 (.univ .set0)

/-- The type `this.A`. -/
def element : Term := .mk 20 (.field carrier .set0 (.mk 21 (.ref this)))

def nat : Term := .mk 22 .nat

def zero : Term := .mk 23 .zero

/-- The record type in which the fields are implemented as given. -/
def type (impls : List (FieldName × Term)) : RecordType Term :=
  ⟨record, .set0, impls, .ofSet 1, .none, ⟨24, .given, "this"⟩⟩

/-- The value of that type. -/
def value (impls : List (FieldName × Term)) : Term := .mk 25 (.new none ⟨26, type impls⟩)

def state : CheckState := .ofStore (.start 27)

theorem signature_plain : (checker [(carrier, sets), (point, nat)]).sig.Plain
    (Var.Old 27 (· = 24)) (· < 27) := by
  refine Signature.plain_of_entries ⟨.inl rfl, by decide, by decide⟩ ?_ ?_ ?_ ?_ ?_ ?_
  · exact Term.plain_mk.mpr (by simp)
  · simp [checker, Prelude.signature]
  · simp [checker, Prelude.conDefs_entries]
  · simp [checker, this]
  · simp [checker, sets, nat]
  · simp [checker, Prelude.funcDefs_entries]

/-- The value with `A => Nat` and `a => zero` of the record with the fields `A` and `a : Nat`. -/
theorem value_passes : let k := checker [(carrier, sets), (point, nat)]
    let impls := [(carrier, nat), (point, zero)]
    ∃ least, ∀ fuel ≥ least, ∃ st', k.check fuel ⟨[]⟩ (value impls) none state =
      .ok (Stamped.record ⟨26, type impls⟩) st' := by
  intro k impls
  obtain ⟨_, st', hfields⟩ : ∃ u st', Typing.implementations k 5 (Typing.term k 5)
      (.ofContext ⟨[]⟩) (type impls) (value impls) state = .ok u st' :=
    Check.exists_ok (by decide +kernel)
  have hplain (X : Nat → Prop) : nat.Plain (Var.Old 27 X) (· < 27) ∧
      zero.Plain (Var.Old 27 X) (· < 27) := by
    simp [nat, zero]
  refine Checker.check_new_of_fields (N := 27) ⟨by decide, by decide, rfl, ?_, ?_⟩ rfl
    signature_plain ⟨by simp, by simp⟩ (Nat.le_refl 27) ?_ ⟨5, st', hfields⟩
  · simp [impls, type, hplain]
  · simp [impls, k, type, checker, sets, nat, carrier, point, Signature.field, Table.get?,
      List.lookup_cons]
  · simp [impls, type, hplain]

/-- The value with `A => Nat` and `a => zero` is refused if `a : this.A`, although both
implementations pass against the types that the fields have on it. -/
theorem dependent_refused : let k := checker [(carrier, sets), (point, element)]
    let impls := [(carrier, nat), (point, zero)]
    (∃ u st', Typing.implementations k 5 (Typing.term k 5) (.ofContext ⟨[]⟩) (type impls)
      (value impls) state = .ok u st') ∧
      (k.check 10 ⟨[]⟩ (value impls) none).cause state = some .typeMismatch :=
  ⟨Check.exists_ok (by decide +kernel), by decide +kernel⟩

end PointedType

namespace ImplementedField

open PointedType (checker this nat type)

def a : FieldName := ⟨14, "a"⟩

def b : FieldName := ⟨15, "b"⟩

def project (stamp : Nat) (f : FieldName) (x : Var) : Term :=
  .mk stamp (.field f .set0 (.mk (stamp + 1) (.ref x)))

/-- The record with the fields `a b : Nat` and `p : this.b = 0`. -/
def signature : Signature :=
  let equation : Term := .mk 27 (.call Prelude.equality .set0 [nat, project 28 b this, .mk 30 (.int 0)])
  (checker [(a, nat), (b, nat), (⟨31, "p"⟩, equation)]).sig

/-- The parameters for the fields that are not implemented. -/
def texts (impls : List (FieldName × Term)) : Option (List String) :=
  let texts : Core (List String) := do
    (← fieldParams signature 20 ⟨32, type impls⟩).mapM fun p => do
      return p.var.name ++ " : " ++ (← (p.type.getD default).print signature 20)
  texts.run' (.start 35)

/-- A projection of the instance is replaced by the parameter or the implementation of its field,
but not inside of that implementation. -/
theorem params_keep_instance :
    texts [] = some ["a : Nat", "b : Nat", "p : b = 0"] ∧
      texts [(b, project 33 a (type []).this)] = some ["a : Nat", "p : this.a = 0"] := by
  decide +kernel

end ImplementedField

end Recheck
