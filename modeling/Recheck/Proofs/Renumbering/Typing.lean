import Mathlib.Data.List.Induction
import Recheck.Proofs.Renumbering.Matching
import Recheck.Typing.Declarations

/-!
# Recheck — checks of terms, seen from two runs

A check that succeeds can be repeated elsewhere: with other numbers, with more in scope and
with more fuel it succeeds again, and the types that are inferred are alike.
-/

namespace Recheck

open List (Forall₂)

open Check (Fails)

namespace Typing

variable {β : Pairing} {k : Checker} (hsig : k.sig.Steady β) (hk : k.traceDepth ≤ 0)
  {fuel fuel' : Nat} (hle : fuel ≤ fuel') {self self'} (hself : Alike β self self')
  {scope scope' : Scope} (hscope : scope.Paired β scope')

/-! ## Building blocks -/

section Blocks

variable {t t' : Term} {ps ps' : Telescope Term} {first first' : Option Term} {σ σ' : Substitution}
  {columns columns' : List (Column Term)} {args args' : List Term}

include hself hscope in
theorem mirrors_typeIn (sort : USort) (ht : t.Like β t') :
    Mirrors β (typeIn self scope t sort) (typeIn self' scope' t' sort) fun _ _ => True :=
  (mirrors_build (.univ sort)).core fun _ _ hu => hself.against hscope ht hu

include hsig hle hself hscope in
theorem mirrors_sortOf (ht : t.Like β t') :
    Mirrors β (sortOf k fuel self scope t) (sortOf k fuel' self' scope' t') Eq := by
  refine (hself hscope ht .none).bind fun type type' htype => ?_
  refine (mirrors_whnf hsig hle htype).core fun type type' htype => ?_
  obtain ⟨-, hnode⟩ := htype.destruct
  cases hnode with
  | univ sort => exact .pure rfl
  | _ => exact .failing (.after fun _ => Fails.refuse _)

include hself hscope in
theorem mirrors_params {u u' : Term} (hu : u.Like β u')
    (hps : Telescope.Like β ps ps') :
    Mirrors β (params k self u scope ps) (params k self' u' scope' ps') (Scope.Paired β) := by
  induction hps generalizing scope scope' with
  | nil => exact .pure hscope
  | cons hp hps ih =>
    have hhead := mirrors_headTypeM (.cons hp hps)
    obtain ⟨hx, htype⟩ := hp
    rw [params, params]
    cases htype with
    | none =>
      refine hhead.core fun type type' htype => ?_
      exact (mirrors_addVar hscope hx (.some htype)).bind fun _ _ hs => ih hs
    | some ht =>
      refine (hself hscope ht (.some hu)).bind fun _ _ _ => ?_
      refine hhead.core fun type type' htype => ?_
      exact (mirrors_addVar hscope hx (.some htype)).bind fun _ _ hs => ih hs

include hself hscope in
theorem mirrors_paramsIn (sort : USort) (hps : Telescope.Like β ps ps') :
    Mirrors β (paramsIn k self scope ps sort) (paramsIn k self' scope' ps' sort)
      (Scope.Paired β) :=
  (mirrors_build (.univ sort)).core fun _ _ hu =>
    mirrors_params hself hscope hu hps

include hle hself hscope in
theorem mirrors_argsFrom (hfirst : Option.Rel (Term.Like β) first first') (hσ : σ.Paired β σ')
    (hcolumns : Forall₂ (Column.Like β) columns columns')
    (hargs : Term.AllLike β args args') :
    Mirrors β (argsFrom k fuel self scope first σ columns args)
      (argsFrom k fuel' self' scope' first' σ' columns' args') (Substitution.Paired β) := by
  induction hcolumns generalizing first first' σ σ' args args' with
  | nil =>
    cases hargs with
    | nil => exact .pure hσ
    | cons _ _ => exact .pure hσ
  | cons hc _ ih =>
    cases hargs with
    | nil => exact .pure hσ
    | cons ht hargs =>
      simp only [argsFrom]
      cases hfirst with
      | some htype =>
        refine Mirrors.bind (R := Term.Like β) (.pure htype) fun type type' htype => ?_
        exact (hself hscope ht (.some htype)).bind fun _ _ _ => ih .none (hσ.bind hc.var ht) hargs
      | none =>
        refine (mirrors_typeM hc).core fun type type' htype => ?_
        refine (mirrors_subst hle htype hσ).core fun type type' htype => ?_
        exact (hself hscope ht (.some htype)).bind fun _ _ _ => ih .none (hσ.bind hc.var ht) hargs

include hle hself hscope in
theorem mirrors_callArgs (hfirst : Option.Rel (Term.Like β) first first') (hσ : σ.Paired β σ')
    (hcolumns : Forall₂ (Column.Like β) columns columns')
    (hargs : Term.AllLike β args args') :
    Mirrors β (callArgs k fuel self scope t first σ columns args)
      (callArgs k fuel' self' scope' t' first' σ' columns' args') (Substitution.Paired β) :=
  .require (by rw [hargs.length_eq, hcolumns.length_eq]) (Fails.refuse _).bind
    (mirrors_argsFrom hle hself hscope hfirst hσ hcolumns hargs)

include hsig hle in
theorem mirrors_conclude {expected expected' : Option Term} {actual actual' : Term}
    (hexpected : Option.Rel (Term.Like β) expected expected') (hactual : actual.Like β actual') :
    Mirrors β (conclude k fuel t expected actual) (conclude k fuel' t' expected' actual')
      (Term.Like β) := by
  cases hexpected with
  | none => exact .pure hactual
  | some htype =>
    refine (mirrors_compareTypes hsig hle .le hactual htype).bind ?_
    rintro answer _ rfl
    exact .require Iff.rfl (.after fun _ => (Fails.refuse _).bind) (.pure htype)

end Blocks

/-! ## The rules -/

section Rules

variable {t t' proof proof' type type' : Term} {args args' : List Term}
  {r r' : RecordType Term}

include hscope in
theorem mirrors_variableType {x x' : Var} (hx : x.Paired β x') :
    Mirrors β (variableType k scope t x) (variableType k scope' t' x') (Term.Like β) := by
  refine .require (by rw [Context.Paired.contains hscope hx]) (Fails.refuse _).bind ?_
  refine (mirrors_typeOf hscope hx).bind fun o o' ho => ?_
  cases ho with
  | some htype => exact .pure htype
  | none => exact .refuse

include hsig hle hself hscope

theorem mirrors_application {fn fn' arg arg' : Term} (hfn : fn.Like β fn')
    (harg : arg.Like β arg') :
    Mirrors β (application k fuel self scope fn arg) (application k fuel' self' scope' fn' arg')
      (Term.Like β) := by
  refine (hself hscope hfn .none).bind fun type type' htype => ?_
  refine (mirrors_whnf hsig hle htype).core fun type type' htype => ?_
  obtain ⟨-, hnode⟩ := htype.destruct
  cases hnode with
  | pi sort hps hcodomain =>
    refine (mirrors_headTypeM hps).core fun domain domain' hdomain => ?_
    refine (hself hscope harg (.some hdomain)).bind fun _ _ _ => ?_
    exact (mirrors_instantiatePi hle sort hps hcodomain (.cons harg .nil)).liftCore
  | _ => exact .refuse

omit hsig hle hself hscope in
theorem mirrors_propEqualityDomain (f : FuncName) (sortArg : USort) :
    Mirrors β (propEqualityDomain f sortArg) (propEqualityDomain f sortArg)
      (Option.Rel (Term.Like β)) :=
  .ite Iff.rfl (fun _ => (mirrors_build (.univ _)).core fun _ _ hu =>
    .pure (.some hu)) fun _ => .pure .none

theorem mirrors_call (f : FuncName) (sortArg : USort)
    (hargs : Term.AllLike β args args') :
    Mirrors β (call k fuel self scope t f sortArg args)
      (call k fuel' self' scope' t' f sortArg args') (Term.Like β) := by
  refine (mirrors_propEqualityDomain f sortArg).bind fun first first' hfirst => ?_
  refine (mirrors_callArgs hle hself hscope hfirst (.of .empty _)
    (Telescope.Paired.columns (hsig.params f)) hargs).bind fun σ σ' hσ => ?_
  exact (mirrors_subst hle (hsig.resultType f) hσ).liftCore

theorem mirrors_constructor (c : ConName) (sort : USort) {dataArgs dataArgs' : List Term}
    (hdata : Term.AllLike β dataArgs dataArgs')
    (hargs : Term.AllLike β args args') :
    Mirrors β (constructor k fuel self scope t ⟨c, sort, dataArgs, args⟩)
      (constructor k fuel' self' scope' t' ⟨c, sort, dataArgs', args'⟩) (Term.Like β) := by
  refine (mirrors_callArgs hle hself hscope .none (.of .empty _) (hsig.dataColumns c) hdata).bind
    fun σ σ' hσ => ?_
  refine (mirrors_callArgs hle hself hscope .none hσ (Telescope.Paired.columns (hsig.con c))
    hargs).bind fun _ _ _ => ?_
  refine (mirrors_dataTypeOf hsig hle c sort hdata).core ?_
  rintro ⟨d, s, ts⟩ ⟨d', s', ts'⟩ ⟨hd, hs, hts⟩
  obtain rfl : d = d' := hd
  obtain rfl : s = s' := hs
  exact (mirrors_build (.data d s hts)).liftCore

theorem mirrors_dataType (d : DataName) (sort : USort)
    (hargs : Term.AllLike β args args') :
    Mirrors β (dataType k fuel self scope t ⟨d, sort, args⟩)
      (dataType k fuel' self' scope' t' ⟨d, sort, args'⟩) (Term.Like β) := by
  refine (mirrors_callArgs hle hself hscope .none (.of .empty _)
    (Telescope.Paired.columns (hsig.data d)) hargs).bind fun _ _ _ => ?_
  exact (mirrors_build (.univ _)).liftCore

theorem mirrors_projection {u u' : Term} (index : Int64) (hu : u.Like β u') :
    Mirrors β (projection k fuel self scope t u index) (projection k fuel' self' scope' t' u' index)
      (Term.Like β) := by
  refine (hself hscope hu .none).bind fun type type' htype => ?_
  refine (mirrors_whnf hsig hle htype).core fun type type' htype => ?_
  obtain ⟨-, hnode⟩ := htype.destruct
  cases hnode with
  | @sigma sort ps ps' hps =>
    have hcolumns := Telescope.Paired.columns hps
    have hbefore := List.forall₂_take index.toNatClampNeg hcolumns
    refine .require (by rw [hcolumns.length_eq]) (Fails.refuse _).bind ?_
    dsimp only
    rw [hbefore.length_eq]
    refine Mirrors.bind (R := Term.AllLike β) (Mirrors.mapM (forall₂_eq _) ?_)
      fun projs projs' hprojs => ?_
    · rintro i _ rfl
      exact (mirrors_makeProj _ hu).liftCore
    have hm := Mapping.Paired.insertVars (Mapping.Paired.empty (β := β) (R := Term.Like β))
      (List.rel_map (fun _ _ hc => Column.Paired.var hc) hbefore) hprojs
    have hrest := List.forall₂_drop
      (List.take index.toNatClampNeg ps'.columns).length hcolumns
    generalize List.drop _ ps.columns = rest,
      List.drop _ ps'.columns = rest' at hrest ⊢
    cases hrest with
    | nil => exact .failing (Fails.throw _)
    | cons hc _ =>
      exact (mirrors_typeM hc).core fun type type' htype =>
        (mirrors_subst hle htype (.of hm _)).liftCore
  | _ => exact .refuse

theorem mirrors_openField {this this' : Term} (promised : Option Int64) (f : FieldName)
    (hthis : this.Like β this') (hr : r.Like β r') :
    Mirrors β (recordType.openField k fuel self scope t r this promised f)
      (recordType.openField k fuel' self' scope' t' r' this' promised f) fun _ _ => True := by
  obtain ⟨-, -⟩ := hr
  refine (mirrors_fieldTypeAt hsig hle f _ hthis).core fun type type' htype => ?_
  refine (mirrors_sortOf hsig hle hself hscope htype).bind ?_
  rintro sort _ rfl
  refine .ite Iff.rfl (fun _ => .pure trivial) fun _ => ?_
  refine (Solver.lasting_mirrors.compareLevels k.span .le _ _).liftCheck.bind ?_
  rintro answer _ rfl
  refine .ite Iff.rfl (fun _ => ?_) fun _ => .refuse
  refine .ite Iff.rfl (fun _ => .pure trivial) fun _ => ?_
  refine (Solver.lasting_mirrors.compareLevels k.span .le _ _).liftCheck.bind ?_
  rintro answer _ rfl
  exact .ite Iff.rfl (fun _ => .pure trivial) fun _ => .refuse

theorem mirrors_recordType (ht : t.Like β t') (hr : r.Like β r') :
    Mirrors β (recordType k fuel self scope t r) (recordType k fuel' self' scope' t' r')
      (Term.Like β) := by
  have himplemented := k.sig.implemented_eq hr
  have hmissing := k.sig.notImplemented_eq hr
  have himpl := hr.isImplemented
  rw [recordType, recordType]
  refine (mirrors_addVar hscope hr.this (.some ht)).bind fun s s' hs => ?_
  have hstray : Option.Rel (fun e e' => e.1 = e'.1 ∧ e.2.Like β e'.2)
      (r.impls.find? fun e => (k.sig.field e.1).record ≠ r.record)
      (r'.impls.find? fun e => (k.sig.field e.1).record ≠ r'.record) :=
    forall₂_find? (fun e e' he => by rw [he.1, hr.record]) hr.impls
  generalize r.impls.find? _ = o, r'.impls.find? _ = o' at hstray ⊢
  cases hstray with
  | some _ => exact .failing (Fails.refuse _).bind
  | none =>
    refine (mirrors_buildRef hr.this).core fun this this' hthis => ?_
    rw [himplemented, hmissing]
    refine Mirrors.bind (R := fun _ _ => True) (Mirrors.forEach fun f _ => ?_) fun _ _ _ => ?_
    · have himpl := hr.impl? f
      generalize r.impl? f = o, r'.impl? f = o' at himpl ⊢
      cases himpl with
      | none => exact .pure ⟨rfl, rfl⟩
      | some hu =>
        rw [hr.sortArg]
        refine (mirrors_fieldTypeAt hsig hle f _ hthis).core fun type type' htype => ?_
        exact (hself hs hu (.some htype)).bind fun _ _ _ => .pure ⟨rfl, rfl⟩
    rw [hr.record, hr.isImplemented, hr.universes, hr.sort]
    refine Mirrors.when Iff.rfl (fun _ => Mirrors.forEach fun f _ => ?_) ?_
    · exact (mirrors_openField hsig hle hself hs _ f hthis hr).bind fun _ _ _ => .pure ⟨rfl, rfl⟩
    refine .ite Iff.rfl (fun _ => ?_) fun _ => (mirrors_build (.univ _)).liftCore
    dsimp only
    generalize List.find? _ _ = o
    cases o with
    | some f => exact .failing (Fails.refuse _).bind
    | none => exact (mirrors_build (.univ _)).liftCore

omit hsig hle in
theorem mirrors_recordValue {renewed renewed' : Option Term} {n n' : Nat}
    (hrenewed : Option.Rel (Term.Like β) renewed renewed') (hn : β.stamp n n')
    (hr : r.Like β r') :
    Mirrors β (recordValue k self scope t renewed ⟨n, r⟩)
      (recordValue k self' scope' t' renewed' ⟨n', r'⟩) (Term.Like β) := by
  have hrecord : (Stamped.record ⟨n, r⟩).Like β (Stamped.record ⟨n', r'⟩) :=
    .intro hn (.record hr)
  refine (hself hscope hrecord .none).bind fun _ _ _ => ?_
  refine .require (by rw [k.sig.notImplemented_eq hr]) (Fails.refuse _).bind ?_
  cases hrenewed with
  | none => exact .pure hrecord
  | some hu =>
    obtain ⟨-, -⟩ := hr
    refine (mirrors_newRecordType _ _ _ _).core fun bare bare' hbare => ?_
    refine (mirrors_build (.record hbare)).core fun bare bare' hbare => ?_
    exact (hself hscope hu (.some hbare)).bind fun _ _ _ => .pure hrecord

omit hself hscope in
theorem mirrors_levelPairs {columns columns' : List (Column Term)} (htype : type.Like β type')
    (hcolumns : Forall₂ (Column.Like β) columns columns') :
    Mirrors β (levelPairs k fuel proof type columns) (levelPairs k fuel' proof' type' columns')
      fun _ _ => True := by
  induction columns using List.twoStepInduction generalizing columns' type type' with
  | nil =>
    cases hcolumns with
    | nil => exact .pure trivial
  | singleton c =>
    cases hcolumns with
    | cons _ hrest =>
      cases hrest with
      | nil => exact .pure trivial
  | cons_cons c d rest ih _ =>
    cases hcolumns with
    | cons hc hcolumns =>
      cases hcolumns with
      | cons hd hrest =>
        rw [levelPairs, levelPairs]
        refine (mirrors_typeM hc).core fun u u' hu => ?_
        refine (mirrors_compareTypes hsig hle .eq hu htype).bind ?_
        rintro answer _ rfl
        refine .ite Iff.rfl (fun _ => ?_) fun _ => ?_
        · refine (mirrors_typeM hd).core fun u u' hu => ?_
          refine (mirrors_compareTypes hsig hle .eq hu htype).bind ?_
          rintro answer _ rfl
          refine .require Iff.rfl (.after fun _ => (Fails.refuse _).bind) ?_
          refine (mirrors_buildRef hc.var).core fun a a' ha => ?_
          refine (mirrors_buildRef hd.var).core fun b b' hb => ?_
          refine (mirrors_build
            (.call _ _ (.cons htype (.cons ha (.cons hb .nil))))).core fun u u' hu => ih hu hrest
        · refine .failing (.afterPure ?_)
          simp only [Bool.not_false, if_true]
          exact .after fun _ => (Fails.refuse _).bind

theorem mirrors_levelProof (hproof : proof.Like β proof') (htype : type.Like β type') :
    Mirrors β (levelProof k fuel self scope proof type)
      (levelProof k fuel' self' scope' proof' type') fun _ _ => True := by
  refine (hself hscope hproof .none).bind fun t t' ht => ?_
  refine (mirrors_piParameters hsig hle ht).core ?_
  rintro ⟨columns, codomain⟩ ⟨columns', codomain'⟩ ⟨hcolumns, hcodomain⟩
  have hequality := hcodomain.asEquality.isSome_eq
  refine .require (by rw [← Option.not_isSome, ← Option.not_isSome, hequality])
    (.after fun _ => (Fails.refuse _).bind) ?_
  refine .require ?_ (Fails.refuse _).bind ?_
  · rw [forall₂_isEmpty hcolumns, hcolumns.length_eq]
  exact (mirrors_levelPairs hsig hle htype hcolumns).bind fun _ _ _ => .pure trivial

include hk in
theorem mirrors_caseOf {c c' : CaseOf Term} (hc : c.Like β c') :
    Mirrors β (caseOf k fuel self scope t c) (caseOf k fuel' self' scope' t' c')
      (Term.Like β) := by
  obtain ⟨hps, hresult, hproof, helim, hargs⟩ := hc
  refine (mirrors_paramsIn hself hscope .omega hps).bind fun inner inner' hinner => ?_
  refine (mirrors_callArgs hle hself hinner .none .identity (Telescope.Paired.columns hps)
    hargs).bind fun σ σ' hσ => ?_
  refine (mirrors_typeIn hself hinner .omega hresult).bind fun _ _ _ => ?_
  cases helim with
  | none =>
    cases hproof with
    | none => exact .refuse
    | some _ => exact .failing (.after fun _ => Fails.refuse _)
  | some he =>
    have hmatch : Mirrors β (m := Check)
        (do
          elim k fuel self scope _ _ _
          exhaustive k fuel t _ _
          Term.subst k.sig fuel _ σ)
        (do
          elim k fuel' self' scope' _ _ _
          exhaustive k fuel' t' _ _
          Term.subst k.sig fuel' _ σ') (Term.Like β) :=
      (mirrors_elim hsig hk hle hself hscope hps hresult he).bind fun _ _ _ =>
        (mirrors_exhaustive hsig hle hps he).bind fun _ _ _ => (mirrors_subst hle hresult hσ).liftCore
    cases hproof with
    | none => exact hmatch
    | some hp =>
      exact (mirrors_levelProof hsig hle hself hinner hp hresult).bind fun _ _ _ => hmatch

include hk

/-- One step of a check; the cases follow the forms of terms. -/
theorem mirrors_step {expected expected' : Option Term} (ht : t.Like β t')
    (hexpected : Option.Rel (Term.Like β) expected expected') :
    Mirrors β (step k fuel self scope t expected) (step k fuel' self' scope' t' expected')
      (Term.Like β) := by
  have hconclude {actual actual' : Term} (hactual : actual.Like β actual') :
      Mirrors β (conclude k fuel t expected actual) (conclude k fuel' t' expected' actual')
        (Term.Like β) := mirrors_conclude hsig hle hexpected hactual
  obtain ⟨-, hnode⟩ := ht.destruct
  unfold step
  cases hnode with
  | ref hx => exact (mirrors_variableType hscope hx).bind fun _ _ h => hconclude h
  | app hfn harg =>
    exact (mirrors_application hsig hle hself hscope hfn harg).bind fun _ _ h => hconclude h
  | call f sort hargs =>
    exact (mirrors_call hsig hle hself hscope f sort hargs).bind fun _ _ h => hconclude h
  | con c sort hdata hargs =>
    exact (mirrors_constructor hsig hle hself hscope c sort hdata hargs).bind
      fun _ _ h => hconclude h
  | data d sort hargs =>
    exact (mirrors_dataType hsig hle hself hscope d sort hargs).bind fun _ _ h => hconclude h
  | field f sort harg =>
    refine (hself hscope harg (.some (hsig.thisType _))).bind fun _ _ _ => ?_
    exact (mirrors_fieldTypeAt hsig hle f sort harg).core fun _ _ h => hconclude h
  | record hr =>
    exact (mirrors_recordType hsig hle hself hscope ht hr).bind fun _ _ h => hconclude h
  | lam sort hps hbody =>
    refine (mirrors_paramsIn hself hscope _ hps).bind fun inner inner' hinner => ?_
    refine (hself hinner hbody .none).bind fun codomain codomain' hcodomain => ?_
    exact (mirrors_build (.pi sort hps hcodomain)).core fun _ _ h => hconclude h
  | pi sort hps hcodomain =>
    refine (mirrors_paramsIn hself hscope _ hps).bind fun inner inner' hinner => ?_
    refine (mirrors_typeIn hself hinner sort hcodomain).bind fun _ _ _ => ?_
    exact (mirrors_build (.univ sort)).core fun _ _ h => hconclude h
  | sigma sort hps =>
    refine (mirrors_paramsIn hself hscope _ hps).bind fun _ _ _ => ?_
    exact (mirrors_build (.univ sort)).core fun _ _ h => hconclude h
  | tuple sort hfields hstamp hps =>
    have hsigma := Term.Like.intro hstamp (.sigma sort hps)
    refine (hself hscope hsigma .none).bind fun _ _ _ => ?_
    refine (mirrors_callArgs hle hself hscope .none .identity (Telescope.Paired.columns hps)
      hfields).bind fun _ _ _ => ?_
    exact hconclude hsigma
  | proj hu index =>
    exact (mirrors_projection hsig hle hself hscope index hu).bind fun _ _ h => hconclude h
  | univ sort =>
    refine .require Iff.rfl (Fails.refuse _).bind ?_
    exact (mirrors_build (.univ _)).core fun _ _ h => hconclude h
  | new hrenewed hstamp hr =>
    exact (mirrors_recordValue hself hscope hrenewed hstamp hr).bind fun _ _ h => hconclude h
  | case hc =>
    exact (mirrors_caseOf hsig hk hle hself hscope hc).bind fun _ _ h => hconclude h
  | ofType hu htype =>
    refine (mirrors_typeIn hself hscope .omega htype).bind fun _ _ _ => ?_
    exact (hself hscope hu (.some htype)).bind fun _ _ _ => hconclude htype
  | int i => exact (mirrors_build (.data _ _ .nil)).core fun _ _ h => hconclude h
  | hole goal hpart =>
    cases goal with
    | false => exact .refuse
    | true =>
      cases hexpected with
      | some htype => exact .pure htype
      | none => exact .refuse

end Rules

omit hscope in
include hsig hk hle in
/-- Whole checks do the same. -/
theorem alike_term : Alike β (term k fuel) (term k fuel') := by
  induction fuel generalizing fuel' with
  | zero =>
    intro _ _ _ _ _ _ _ _ _
    exact .failing (Fails.throw _)
  | succ fuel ih =>
    obtain ⟨fuel', rfl, hrest⟩ := exists_fuel_of_succ_le hle
    intro scope scope' t t' expected expected' hscope ht hexpected
    refine mirrors_traced hscope hk ?_ fun s s' hs =>
      mirrors_step hsig hk hrest (ih hrest) hs ht hexpected
    exact (echoes_quote hrest ht).liftCore

end Typing

end Recheck
