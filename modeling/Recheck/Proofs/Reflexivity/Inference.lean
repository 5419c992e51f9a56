import Recheck.Proofs.Reflexivity.Comparison
import Recheck.Proofs.Regularity.Inference

/-!
# Recheck — types of tame terms

The type that is inferred for a tame term, under tame assumptions and over tame declarations,
is tame. So a second check that infers it again, with other numbers, comes to a copy of it.
-/

variable {A : Type}

namespace Recheck

open Pairing (nothing)

variable {N : Nat} {s : Store}

/-- The declarations are plain, and what becomes part of inferred types is tame. -/
structure Signature.Tame (N : Nat) (sig : Signature) : Prop where
  plain : sig.Plain (Var.Old N nothing) (· < N)
  bodies : sig.TameBodies N
  resultType : ∀ f, (sig.func f).resultType.Tame N (Vars.old N)
  field : ∀ f, (sig.field f).type.Tame N (Vars.old N)

/-- A signature is tame if each of its entries is. -/
theorem Signature.tame_of_entries {sig : Signature} (hplain : sig.Plain (Var.Old N nothing) (· < N))
    (hterm : (default : Term).Tame N (Vars.old N))
    (hfield : ∀ e ∈ sig.fieldDefs.entries, e.2.type.Tame N (Vars.old N))
    (hfunc : ∀ e ∈ sig.funcDefs.entries, e.2.resultType.Tame N (Vars.old N) ∧
      ∀ b, e.2.body = some b → ∀ t, .term t ∈ b.parts → t.Tame N (Vars.old N)) :
    sig.Tame N := by
  have hfunc' (f : FuncName) : (sig.func f).resultType.Tame N (Vars.old N) ∧
      ∀ b, (sig.func f).body = some b → ∀ t, .term t ∈ b.parts → t.Tame N (Vars.old N) :=
    Table.getD_of_forall (P := fun d : FuncDef => d.resultType.Tame N (Vars.old N) ∧
      ∀ b, d.body = some b → ∀ t, Part.term t ∈ b.parts → t.Tame N (Vars.old N)) hfunc
      ⟨hterm, fun _ h => (Option.some_ne_none _ h.symm).elim⟩ f.serial
  exact ⟨hplain, fun f => (hfunc' f).2, fun f => (hfunc' f).1, fun f =>
    Table.getD_of_forall (P := fun d : FieldDef => d.type.Tame N (Vars.old N)) hfield hterm f.serial⟩

/-- All types in scope are tame. -/
def Scope.Tame (N : Nat) (D : Vars) (scope : Scope) : Prop :=
  ∀ x A, scope.context.type? x = some A → A.Tame N D

theorem Scope.Tame.mono {N' : Nat} {D D' : Vars} {scope : Scope} (h : scope.Tame N D) (hN : N ≤ N')
    (hD : D.Le N D') : scope.Tame N' D' :=
  fun x A hA => (h x A hA).mono hN hD

theorem Scope.Tame.add {D : Vars} {scope : Scope} {x : Var} {A : Term} (h : scope.Tame N D)
    (hA : A.Tame N D) :
    ({ scope with context := scope.context.add x A } : Scope).Tame N (D.and [x]) := by
  intro y B hB
  by_cases hxy : x = y
  · subst hxy
    rw [Context.type?_add_self] at hB
    obtain rfl := Option.some.inj hB
    exact hA.mono le_rfl Vars.le_and
  · rw [Context.type?_add_of_ne hxy] at hB
    exact (h y B hB).mono le_rfl Vars.le_and

theorem Advances.liftCore {x : Core A} {P : A → Nat → Prop} (h : Advances x s P) :
    Advances (liftM x : Check A) s P := Yields.liftCore h

/-- An operation that never gives back numbers. -/
theorem Advances.of_keeps {x : Check A} {Q : A → Prop}
    (h : ∀ n, Keeps (OnStore fun s => n ≤ s.next) x Q) : Advances x s fun _ _ => True :=
  (Yields.of_keeps (h s.next) le_rfl).mono fun _ _ h => ⟨h.1, trivial⟩

theorem Advances.of_returns {x : Check A} {P Q : A → Prop}
    (h : ∀ n, Keeps (OnStore fun s => n ≤ s.next) x Q) (hx : Check.Returns x P) :
    Advances x s fun a _ => P a := by
  intro a s' hrun
  refine ⟨(Advances.of_keeps h a s' hrun).1, ?_⟩
  obtain ⟨r, r', -, -, hrun⟩ := hrun
  exact hx r a r' hrun

/-! ## The terms of patterns -/

theorem Pattern.parts_subset {ps : List (Pattern Term)} {p : Pattern Term} (hp : p ∈ ps) :
    p.parts ⊆ Pattern.partsOf ps := by
  induction ps with
  | nil => cases hp
  | cons q ps ih =>
    rw [Pattern.partsOf_cons]
    rcases List.mem_cons.mp hp with rfl | hp
    · exact List.subset_append_left _ _
    · exact List.subset_append_of_subset_right _ (ih hp)

mutual

theorem Pattern.tames_toTerm {N : Nat} : ∀ (p : Pattern Term) {s : Store}, N ≤ s.next →
    (∀ x, .binder x ∈ p.parts → x.Old N nothing) → Tames p.toTerm s (Vars.old N)
  | .bind x type, s => by
    intro hN hp
    have hx : x.Old N nothing := hp x (by simp [Pattern.parts])
    rw [Pattern.toTerm]
    exact Traversal.tames_ref hx (hx.later hN)
  | .con c args, s => by
    intro hN hp
    rw [Pattern.toTerm]
    refine (Pattern.tames_toTerms args hN hp).bind fun ts s₁ _ hts => ?_
    exact Traversal.tames_plain rfl rfl rfl (by simp) (tameAll_map.mpr hts)
  | .wild, s | .absurd, s | .tuple _, s | .record .., s => by
    intro _ _
    rw [Pattern.toTerm]
    exact Traversal.tames_plain rfl rfl rfl (by simp) tameAll_nil

theorem Pattern.tames_toTerms {N : Nat} : ∀ (ps : List (Pattern Term)) {s : Store}, N ≤ s.next →
    (∀ x, .binder x ∈ Pattern.partsOf ps → x.Old N nothing) →
      Advances (Pattern.toTerms ps) s fun ts M => ∀ t ∈ ts, t.Tame M (Vars.old N)
  | [], s => by
    intro _ _
    rw [Pattern.toTerms]
    exact .pure (by simp)
  | p :: ps, s => by
    intro hN hps
    rw [Pattern.partsOf_cons] at hps
    rw [Pattern.toTerms]
    refine (Pattern.tames_toTerm p hN fun x hx => hps x (List.mem_append_left _ hx)).bind
      fun t s₁ hle ht => ?_
    refine (Pattern.tames_toTerms ps (hN.trans hle) fun x hx =>
      hps x (List.mem_append_right _ hx)).bind fun ts s₂ hle' hts => .pure ?_
    exact List.forall_mem_cons.mpr ⟨ht.later hle', hts⟩

end

/-! ## The rules of the checker -/

namespace Typing

variable {k : Checker} {fuel N : Nat} {self : Scope → Term → Option Term → Check Term}

/-- The recursive call of the checker infers tame types for tame terms. -/
structure InfersTame (N : Nat) (infer : Scope → Term → Option Term → Check Term) : Prop where
  next : ∀ n, Respects .unrestricted (OnStore fun s => n ≤ s.next) infer
  tame : ∀ {scope t D s}, N ≤ s.next → (∀ x, Vars.old N x → D x) → scope.Tame s.next D →
    t.Tame s.next D → Tames (infer scope t none) s D

section Rules

variable (hsig : k.sig.Tame N) (hself : InfersTame N self) {scope : Scope} {t : Term} {D : Vars}
  {s : Store}
variable {ps : Telescope Term}

theorem advances_refuse {e : TypeError} {P : A → Nat → Prop} :
    Advances (refuse e : Check A) s P := .throw

theorem advances_refuse_bind {A B : Type} {e : TypeError} {f : A → Check B} {P : B → Nat → Prop} :
    Advances (refuse e >>= f) s P :=
  Advances.bind (P := fun _ _ => False) advances_refuse fun _ _ _ h => h.elim

theorem tames_univ (sort : USort) :
    Tames (liftM (Core.build (.univ sort)) : Check Term) s D :=
  (Traversal.tames_plain rfl rfl rfl (by simp) tameAll_nil).liftCore

include hself in
theorem advances_self (scope : Scope) (t : Term) (expected : Option Term) :
    Advances (self scope t expected) s fun _ _ => True :=
  .of_keeps fun n => hself.next n scope t expected (within_unrestricted scope)
    (Region.within_unrestricted t) fun u _ => Region.within_unrestricted u

theorem advances_subst (t : Term) (σ : Substitution) :
    Advances (liftM (t.subst k.sig fuel σ) : Check Term) s fun _ _ => True :=
  .of_keeps fun n => ((next_solverInvariant k.sig n).subst fuel (Region.within_unrestricted t)
    (Region.holds_unrestricted _)).liftCore

theorem advances_addVar {x : Var} {A : Term} (hscope : scope.Tame s.next D)
    (hA : A.Tame s.next D) : Advances (k.addVar scope x (some A) t) s fun inner N =>
      inner.Tame N (D.and [x]) := by
  rw [Checker.addVar, Context.add?]
  split
  next context hcontext =>
    split at hcontext
    · cases hcontext
    · obtain rfl := Option.some.inj hcontext
      exact .pure (hscope.add hA)
  next => exact advances_refuse

theorem advances_headTypeM (hps : TameAll s.next (ps.sites D [])) :
    Tames (liftM ps.headTypeM : Check Term) s D :=
  (Conversion.advances_headTypeM ps).liftCore.mono fun _ _ hle hA => (hps.headType hA).later hle

include hself in
/-- The parameters of a telescope come into scope. -/
theorem advances_params {u : Term} (hscope : scope.Tame s.next D)
    (hps : TameAll s.next (ps.sites D [])) :
    Advances (params k self u scope ps) s fun inner N =>
      inner.Tame N (D.and ps.vars) := by
  induction ps generalizing scope D s with
  | nil => exact .pure (hscope.mono le_rfl Vars.le_and)
  | cons p ps ih =>
    have hbound {s₁ : Store} (hle : s.next ≤ s₁.next) : Advances (do
        let type ← (Telescope.headTypeM (p :: ps) : Check Term)
        let scope ← k.addVar scope p.var type type
        params k self u scope ps) s₁ fun inner N =>
          inner.Tame N (D.and (Telescope.vars (p :: ps))) := by
      refine (advances_headTypeM (hps.later hle)).bind fun A s₂ hle₂ hA => ?_
      have hle := hle.trans hle₂
      refine (advances_addVar (hscope.mono hle .refl) hA).bind fun inner s₃ hle₃ hinner => ?_
      refine (ih hinner (hps.tail.later (hle.trans hle₃))).mono fun inner N _ h => ?_
      exact h.mono le_rfl (Vars.and_and_le [p.var])
    rw [params]
    split
    next type _ =>
      exact (advances_self hself scope type (some u)).bind fun _ s₁ hle _ => hbound hle
    next => exact hbound le_rfl

include hself in
theorem advances_paramsIn (sort : USort) (hscope : scope.Tame s.next D)
    (hps : TameAll s.next (ps.sites D [])) :
    Advances (paramsIn k self scope ps sort) s fun inner N =>
      inner.Tame N (D.and ps.vars) :=
  (tames_univ (D := D) sort).bind fun _ _ hle _ =>
    advances_params hself (hscope.mono hle .refl) (hps.later hle)

include hself in
/-- The arguments of a call take the place of parameters. -/
theorem advances_callArgs {first : Option Term} {σ : Substitution} {columns : List (Column Term)}
    {args : List Term} (hσ : σ.exprs.Tame s.next D) (hargs : ∀ a ∈ args, a.Tame s.next D) :
    Advances (callArgs k fuel self scope t first σ columns args) s fun σ' N =>
      σ'.exprs.Tame N D := by
  have hfrom {first : Option Term} {σ : Substitution} {args : List Term} {s : Store}
      (hσ : σ.exprs.Tame s.next D) (hargs : ∀ a ∈ args, a.Tame s.next D) :
      Advances (argsFrom k fuel self scope first σ columns args) s fun σ' N =>
        σ'.exprs.Tame N D := by
    induction columns generalizing first σ args s with
    | nil => exact .pure hσ
    | cons c columns ih =>
      cases args with
      | nil => exact .pure hσ
      | cons a args =>
        rw [List.forall_mem_cons] at hargs
        have hrest {s₁ : Store} (type : Term) (hle : s.next ≤ s₁.next) : Advances (do
            let _ ← self scope a (some type)
            argsFrom k fuel self scope none (σ.bind c.var a) columns args) s₁ fun σ' N =>
              σ'.exprs.Tame N D := by
          refine (advances_self hself scope a (some type)).bind fun _ s₂ hle₂ _ => ?_
          have hle := hle.trans hle₂
          exact ih ((hσ.later hle).insert c.var (hargs.1.later hle))
            fun b hb => (hargs.2 b hb).later hle
        unfold argsFrom
        split
        next type =>
          exact Advances.bind (P := fun _ _ => True) (.pure trivial) fun type _ hle _ =>
            hrest type hle
        next =>
          have htype : Advances c.typeM s fun _ _ => True := by
            unfold Column.typeM
            split
            · exact .pure trivial
            · exact .throw
          refine htype.liftCore.bind fun type s₁ hle _ => ?_
          exact (advances_subst type σ).bind fun type s₂ hle₂ _ => hrest type (hle.trans hle₂)
  rw [callArgs]
  split
  · exact advances_refuse_bind
  · exact hfrom hσ hargs

/-- A function type at an argument. -/
theorem tames_instantiatePi {sort : USort} {codomain arg : Term}
    (hps : TameAll s.next (ps.sites D []))
    (hcodomain : codomain.Tame s.next (D.and ps.vars)) (harg : arg.Tame s.next D) :
    Tames (instantiatePi k.sig fuel sort ps codomain [arg]) s D := by
  have htraverse : Traversal.Tames (Traversal.traverse k.sig fuel) := Traversal.tames_traverse k.sig fuel
  unfold instantiatePi
  cases ps with
  | nil => exact Advances.bind (P := fun _ _ => False) .throw fun _ _ _ h => h.elim
  | cons p ps =>
    rw [if_neg (by simp)]
    cases ps with
    | nil => exact Traversal.tames_applyFrom htraverse hcodomain (.instance harg p.var)
    | cons q ps =>
      refine (Traversal.tames_abstraction htraverse (fun _ => .pi sort) hps.tail ?_
        (.instance harg p.var)).start
      exact hcodomain.mono le_rfl (Vars.and_append_le [p.var])

variable (hN : N ≤ s.next) (hD : ∀ x, Vars.old N x → D x) (hscope : scope.Tame s.next D)

include hsig hself hN hD hscope

theorem tames_application {fn arg : Term} (hfn : fn.Tame s.next D) (harg : arg.Tame s.next D) :
    Tames (application k fuel self scope fn arg) s D := by
  refine (hself.tame hN hD hscope hfn).bind fun type s₁ hle₁ htype => ?_
  refine (tames_whnf hsig.bodies hD fuel (hN.trans hle₁) htype).liftCore.bind
    fun type s₂ hle₂ htype => ?_
  split
  next sort ps codomain hnode =>
    obtain ⟨hps, hcodomain⟩ := tameAll_append.mp (htype.reads hnode)
    refine (advances_headTypeM hps).bind fun domain s₃ hle₃ _ => ?_
    refine (advances_self hself scope arg (some domain)).bind fun _ s₄ hle₄ _ => ?_
    have hle := hle₃.trans hle₄
    refine (tames_instantiatePi (hps.later hle) ((tameAll_cons.mp hcodomain).1.later hle)
      (harg.later ?_)).liftCore
    exact hle₁.trans (hle₂.trans hle)
  next => exact advances_refuse

omit hscope in
theorem tames_call {f : FuncName} {sortArg : USort} {args : List Term}
    (hargs : ∀ a ∈ args, a.Tame s.next D) :
    Tames (call k fuel self scope t f sortArg args) s D := by
  have hfirst : Advances (propEqualityDomain f sortArg) s fun _ _ => True :=
    .of_keeps fun n => keeps_propEqualityDomain (next_solverInvariant k.sig n) f sortArg
  refine hfirst.bind fun first s₁ hle₁ _ => ?_
  refine (advances_callArgs hself Mapping.tame_empty fun a ha => (hargs a ha).later hle₁).bind
    fun σ s₂ hle₂ hσ => ?_
  exact (Reduction.tames_instance hD (hN.trans (hle₁.trans hle₂))
    (hsig.resultType f) hσ).liftCore

omit hself hscope in
theorem advances_dataType {c : ConApp Term} (hdata : ∀ a ∈ c.dataArgs, a.Tame s.next D) :
    Advances (c.dataType k.sig fuel) s fun d N => ∀ a ∈ d.args, a.Tame N D := by
  unfold ConApp.dataType
  dsimp only
  split
  · exact .pure hdata
  next ps hps =>
    have hps := hsig.plain.patterns c.con ps hps
    have hmapped : (k.sig.dataMapping c.con c.dataArgs).Tame s.next D :=
      Mapping.tame_empty.insertVars _ hdata
    refine (Advances.mapM (P := fun u N => u.Tame N D) (fun _ _ _ hle hu => hu.later hle)
      fun p hp s₁ hle => ?_).bind fun args s₁ _ hargs => .pure hargs.2
    refine (Pattern.tames_toTerm p (hN.trans hle) fun x hx =>
      hps.binders x (Pattern.parts_subset hp hx)).bind fun u s₂ hle₂ hu => ?_
    have hσ : (Substitution.ofMapping (k.sig.dataMapping c.con c.dataArgs)).Tame s₂.next s₂.next
        (Vars.old N) D :=
      Substitution.tame_of_exprs (hmapped.later (hle.trans hle₂)) le_rfl
        fun x hx _ => hD x hx
    exact Traversal.tames_applyFrom (Traversal.tames_traverse k.sig fuel) hu hσ

omit hscope in
theorem tames_constructor {c : ConApp Term} (hdata : ∀ a ∈ c.dataArgs, a.Tame s.next D)
    (hargs : ∀ a ∈ c.args, a.Tame s.next D) : Tames (constructor k fuel self scope t c) s D := by
  refine (advances_callArgs hself Mapping.tame_empty hdata).bind fun σ s₁ hle₁ hσ => ?_
  refine (advances_callArgs hself hσ fun a ha => (hargs a ha).later hle₁).bind fun _ s₂ hle₂ _ => ?_
  have hle := hle₁.trans hle₂
  refine (advances_dataType hsig (hN.trans hle) hD fun a ha =>
    (hdata a ha).later hle).liftCore.bind fun d s₃ hle₃ hd => ?_
  exact (Traversal.tames_plain rfl rfl rfl (by simp) (tameAll_map.mpr hd)).liftCore

theorem tames_projection {u : Term} (index : Int64) (hu : u.Tame s.next D) :
    Tames (projection k fuel self scope t u index) s D := by
  refine (hself.tame hN hD hscope hu).bind fun type s₁ hle₁ htype => ?_
  refine (tames_whnf hsig.bodies hD fuel (hN.trans hle₁) htype).liftCore.bind
    fun type s₂ hle₂ htype => ?_
  split
  next sigma hnode =>
    have hps : TameAll s₂.next (Telescope.sites D [] sigma.params) := htype.reads hnode
    dsimp only
    split
    · exact advances_refuse_bind
    have hprefix := List.prefix_iff_eq_append.mp
      (List.take_prefix index.toNatClampNeg (Telescope.columns sigma.params))
    generalize List.take index.toNatClampNeg (Telescope.columns sigma.params) = before at hprefix ⊢
    have hprojs : Advances ((List.range before.length).mapM fun i => (makeProj u (.ofNat i) :
        Core Term) : Check (List Term)) s₂ fun ts N =>
          ts.length = (List.range before.length).length ∧ ∀ t ∈ ts, t.Tame N D :=
      .mapM (fun _ _ _ hle ht => ht.later hle) fun i _ s₃ hle =>
        (Traversal.tames_makeProj (hu.later (hle₁.trans (hle₂.trans hle)))).liftCore
    refine hprojs.bind fun projs s₃ hle₃ hprojs => ?_
    rw [List.length_range] at hprojs
    split
    · exact .throw
    next c rest hdrop =>
      rw [hdrop] at hprefix
      have htypeM : Advances c.typeM s₃ fun A N => A.Tame N (D.and (before.map Column.var)) := by
        unfold Column.typeM
        split
        next A hA => exact .pure ((hps.column hprefix.symm hA).later hle₃)
        next => exact .throw
      refine htypeM.liftCore.bind fun A s₄ hle₄ hA => ?_
      have hm : (Mapping.empty.insertVars (before.map Column.var) projs).Tame s₄.next D :=
        Mapping.tame_empty.insertVars _ fun t ht => (hprojs.2 t ht).later hle₄
      refine (Traversal.tames_applyFrom (Traversal.tames_traverse k.sig fuel) hA
        (Substitution.tame_of_exprs hm le_rfl fun x hx hnone => ?_)).liftCore
      refine hx.resolve_left fun hmem => ?_
      exact Mapping.get?_insertVars_ne_none (by simpa using hprojs.1) (.inl hmem) hnone
  next => exact advances_refuse

omit hsig hN hD hscope in
/-- The type of a record type is a universe; what is checked on the way only uses up numbers. -/
theorem tames_recordType (r : RecordType Term) :
    Tames (recordType k fuel self scope t r) s D := by
  have hscopes (scope : Scope) := within_unrestricted scope
  have hterms (t : Term) := Region.within_unrestricted t
  have hI (n : Nat) := next_solverInvariant k.sig n
  have hsig := Region.signature_unrestricted k.sig
  have hsort {s : Store} := tames_univ (s := s) (D := D) r.sort
  have hadded : Advances (k.addVar scope r.this (some t) t) s fun _ _ => True :=
    .of_keeps fun n => keeps_addVar _ _ (hscopes scope) fun u _ => hterms u
  refine hadded.bind fun scope s₁ _ _ => ?_
  dsimp only
  split
  · exact advances_refuse_bind
  refine (Advances.of_keeps (Q := fun _ => True) fun n => ?_).bind fun this s₂ _ _ => ?_
  · exact ((hI n).build (Node.within_iff.mpr (Region.holds_unrestricted _))).liftCore.mono
      fun _ _ => trivial
  refine (Advances.of_keeps (Q := fun _ => True) fun n =>
    Keeps.forIn (fun f _ _ _ => ?_) trivial).bind fun _ s₃ _ _ => ?_
  · split
    · refine ((hI n).fieldTypeAt hsig fuel f _ (hterms this)).liftCore.bind fun type htype => ?_
      exact ((hself.next n).against (hscopes scope) (hterms _) htype).then_pure
    · exact .pure trivial
  split
  · refine (Advances.of_keeps (Q := fun _ => True) fun n =>
      Keeps.forIn (fun f _ _ _ => ?_) trivial).bind fun _ s₄ _ _ => ?_
    · exact (keeps_openField (hI n) hsig (hself.next n) fuel t r _ f (hscopes scope)
        (hterms this)).then_pure
    split
    · split
      · exact advances_refuse_bind
      · exact hsort
    · exact hsort
  · split
    · split
      · exact advances_refuse_bind
      · exact hsort
    · exact hsort

omit hsig hN hD hscope in
theorem tames_recordValue {renewed : Option Term} {type : Stamped (RecordType Term)}
    (htype : type.record.Tame s.next D) :
    Tames (recordValue k self scope t renewed type) s D := by
  refine (advances_self hself scope type.record none).bind fun _ s₁ hle₁ _ => ?_
  dsimp only
  split
  · exact advances_refuse_bind
  split
  next u =>
    refine (Advances.of_keeps (Q := fun _ => True) fun n => ?_).bind fun bare s₂ hle₂ _ => ?_
    · exact ((next_solverInvariant k.sig n).newRecordType _ _ _ _).liftCore.mono fun _ _ => trivial
    refine (Advances.of_keeps (Q := fun _ => True) fun n => ?_).bind fun bare s₃ hle₃ _ => ?_
    · exact ((next_solverInvariant k.sig n).build
        (Node.within_iff.mpr (Region.holds_unrestricted _))).liftCore.mono fun _ _ => trivial
    refine (advances_self hself scope u (some bare)).bind fun _ s₄ hle₄ _ => .pure (htype.later ?_)
    exact hle₁.trans (hle₂.trans (hle₃.trans hle₄))
  next => exact .pure (htype.later hle₁)

omit hsig hN hD hscope in
theorem advances_typeIn (k : Checker) (u : Term) (sort : USort) :
    Advances (typeIn self scope u sort) s fun _ _ => True :=
  .of_keeps fun n => keeps_typeIn (next_solverInvariant k.sig n) (hself.next n) sort
    (within_unrestricted scope) (Region.within_unrestricted u)

/-- One step of inference; the cases follow the forms of terms. -/
theorem tames_step (ht : t.Tame s.next D) : Tames (step k fuel self scope t none) s D := by
  have hform := ht.form
  have hrefs := ht.scope
  have hbinders := ht.binders
  have hinner := ht.inner
  obtain ⟨stamp, node⟩ := t
  have hsites := ht.sites
  have hconclude : conclude k fuel (.mk stamp node) none = pure := rfl
  unfold step
  dsimp only
  rw [hconclude]
  cases node with
  | letIn | case | unknown | delayed => cases hform
  | ref x =>
    dsimp only [Term.node]
    rw [bind_pure]
    have hkind := (hrefs x (List.mem_singleton.mpr rfl)).2.kind
    have hnext (n : Nat) := keeps_variableType (k := k) (x := x) (next_solverInvariant k.sig n)
      (.mk stamp (.ref x)) (within_unrestricted scope) fun _ => trivial
    have hfound := Advances.of_returns (s := s) hnext (returns_variableType hkind)
    exact hfound.mono fun A N hle hA => (hscope x A hA).later hle
  | app fn arg =>
    dsimp only [Term.node]
    rw [bind_pure]
    obtain ⟨hfn, harg⟩ := tameAll_cons.mp hsites
    exact tames_application hsig hself hN hD hscope hfn (tameAll_cons.mp harg).1
  | call f sortArg args =>
    dsimp only [Term.node]
    rw [bind_pure]
    exact tames_call hsig hself hN hD (tameAll_map.mp hsites)
  | con c =>
    dsimp only [Term.node]
    rw [bind_pure]
    obtain ⟨hdata, hargs⟩ := tameAll_append.mp hsites
    exact tames_constructor hsig hself hN hD (tameAll_map.mp hdata) (tameAll_map.mp hargs)
  | data d =>
    dsimp only [Term.node]
    rw [bind_pure]
    exact (advances_callArgs hself Mapping.tame_empty (tameAll_map.mp hsites)).bind
      fun _ _ _ _ => tames_univ _
  | field f sortArg arg =>
    have harg := (tameAll_cons.mp hsites).1
    refine (advances_self hself scope arg _).bind fun _ s₁ hle _ => ?_
    rw [bind_pure]
    have hm : (Mapping.single (.local (k.sig.record (k.sig.field f).record).this) arg).Tame
        s₁.next D := Mapping.tame_empty.insert _ (harg.later hle)
    exact (Reduction.tames_instance hD (hN.trans hle) (hsig.field f) hm).liftCore
  | record r =>
    dsimp only [Term.node]
    rw [bind_pure]
    exact tames_recordType hself r
  | lam sort ps body =>
    obtain ⟨hps, hbody⟩ := tameAll_append.mp hsites
    replace hbody := (tameAll_cons.mp hbody).1
    have hold (x : Var) (hx : x ∈ Telescope.vars ps) : x.Old s.next nothing :=
      hbinders x (List.mem_append_left _ (Telescope.binder_mem_parts.mpr hx))
    refine (advances_paramsIn hself _ hscope hps).bind fun inner s₁ hle₁ hinner => ?_
    refine (hself.tame (hN.trans hle₁) (fun x hx => .inr (hD x hx)) hinner
      (hbody.later hle₁)).bind fun codomain s₂ hle₂ hcodomain => ?_
    rw [bind_pure]
    have hle := hle₁.trans hle₂
    exact (Traversal.tames_abstract (.pi sort) (hps.later hle)
      (fun x hx => (hold x hx).later hle) hcodomain).liftCore
  | pi sort ps codomain =>
    refine (advances_paramsIn hself _ hscope (tameAll_append.mp hsites).1).bind fun inner s₁ _ _ => ?_
    refine (advances_typeIn hself k codomain sort).bind fun _ s₂ _ _ => ?_
    rw [bind_pure]
    exact tames_univ _
  | sigma sigma =>
    refine (advances_paramsIn hself _ hscope hsites).bind fun inner s₁ _ _ => ?_
    rw [bind_pure]
    exact tames_univ _
  | tuple fields type =>
    obtain ⟨hfields, htype⟩ := tameAll_append.mp hsites
    rw [tameAll_map] at hfields
    have hsigma : type.sigma.Tame s.next D := by
      refine ⟨rfl, hinner _ (List.mem_singleton.mpr rfl), by simp,
        by simp, fun x hx => hbinders x ?_, htype⟩
      simp only [Term.node, Node.parts, List.mem_append]
      exact .inr hx
    refine (advances_self hself scope type.sigma none).bind fun _ s₁ hle₁ _ => ?_
    refine (advances_callArgs hself Mapping.tame_empty fun u hu => (hfields u hu).later hle₁).bind
      fun _ s₂ hle₂ _ => .pure (hsigma.later (hle₁.trans hle₂))
  | proj u index =>
    dsimp only [Term.node]
    rw [bind_pure]
    exact tames_projection hsig hself hN hD hscope index (tameAll_cons.mp hsites).1
  | univ sort =>
    dsimp only [Term.node]
    split
    · exact advances_refuse_bind
    · rw [bind_pure]
      exact tames_univ _
  | new renewed type =>
    dsimp only [Term.node]
    rw [bind_pure]
    refine tames_recordValue hself ⟨rfl, hinner _ (List.mem_singleton.mpr rfl),
      by simp, by simp, fun x hx => hbinders x ?_,
      (tameAll_append.mp hsites).2⟩
    simp only [Term.node, Node.parts, List.mem_append]
    exact .inr hx
  | ofType u type =>
    obtain ⟨hu, htype⟩ := tameAll_cons.mp hsites
    replace htype := (tameAll_cons.mp htype).1
    refine (advances_typeIn hself k type .omega).bind fun _ s₁ hle₁ _ => ?_
    refine (advances_self hself scope u (some type)).bind fun _ s₂ hle₂ _ => .pure ?_
    exact htype.later (hle₁.trans hle₂)
  | int n =>
    dsimp only [Term.node]
    rw [bind_pure]
    exact (Traversal.tames_plain rfl rfl rfl (by simp) tameAll_nil).liftCore
  | hole goal part => cases goal <;> exact advances_refuse

end Rules

theorem infersTame_term (hk : k.traceDepth = 0) (hsig : k.sig.Tame N) (fuel : Nat) :
    InfersTame N (term k fuel) where
  next n := respects_term (next_solverInvariant k.sig n) (Region.signature_unrestricted k.sig) fuel
  tame {scope t D s} hN hD hscope ht := by
    induction fuel generalizing scope t D s with
    | zero => exact .throw
    | succ fuel ih =>
      have hself : InfersTame N (term k fuel) :=
        ⟨fun n => respects_term (next_solverInvariant k.sig n)
          (Region.signature_unrestricted k.sig) fuel, ih⟩
      rw [term_succ hk]
      exact tames_step hsig hself hN hD hscope ht

end Typing

end Recheck
