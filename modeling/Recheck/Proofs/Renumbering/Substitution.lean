import Recheck.Proofs.Renumbering.Primitives

/-!
# Recheck — substitution, seen from two runs

One lemma for each function of a traversal, relative to recursive calls that do the same on
both sides, and from them, by induction on the depth, the same for whole traversals and the
operations that are made of them. The second run may have more fuel than the first.
-/

namespace Recheck

open List (Forall₂)

namespace Traversal

/-- The recursive calls of two traversals do the same. -/
def Alike (β : Pairing) (self self' : Substitution → Term → Traversal Term) : Prop :=
  ∀ σ σ' t t', σ.Paired β σ' → t.Like β t' → Mirrors β (self σ t) (self' σ' t') (Term.Like β)

section Scopes

variable {β : Pairing} {σ σ' : Substitution}

theorem paired_onShared (σ σ' : Substitution) (f f' : Shared → Shared) {s s' : Store}
    (hs : s.Paired β s') : (σ.onShared f s).Paired β (σ'.onShared f' s') := by
  rwa [Store.Paired, Substitution.onShared_next, Substitution.onShared_next]

theorem mirrors_enter {x x' : Var} {t t' : Term} (hσ : σ.Paired β σ') (hx : x.Paired β x')
    (ht : t.Like β t') : Mirrors β (enter σ x t) (enter σ' x' t') (Substitution.Paired β) := by
  have hbind := hσ.bind hx ht
  exact (Mirrors.modify fun _ _ hs => paired_onShared _ _ _ _ hs).bind fun _ _ _ => .pure hbind

theorem mirrors_inScope {A : Type} {x x' : Traversal A} {R : A → A → Prop}
    (hx : Mirrors β x x' R) : Mirrors β (inScope σ x) (inScope σ' x') R := by
  intro r r' hr s s' hs
  have h := hx r r' hr s s' hs
  simp only [inScope]
  cases hrun : x r s with
  | ok p s₁ =>
    rw [hrun] at h
    obtain ⟨p', s₁', hrun', hp, hs₁⟩ := h
    rw [hrun']
    exact ⟨p', _, rfl, hp, paired_onShared σ σ' _ _ hs₁⟩
  | error e s₁ =>
    rw [hrun] at h
    refine h.imp id ?_
    rintro ⟨s₁', hrun', hs₁⟩
    exact ⟨_, by rw [hrun'], paired_onShared σ σ' _ _ hs₁⟩

end Scopes

section Step

variable {sig : Signature} {β : Pairing} {self self'}
  (hself : Alike β self self') {σ σ' : Substitution} (hσ : σ.Paired β σ')
variable {t t' arg arg' : Term} {ps ps' : Telescope Term} {r r' : RecordType Term}

include hself hσ in
theorem Alike.mapM {ts ts' : List Term} (hts : Term.AllLike β ts ts') :
    Mirrors β (ts.mapM (self σ)) (ts'.mapM (self' σ')) (Term.AllLike β) :=
  Mirrors.mapM hts fun _ _ ht => hself _ _ _ _ hσ ht

include hself hσ in
theorem Alike.optional {o o' : Option Term} (ho : Option.Rel (Term.Like β) o o') :
    Mirrors β (o.mapM (self σ)) (o'.mapM (self' σ')) (Option.Rel (Term.Like β)) :=
  Mirrors.optionMapM ho fun _ _ ht => hself _ _ _ _ hσ ht

include hself

theorem mirrors_applyFrom (hσ : σ.Paired β σ') (ht : t.Like β t') :
    Mirrors β (applyFrom self σ t) (applyFrom self' σ' t') (Term.Like β) :=
  Mirrors.ite (by rw [hσ.isIdentity]) (fun _ => .pure ht) fun _ =>
    (hself _ _ _ _ hσ ht).start

theorem mirrors_params (hσ : σ.Paired β σ') (hps : Telescope.Like β ps ps') :
    Mirrors β (params self σ ps) (params self' σ' ps') fun p p' =>
      Telescope.Like β p.1 p'.1 ∧ p.2.Paired β p'.2 := by
  induction hps generalizing σ σ' with
  | nil => exact .pure ⟨.nil, hσ⟩
  | cons hp _ ih =>
    obtain ⟨hx, htype⟩ := hp
    rw [params, params]
    refine (hself.optional hσ htype).bind fun type type' htype => ?_
    rw [hx.name]
    refine (mirrors_freshParam _).lift.bind fun y y' hy => ?_
    refine (mirrors_buildRef hy).lift.bind fun ref ref' href => ?_
    refine (mirrors_enter hσ hx href).lift.bind fun τ τ' hτ => ?_
    exact (ih hτ).bind fun q q' hq => .pure ⟨.cons ⟨hy, htype⟩ hq.1, hq.2⟩

theorem mirrors_composeFrom {m m' n n' : Mapping Term} (hm : m.Like β m')
    (hn : n.Like β n') (levels : LevelSubst) :
    Mirrors β (composeFrom self m (.of n levels)) (composeFrom self' m' (.of n' levels))
      (Mapping.Like β) := by
  have hσ : (Substitution.of n levels).Paired β (.of n' levels) := .of hn levels
  refine Mirrors.ite (by rw [hm.isEmpty]) (fun _ => .pure hn) fun _ => ?_
  refine Mirrors.ite (by rw [hσ.isIdentity]) (fun _ => .pure hm) fun _ => ?_
  refine Mirrors.bind (R := Forall₂ fun e e' => e.1.Paired β e'.1 ∧ e.2.Like β e'.2)
    (Mirrors.mapM hm fun e e' he => ?_) fun es es' hes => .pure ?_
  · exact (mirrors_applyFrom hself hσ he.2).bind fun u u' hu => .pure ⟨he.1, hu⟩
  · have hkept (v v' : Variable) (hv : v.Paired β v') : (!m.contains v) = !m'.contains v' := by
      rw [hm.contains hv]
    exact List.rel_append hes (hn.filter hkept)

theorem mirrors_beta (sort : USort) {body body' : Term} (hbody : body.Like β body')
    (harg : arg.Like β arg') (hps : Telescope.Like β ps ps') :
    Mirrors β (beta self sort body arg ps) (beta self' sort body' arg' ps') (Term.Like β) := by
  cases hps with
  | nil => exact .throw
  | cons hp hps =>
    have hσ : (Substitution.single _ arg).Paired β (.single _ arg') := .single hp.var harg
    cases hps with
    | nil => exact mirrors_applyFrom hself hσ hbody
    | cons hq hqs =>
      refine Mirrors.start ((mirrors_params hself hσ (.cons hq hqs)).bind fun p p' hp => ?_)
      refine (hself _ _ _ _ hp.2 hbody).bind fun b b' hb => ?_
      exact (mirrors_build (.lam sort hp.1 hb)).lift

theorem mirrors_makeAppFrom {fn fn' : Term} {args args' : List Term} (hfn : fn.Like β fn')
    (hargs : Term.AllLike β args args') :
    Mirrors β (makeAppFrom self fn args) (makeAppFrom self' fn' args') (Term.Like β) := by
  induction hargs generalizing fn fn' with
  | nil => exact .pure hfn
  | cons harg _ ih =>
    rw [makeAppFrom, makeAppFrom]
    have happ := (mirrors_build (.app hfn harg)).bind fun g g' hg => ih hg
    obtain ⟨-, hnode⟩ := hfn.destruct
    cases hnode with
    | lam sort hps hbody =>
      exact (mirrors_beta hself sort hbody harg hps).bind fun g g' hg => ih hg
    | _ => exact happ

theorem mirrors_implementationFrom (f : FieldName) {this this' : Term}
    (hr : r.Like β r') (hthis : this.Like β this') :
    Mirrors β (implementationFrom self r f this) (implementationFrom self' r' f this')
      (Option.Rel (Term.Like β)) :=
  Mirrors.optionMapM (hr.impl? f) fun _ _ himpl =>
    mirrors_applyFrom hself (.single hr.this hthis) himpl

theorem mirrors_makeFieldFrom (f : FieldName) (sortArg : USort) (harg : arg.Like β arg') :
    Mirrors β (makeFieldFrom self f sortArg arg) (makeFieldFrom self' f sortArg arg')
      (Term.Like β) := by
  have hfield : Mirrors β (Core.build (.field f sortArg arg)) (Core.build (.field f sortArg arg'))
      (Term.Like β) := mirrors_build (.field f sortArg harg)
  obtain ⟨-, hnode⟩ := harg.destruct
  cases hnode with
  | new hrenewed hn hr =>
    refine (mirrors_implementationFrom hself f hr harg).bind fun o o' ho => ?_
    cases ho with
    | some himpl => exact .pure himpl
    | none => exact hfield
  | _ => exact hfield

theorem mirrors_recordType (hσ : σ.Paired β σ') (hr : r.Like β r') :
    Mirrors β (recordType sig self σ r) (recordType sig self' σ' r')
      (RecordType.Like β) := by
  have himplemented := sig.implemented_eq hr
  have himpl? := hr.impl?
  obtain ⟨himpls, hthis⟩ := hr
  rw [recordType, recordType, hσ.levels]
  refine (mirrors_newRecordType _ _ _ _).lift.bind fun copy copy' hcopy => ?_
  refine Mirrors.ite (by rw [forall₂_isEmpty himpls]) (fun _ => .pure hcopy) fun _ => ?_
  refine (mirrors_buildRef hcopy.this).lift.bind fun ref ref' href => ?_
  refine Mirrors.bind (R := Forall₂ fun e e' => e.1 = e'.1 ∧ e.2.Like β e'.2)
    (mirrors_inScope ?_) fun impls impls' himpls => ?_
  · refine (mirrors_enter hσ hthis href).lift.bind fun τ τ' hτ => ?_
    rw [himplemented]
    refine Mirrors.filterMapM (forall₂_eq _) ?_
    rintro f _ rfl
    refine Mirrors.optionMapM (himpl? f) fun impl impl' himpl => ?_
    exact (hself _ _ _ _ hτ himpl).bind fun e e' he => .pure ⟨rfl, he⟩
  · obtain ⟨-, hthis⟩ := hcopy
    exact .pure ⟨himpls, hthis⟩

set_option linter.unusedSectionVars false in
mutual

theorem mirrors_pattern : ∀ {σ σ' : Substitution} {p p' : Pattern Term}, σ.Paired β σ' →
    p.Like β p' →
      Mirrors β (pattern self σ p) (pattern self' σ' p') fun q q' =>
        q.1.Like β q'.1 ∧ q.2.Paired β q'.2
  | _, _, .bind .., _, hσ, .bind hx ht => by
    rw [pattern, pattern]
    refine (hself _ _ _ _ hσ ht).bind fun type type' htype => ?_
    rw [hx.name]
    refine (mirrors_freshParam _).lift.bind fun y y' hy => ?_
    refine (mirrors_buildRef hy).lift.bind fun ref ref' href => ?_
    exact (mirrors_enter hσ hx href).lift.bind fun τ τ' hτ => .pure ⟨.bind hy htype, hτ⟩
  | _, _, .wild, _, hσ, .wild => Mirrors.pure ⟨.wild, hσ⟩
  | _, _, .absurd, _, hσ, .absurd => Mirrors.pure ⟨.absurd, hσ⟩
  | _, _, .con .., _, hσ, .con c h =>
    (mirrors_patterns hσ h).bind fun _ _ hq => .pure ⟨.con c hq.1, hq.2⟩
  | _, _, .tuple _, _, hσ, .tuple h =>
    (mirrors_patterns hσ h).bind fun _ _ hq => .pure ⟨.tuple hq.1, hq.2⟩
  | _, _, .record .., _, hσ, .record fields h =>
    (mirrors_patterns hσ h).bind fun _ _ hq => .pure ⟨.record fields hq.1, hq.2⟩

theorem mirrors_patterns : ∀ {σ σ' : Substitution} {ps ps' : List (Pattern Term)},
    σ.Paired β σ' → Forall₂ (Pattern.Like β) ps ps' →
      Mirrors β (patterns self σ ps) (patterns self' σ' ps') fun q q' =>
        Forall₂ (Pattern.Like β) q.1 q'.1 ∧ q.2.Paired β q'.2
  | _, _, [], _, hσ, .nil => Mirrors.pure ⟨.nil, hσ⟩
  | _, _, _ :: _, _, hσ, .cons hp hps =>
    (mirrors_pattern hσ hp).bind fun _ _ hq => (mirrors_patterns hq.2 hps).bind
      fun _ _ hqs => .pure ⟨.cons hq.1 hqs.1, hqs.2⟩

end

theorem mirrors_clauseOf (hσ : σ.Paired β σ') {c c' : Clause Term}
    (hc : c.Like β c') :
    Mirrors β (clause self σ c) (clause self' σ' c') (Clause.Like β) := by
  obtain ⟨hps, hbody⟩ := hc
  refine mirrors_inScope ((mirrors_patterns hself hσ hps).bind fun q q' hq => ?_)
  exact (hself.optional hq.2 hbody).bind fun b b' hb => .pure ⟨hq.1, hb⟩

omit hself in
theorem branchKey_eq (hσ : σ.Paired β σ') : branchKey σ = branchKey σ' := by
  funext key
  cases key <;> simp [branchKey, hσ.levels]

set_option linter.unusedSectionVars false in
mutual

theorem mirrors_tree : ∀ {σ σ' : Substitution} {t t' : Tree Term}, σ.Paired β σ' →
    t.Like β t' →
      Mirrors β (tree self σ t) (tree self' σ' t') (Tree.Like β)
  | _, _, .leaf .., _, hσ, .leaf hps hbody => by
    rw [tree, tree]
    refine mirrors_inScope ((mirrors_params hself hσ hps).bind fun q q' hq => ?_)
    exact (hself _ _ _ _ hq.2 hbody).bind fun b b' hb => .pure (.leaf hq.1 hb)
  | _, _, .branch .., _, hσ, .branch hps hchildren => by
    rw [tree, tree]
    refine mirrors_inScope ((mirrors_params hself hσ hps).bind fun q q' hq => ?_)
    exact (mirrors_branches hq.2 hchildren).bind fun cs cs' hcs => .pure (.branch hq.1 hcs)

theorem mirrors_branches : ∀ {σ σ' : Substitution} {cs cs' : List (BranchKey × Tree Term)},
    σ.Paired β σ' → Tree.AllLike β cs cs' →
      Mirrors β (branches self σ cs) (branches self' σ' cs') (Tree.AllLike β)
  | _, _, [], _, _, .nil => Mirrors.pure .nil
  | _, _, _ :: _, _, hσ, .cons key ht hrest => by
    rw [branches, branches, branchKey_eq hσ]
    refine (mirrors_tree hσ ht).bind fun t t' ht => ?_
    exact (mirrors_branches hσ hrest).bind fun cs cs' hcs => .pure (.cons _ ht hcs)

end

theorem mirrors_elim (hσ : σ.Paired β σ') {e e' : Elim Term}
    (he : e.Like β e') :
    Mirrors β (elim self σ e) (elim self' σ' e') (Elim.Like β) := by
  obtain ⟨-, hclauses, htree⟩ := he
  rw [elim, elim]
  refine (Mirrors.mapM hclauses fun c c' hc => mirrors_clauseOf hself hσ hc).bind
    fun cs cs' hcs => ?_
  refine (Mirrors.optionMapM htree fun t t' ht => mirrors_tree hself hσ ht).bind
    fun t t' ht => ?_
  exact mirrors_freshStamp.lift.bind fun n n' hn => .pure ⟨hn, hcs, ht⟩

theorem mirrors_caseOf (hσ : σ.Paired β σ') {c c' : CaseOf Term}
    (hc : c.Like β c') :
    Mirrors β (caseOf self σ c) (caseOf self' σ' c') (CaseOf.Like β) := by
  obtain ⟨hps, hresult, hproof, helim, hargs⟩ := hc
  rw [caseOf, caseOf]
  refine (hself.mapM hσ hargs).bind fun args args' hargs => ?_
  refine Mirrors.get.lift.bind fun s s' _ => ?_
  refine (mirrors_params hself hσ hps).bind fun q q' hq => ?_
  refine (hself _ _ _ _ hq.2 hresult).bind fun t t' ht => ?_
  refine (hself.optional hq.2 hproof).bind fun o o' ho => ?_
  refine (Mirrors.modify fun _ _ hs => paired_onShared σ σ' _ _ hs).lift.bind fun _ _ _ => ?_
  refine (Mirrors.optionMapM helim fun e e' he => mirrors_elim hself hσ he).bind
    fun e e' he => ?_
  exact .pure ⟨hq.1, ht, ho, he, hargs⟩

/-- One step of a traversal; the cases follow the forms of terms. -/
theorem mirrors_step (hσ : σ.Paired β σ') (ht : t.Like β t') :
    Mirrors β (step sig self σ t) (step sig self' σ' t') (Term.Like β) := by
  obtain ⟨hstamp, hnode⟩ := ht.destruct
  rw [step, step]
  cases hnode with
  | ref hx =>
    have hget := hσ.get? _ _ (.local hx)
    simp only [Term.node]
    generalize σ.exprs.get? _ = o, σ'.exprs.get? _ = o' at hget ⊢
    cases hget with
    | some hu => exact .pure hu
    | none => exact Mirrors.ite (by rw [hx.kind]) (fun h => absurd h hx.ne_clause) fun _ => .pure ht
  | app hfn harg =>
    refine (hself _ _ _ _ hσ hfn).bind fun f f' hf => ?_
    refine (hself _ _ _ _ hσ harg).bind fun a a' ha => ?_
    exact (mirrors_makeAppFrom hself hf (.cons ha .nil)).lift
  | call f sort hargs =>
    refine (hself.mapM hσ hargs).bind fun ts ts' hts => ?_
    rw [hσ.levels]
    exact (mirrors_build (.call f _ hts)).lift
  | con c sort hdata hargs =>
    refine (hself.mapM hσ hdata).bind fun ds ds' hds => ?_
    refine (hself.mapM hσ hargs).bind fun ts ts' hts => ?_
    rw [hσ.levels]
    exact (mirrors_build (.con c _ hds hts)).lift
  | data d sort hargs =>
    refine (hself.mapM hσ hargs).bind fun ts ts' hts => ?_
    rw [hσ.levels]
    exact (mirrors_build (.data d _ hts)).lift
  | field f sort harg =>
    have hget := hσ.get? _ _ (.field f)
    simp only [Term.node]
    generalize σ.exprs.get? _ = o, σ'.exprs.get? _ = o' at hget ⊢
    cases hget with
    | some hu =>
      refine (hself _ _ _ _ hσ harg).bind fun a a' ha => ?_
      exact (mirrors_makeAppFrom hself hu (.cons ha .nil)).lift
    | none =>
      refine (hself _ _ _ _ hσ harg).bind fun a a' ha => ?_
      rw [hσ.levels]
      exact (mirrors_makeFieldFrom hself f _ ha).lift
  | record hr =>
    refine (mirrors_recordType hself hσ hr).bind fun r r' hr => ?_
    exact (mirrors_build (.record hr)).lift
  | lam sort hps hbody =>
    refine mirrors_inScope ((mirrors_params hself hσ hps).bind fun q q' hq => ?_)
    refine (hself _ _ _ _ hq.2 hbody).bind fun b b' hb => ?_
    rw [hq.2.levels]
    exact (mirrors_build (.lam _ hq.1 hb)).lift
  | pi sort hps hcodomain =>
    refine mirrors_inScope ((mirrors_params hself hσ hps).bind fun q q' hq => ?_)
    refine (hself _ _ _ _ hq.2 hcodomain).bind fun b b' hb => ?_
    rw [hq.2.levels]
    exact (mirrors_build (.pi _ hq.1 hb)).lift
  | sigma sort hps =>
    refine mirrors_inScope ((mirrors_params hself hσ hps).bind ?_)
    rintro ⟨ps, τ⟩ ⟨ps', τ'⟩ ⟨hps, hτ⟩
    have hlevels : τ.levels = τ'.levels := hτ.levels
    dsimp only
    rw [hlevels]
    exact (mirrors_build (.sigma _ hps)).lift
  | tuple sort hfields hn hps =>
    refine (hself.mapM hσ hfields).bind fun ts ts' hts => ?_
    refine (mirrors_inScope (mirrors_params hself hσ hps)).bind fun q q' hq => ?_
    refine mirrors_freshStamp.lift.bind fun k k' hk => ?_
    rw [hσ.levels]
    exact (mirrors_build (.tuple _ hts hk hq.1)).lift
  | proj hu index =>
    refine (hself _ _ _ _ hσ hu).bind fun u u' hu => ?_
    exact (mirrors_makeProj index hu).lift
  | univ sort =>
    refine Mirrors.ite (by rw [hσ.levels]) (fun _ => .pure ht) fun _ => ?_
    rw [hσ.levels]
    exact (mirrors_build (.univ _)).lift
  | new hrenewed hn hr =>
    refine (mirrors_recordType hself hσ hr).bind fun r r' hr => ?_
    refine (hself.optional hσ hrenewed).bind fun o o' ho => ?_
    refine mirrors_freshStamp.lift.bind fun k k' hk => ?_
    exact (mirrors_build (.new ho hk hr)).lift
  | case hc =>
    refine (mirrors_caseOf hself hσ hc).bind fun c c' hc => ?_
    exact (mirrors_build (.case hc)).lift
  | ofType hu htype =>
    refine (hself _ _ _ _ hσ hu).bind fun u u' hu => ?_
    refine (hself _ _ _ _ hσ htype).bind fun type type' htype => ?_
    exact (mirrors_build (.ofType hu htype)).lift
  | int _ => exact .pure ht
  | hole goal hpart =>
    cases hpart with
    | none => exact .pure ht
    | some hu =>
      refine (hself _ _ _ _ hσ hu).bind fun u u' hu => ?_
      exact (mirrors_build (.hole goal (.some hu))).lift

end Step

/-- Whole traversals do the same, also if the second one has more fuel. -/
theorem alike_traverse {β : Pairing} {sig : Signature} {fuel fuel' : Nat} (hle : fuel ≤ fuel') :
    Alike β (traverse sig fuel) (traverse sig fuel') := by
  induction fuel generalizing fuel' with
  | zero => exact fun _ _ _ _ _ _ => Mirrors.outOfFuelT
  | succ fuel ih =>
    obtain ⟨fuel', rfl, hrest⟩ := exists_fuel_of_succ_le hle
    exact fun _ _ _ _ hσ ht => mirrors_step (ih hrest) hσ ht

end Traversal

/-! ## The operations -/

section Operations

variable {β : Pairing} {sig : Signature} {fuel fuel' : Nat} (hle : fuel ≤ fuel')
variable {t t' : Term} {σ σ' : Substitution} {ps ps' : Telescope Term} {args args' : List Term}

include hle

theorem mirrors_subst (ht : t.Like β t') (hσ : σ.Paired β σ') :
    Mirrors β (t.subst sig fuel σ) (t'.subst sig fuel' σ') (Term.Like β) :=
  Traversal.mirrors_applyFrom (Traversal.alike_traverse hle) hσ ht

theorem mirrors_substTelescope (hps : Telescope.Like β ps ps')
    (hσ : σ.Paired β σ') :
    Mirrors β (Telescope.subst sig fuel ps σ) (Telescope.subst sig fuel' ps' σ') fun p p' =>
      Telescope.Like β p.1 p'.1 ∧ p.2.Paired β p'.2 := by
  refine Mirrors.get.bind fun s s' _ => ?_
  refine (Traversal.mirrors_params (Traversal.alike_traverse hle) hσ hps).start.bind
    fun r r' hr => ?_
  exact (Mirrors.modify fun _ _ hs => Traversal.paired_onShared σ σ' _ _ hs).bind
    fun _ _ _ => .pure hr

theorem mirrors_compose {m m' n n' : Mapping Term} (hm : m.Like β m')
    (hn : n.Like β n') (levels : LevelSubst) :
    Mirrors β (m.compose sig fuel (.of n levels)) (m'.compose sig fuel' (.of n' levels))
      (Mapping.Like β) :=
  Traversal.mirrors_composeFrom (Traversal.alike_traverse hle) hm hn levels

theorem mirrors_makeApp {fn fn' : Term} (hfn : fn.Like β fn')
    (hargs : Term.AllLike β args args') :
    Mirrors β (makeApp sig fuel fn args) (makeApp sig fuel' fn' args') (Term.Like β) :=
  Traversal.mirrors_makeAppFrom (Traversal.alike_traverse hle) hfn hargs

theorem mirrors_makeField (f : FieldName) (sortArg : USort) {arg arg' : Term}
    (harg : arg.Like β arg') :
    Mirrors β (makeField sig fuel f sortArg arg) (makeField sig fuel' f sortArg arg')
      (Term.Like β) :=
  Traversal.mirrors_makeFieldFrom (Traversal.alike_traverse hle) f sortArg harg

theorem mirrors_implementation {r r' : RecordType Term} (f : FieldName) {this this' : Term}
    (hr : r.Like β r') (hthis : this.Like β this') :
    Mirrors β (r.implementation sig fuel f this) (r'.implementation sig fuel' f this')
      (Option.Rel (Term.Like β)) :=
  Traversal.mirrors_implementationFrom (Traversal.alike_traverse hle) f hr hthis

theorem mirrors_underlying (ht : t.Like β t') :
    Mirrors β (t.underlying sig fuel) (t'.underlying sig fuel') (Term.Like β) := by
  induction fuel generalizing fuel' t t' with
  | zero => exact Mirrors.outOfFuel
  | succ fuel ih =>
    obtain ⟨fuel', rfl, hrest⟩ := exists_fuel_of_succ_le hle
    rw [Term.underlying, Term.underlying]
    obtain ⟨-, hnode⟩ := ht.destruct
    cases hnode <;> exact .pure ht

theorem mirrors_instantiatePi (sort : USort) {codomain codomain' : Term}
    (hps : Telescope.Like β ps ps') (hcodomain : codomain.Like β codomain')
    (hargs : Term.AllLike β args args') :
    Mirrors β (instantiatePi sig fuel sort ps codomain args)
      (instantiatePi sig fuel' sort ps' codomain' args') (Term.Like β) := by
  rw [instantiatePi, instantiatePi]
  refine Mirrors.ite (by rw [hps.length_eq, hargs.length_eq]) (fun _ => ?_) fun _ => ?_
  · exact Mirrors.bind (R := fun _ _ => False) .throw fun _ _ h => h.elim
  have hσ : (Substitution.ofMapping (Mapping.empty.insertVars ps.vars args)).Paired β
      (.ofMapping (Mapping.empty.insertVars ps'.vars args')) :=
    .of (.insertVars .empty (Telescope.Rel.vars hps) hargs) _
  have hrest := List.forall₂_drop args.length hps
  rw [hargs.length_eq] at hrest ⊢
  simp only
  generalize List.drop args'.length ps = rest, List.drop args'.length ps' = rest' at hrest ⊢
  cases hrest with
  | nil => exact mirrors_subst hle hcodomain hσ
  | cons hp hrest =>
    refine Mirrors.start ?_
    refine (Traversal.mirrors_params (Traversal.alike_traverse hle) hσ (.cons hp hrest)).bind
      fun q q' hq => ?_
    refine (Traversal.alike_traverse hle _ _ _ _ hq.2 hcodomain).bind fun b b' hb => ?_
    exact (mirrors_build (.pi sort hq.1 hb)).lift

end Operations

end Recheck
