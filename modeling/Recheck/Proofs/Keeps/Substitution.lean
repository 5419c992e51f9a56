import Recheck.Proofs.Invariant
import Recheck.Proofs.Scope.Positions

/-!
# Recheck — substitution keeps invariants

One lemma for each function of a traversal, all relative to the recursive call `self`, and
from them, by induction on the depth, the same for `Traversal.traverse` and the operations
that are made of it.
-/

namespace Recheck

variable {R : Region}

theorem Substitution.holds_of {m : Mapping Term} {levels : LevelSubst} (h : R.Holds m.parts) :
    R.Holds (Substitution.of m levels).exprs.parts := h

theorem Substitution.holds_single {x : Var} {t : Term} (hx : R.Binds x) (ht : t.Within R) :
    R.Holds (Substitution.single x t).exprs.parts :=
  Mapping.holds_insert_var Mapping.holds_empty hx ht

namespace Traversal

/-- The recursive call of a traversal keeps the invariant on terms of the region, and what
it returns is one of the rewrites that definitions may undergo. -/
def Respects (sig : Signature) (R : Region) (I : SolverState → Prop)
    (self : Substitution → Term → Traversal Term) : Prop :=
  ∀ σ t, R.Holds σ.exprs.parts → t.Within R →
    Keeps I (self σ t) fun e => e.Within R ∧ Rewrites sig R t e

section Step

variable {sig : Signature} {R : Region} {I : SolverState → Prop} (hI : Invariant sig R I)
variable {self} (hself : Respects sig R I self)
variable {σ : Substitution} {t arg : Term} {r : RecordType Term} {ps : Telescope Term}
variable (hσ : R.Holds σ.exprs.parts)

include hself hσ

theorem Respects.within (ht : t.Within R) : Keeps I (self σ t) (Term.Within R) :=
  (hself σ t hσ ht).mono fun _ h => h.1

theorem Respects.mapM {ts : List Term} (hts : ∀ t ∈ ts, t.Within R) :
    Keeps I (ts.mapM (self σ)) fun es => ∀ e ∈ es, e.Within R :=
  Keeps.mapM fun t ht => hself.within hσ (hts t ht)

theorem Respects.optional {o : Option Term} (ho : ∀ t, o = some t → t.Within R) :
    Keeps I (o.mapM (self σ)) fun p => ∀ e, p = some e → e.Within R :=
  Keeps.optionMapM fun t ht => hself.within hσ (ho t ht)

theorem keeps_applyFrom (ht : t.Within R) : Keeps I (applyFrom self σ t) (Term.Within R) := by
  rw [applyFrom]
  split
  · exact .pure ht
  · exact (hself.within hσ ht).start

omit hσ in
theorem keeps_implementationFrom {this : Term} (f : FieldName) (hr : R.Holds r.parts)
    (hthis : this.Within R) :
    Keeps I (implementationFrom self r f this) fun o => ∀ t, o = some t → t.Within R := by
  have hx : R.Binds r.this := by simp at hr; exact hr.1
  refine Keeps.optionMapM fun impl himpl => ?_
  exact keeps_applyFrom hself (Substitution.holds_single hx hthis)
    (RecordType.within_impl? hr himpl)

theorem keeps_composeFrom {m : Mapping Term} (hm : R.Holds m.parts) :
    Keeps I (composeFrom self m σ) fun m => R.Holds m.parts := by
  rw [composeFrom]
  split
  · exact .pure hσ
  split
  · exact .pure hm
  · rw [Mapping.holds_iff] at hm
    refine (Keeps.mapM (Q := fun e => R.Holds (e.1.binderParts (T := Term)) ∧ e.2.Within R)
      fun e he => ?_).bind fun entries hentries => .pure ?_
    · exact (keeps_applyFrom hself hσ (hm e he).2).bind fun t ht => .pure ⟨(hm e he).1, ht⟩
    · have hrest := Mapping.holds_filter hσ fun e => !m.contains e.1
      rw [Mapping.holds_iff] at hrest ⊢
      exact List.forall_mem_append.mpr ⟨hentries, hrest⟩

include hI

theorem keeps_params (hps : R.Holds ps.parts) : Keeps I (params self σ ps) fun r =>
      R.Holds r.1.parts ∧ R.Holds r.2.exprs.parts := by
  induction ps generalizing σ with
  | nil => exact .pure ⟨by simp, hσ⟩
  | cons p ps ih =>
    obtain ⟨hx, htype, hps⟩ := Telescope.holds_cons.mp hps
    rw [params]
    refine (hself.optional hσ htype).bind fun type htype => ?_
    refine (hI.freshVar _ _).lift.bind fun x hx' => ?_
    refine (hI.buildRef hx').lift.bind fun ref href => ?_
    refine (hI.enter hσ hx href).lift.bind fun σ hσ => ?_
    refine (ih hσ hps).bind fun r hr => .pure ?_
    exact ⟨Telescope.holds_cons.mpr ⟨hx', htype, hr.1⟩, hr.2⟩

omit hσ in
theorem keeps_beta {body : Term} (sort : USort) (hps : R.Holds ps.parts)
    (hbody : body.Within R) (harg : arg.Within R) :
    Keeps I (beta self sort body arg ps) (Term.Within R) := by
  match ps with
  | [] => exact .throw
  | [p] =>
    obtain ⟨hx, -, -⟩ := Telescope.holds_cons.mp hps
    exact keeps_applyFrom hself (Substitution.holds_single hx harg) hbody
  | p :: q :: ps =>
    obtain ⟨hx, -, hps⟩ := Telescope.holds_cons.mp hps
    refine Keeps.start ?_
    refine (keeps_params hI hself (Substitution.holds_single hx harg) hps).bind fun r hr => ?_
    refine (hself.within hr.2 hbody).bind fun body hbody => ?_
    exact (hI.build (by exact ⟨hr.1, hbody⟩)).lift

omit hσ in
theorem keeps_makeAppFrom {fn : Term} {args : List Term} (hfn : fn.Within R)
    (hargs : ∀ t ∈ args, t.Within R) :
    Keeps I (makeAppFrom self fn args) (Term.Within R) := by
  induction args generalizing fn with
  | nil => exact .pure hfn
  | cons arg args ih =>
    rw [List.forall_mem_cons] at hargs
    rw [makeAppFrom]
    split
    next sort ps body heq =>
      have hlam := hfn.node heq
      exact (keeps_beta hI hself sort hlam.1 hlam.2 hargs.1).bind fun fn hfn => ih hfn hargs.2
    next =>
      have happ : (Node.app fn arg).Within R := ⟨hfn, hargs.1⟩
      exact (hI.build happ).bind fun fn hfn => ih hfn hargs.2

omit hσ in
theorem keeps_makeFieldFrom (f : FieldName) (sortArg : USort) (harg : arg.Within R) :
    Keeps I (makeFieldFrom self f sortArg arg) (Term.Within R) := by
  have hfield : (Node.field f sortArg arg).Within R := harg
  rw [makeFieldFrom]
  split
  next renewed r heq =>
    have hr := harg.node heq
    refine (keeps_implementationFrom hself f hr.2 harg).bind fun o ho => ?_
    cases o with
    | none => exact hI.build hfield
    | some impl => exact .pure (ho impl rfl)
  next => exact hI.build hfield

theorem keeps_updateClause {x : Var} (hx : R.refers x.serial) :
    Preserves I (updateClause self σ x) := by
  refine Keeps.getT.bind fun done _ => ?_
  split
  · refine Keeps.modifyT.bind fun _ _ => ?_
    refine (hI.clause hx).lift.bind fun c h => ?_
    obtain ⟨hc, s₁, hs₁, hget⟩ := h
    refine (hself σ c.expr hσ hc.1).bind fun e he => ?_
    exact (Keeps.modify fun _ s hs => hI.rewrite hs₁ hs hx hget he.1 he.2).lift
  · exact .pure trivial

theorem keeps_clauses {xs : List Var} (hxs : ∀ x ∈ xs, R.Binds x ∧ R.refers x.serial) :
    Keeps I (clauses self σ xs) fun r =>
      (∀ y ∈ r.1, R.Binds y ∧ R.refers y.serial) ∧ R.Holds r.2.exprs.parts := by
  induction xs generalizing σ with
  | nil => exact .pure ⟨by simp, hσ⟩
  | cons x xs ih =>
    rw [List.forall_mem_cons] at hxs
    rw [clauses]
    refine (hI.clause hxs.1.2).lift.bind fun c h => ?_
    obtain ⟨hc, _⟩ := h
    refine (hself.within hσ hc.1).bind fun expr hexpr => ?_
    refine (hself.optional hσ hc.2).bind fun type htype => ?_
    refine (hI.newClause x.name hexpr htype).lift.bind fun y hy => ?_
    refine (hI.buildRef hy.1).lift.bind fun ref href => ?_
    refine (hI.enter hσ hxs.1.1 href).lift.bind fun σ hσ => ?_
    refine (ih hσ hxs.2).bind fun r hr => .pure ⟨?_, hr.2⟩
    exact List.forall_mem_cons.mpr ⟨hy, hr.1⟩

theorem keeps_recordType (hr : R.Holds r.parts) :
    Keeps I (recordType sig self σ r) fun r => R.Holds r.parts := by
  have hthis : R.Binds r.this := by simp at hr; exact hr.1
  rw [recordType]
  refine (hI.newRecordType _ _ _ _).lift.bind fun copy hcopy => ?_
  split
  · exact .pure (by simpa [hcopy.1] using hcopy.2)
  · refine (hI.buildRef hcopy.2).lift.bind fun ref href => ?_
    refine (hI.inScope (Q := fun impls => ∀ e ∈ impls, e.2.Within R) ?_).bind
      fun impls himpls => .pure ?_
    · refine (hI.enter hσ hthis href).lift.bind fun σ hσ => ?_
      refine Keeps.filterMapM fun f _ => Keeps.optionMapM fun impl himpl => ?_
      exact (hself.within hσ (RecordType.within_impl? hr himpl)).bind fun e he => .pure he
    · simp only [RecordType.parts, Region.holds_cons, Region.holds_map]
      exact ⟨hcopy.2, himpls⟩

theorem keeps_unknown (v : Var) (ht : t.Within R) :
    Keeps I (unknown self σ t v) (Term.Within R) := by
  rw [unknown]
  refine (hI.solution? t).lift.bind fun o ho => ?_
  cases o with
  | some u => exact hself.within hσ (ho u rfl)
  | none =>
    cases hv : σ.exprs.get? (.local v) with
    | some u => exact .pure (Mapping.within_get? hσ hv)
    | none =>
      refine Takes.bind (Invariant.takes_unknown v).lift fun u => ?_
      split
      · refine Takes.mono (P := I) ?_ (fun _ hs => hs.1) (fun _ _ hs => hs) fun _ hs => hs
        dsimp only
        split
        · exact Keeps.pure ht
        · refine (hI.build ?_).lift
          exact ⟨ht, Mapping.holds_filter hσ _⟩
      next hdelaying =>
        refine Takes.bind (hI.removeBounds (by simpa using hdelaying) ?_).lift fun _ =>
          Keeps.pure ht
        exact Mapping.binds_vars hσ

set_option linter.unusedSectionVars false in
omit hσ in
mutual

theorem keeps_pattern {σ : Substitution} (hσ : R.Holds σ.exprs.parts) :
    ∀ p : Pattern Term, R.Holds p.parts → Keeps I (pattern self σ p) fun r =>
      R.Holds r.1.parts ∧ R.Holds r.2.exprs.parts
  | .bind x type => by
    intro hp
    simp only [Pattern.parts, Pattern.bindings, List.flatMap_cons, List.flatMap_nil,
      List.append_nil, Region.holds_cons, Part.within_binder, Part.within_term] at hp
    rw [pattern]
    refine (hself.within hσ hp.2.1).bind fun type htype => ?_
    refine (hI.freshVar _ _).lift.bind fun y hy => ?_
    refine (hI.buildRef hy).lift.bind fun ref href => ?_
    refine (hI.enter hσ hp.1 href).lift.bind fun σ hσ => .pure ⟨?_, hσ⟩
    simpa [Pattern.parts] using ⟨hy, htype⟩
  | .wild | .absurd => fun hp => .pure ⟨hp, hσ⟩
  | .con c args => fun hp =>
    (keeps_patterns hσ args hp).bind fun _ hr => .pure hr
  | .tuple args => fun hp =>
    (keeps_patterns hσ args hp).bind fun _ hr => .pure hr
  | .record fields args => fun hp =>
    (keeps_patterns hσ args hp).bind fun _ hr => .pure hr

theorem keeps_patterns {σ : Substitution} (hσ : R.Holds σ.exprs.parts) :
    ∀ ps : List (Pattern Term), R.Holds (Pattern.partsOf ps) →
      Keeps I (patterns self σ ps) fun r =>
        R.Holds (Pattern.partsOf r.1) ∧ R.Holds r.2.exprs.parts
  | [] => fun hps => .pure ⟨hps, hσ⟩
  | p :: ps => by
    intro hps
    rw [Pattern.partsOf_cons, Region.holds_append] at hps
    rw [patterns]
    refine (keeps_pattern hσ p hps.1).bind fun r hr => ?_
    refine (keeps_patterns hr.2 ps hps.2).bind fun q hq => .pure ⟨?_, hq.2⟩
    rw [Pattern.partsOf_cons, Region.holds_append]
    exact ⟨hr.1, hq.1⟩

end

theorem keeps_clause {c : Clause Term} (hc : R.Holds c.parts) :
    Keeps I (clause self σ c) fun c => R.Holds c.parts := by
  simp only [Clause.parts, Region.holds_append, Region.holds_map, Option.mem_toList] at hc
  refine hI.inScope ?_
  refine (keeps_patterns hI hself hσ c.patterns hc.1).bind fun r hr => ?_
  refine (hself.optional hr.2 hc.2).bind fun body hbody => .pure ?_
  simp only [Clause.parts, Region.holds_append, Region.holds_map, Option.mem_toList]
  exact ⟨hr.1, hbody⟩

set_option linter.unusedSectionVars false in
omit hσ in
mutual

theorem keeps_tree {σ : Substitution} (hσ : R.Holds σ.exprs.parts) :
    ∀ t : Tree Term, R.Holds t.parts → Keeps I (tree self σ t) fun t => R.Holds t.parts
  | .leaf ps body => by
    intro ht
    simp only [Tree.parts, Region.holds_append, Region.holds_cons, Part.within_term] at ht
    rw [tree]
    refine hI.inScope ?_
    refine (keeps_params hI hself hσ ht.1).bind fun r hr => ?_
    refine (hself.within hr.2 ht.2.1).bind fun body hbody => .pure ?_
    simpa [Tree.parts] using ⟨hr.1, hbody⟩
  | .branch ps children => by
    intro ht
    simp only [Tree.parts, Region.holds_append] at ht
    rw [tree]
    refine hI.inScope ?_
    refine (keeps_params hI hself hσ ht.1).bind fun r hr => ?_
    refine (keeps_branches hr.2 children ht.2).bind fun children hchildren => .pure ?_
    simpa [Tree.parts] using ⟨hr.1, hchildren⟩

theorem keeps_branches {σ : Substitution} (hσ : R.Holds σ.exprs.parts) :
    ∀ children : List (BranchKey × Tree Term), R.Holds (Tree.partsOf children) →
      Keeps I (branches self σ children) fun children => R.Holds (Tree.partsOf children)
  | [] => fun h => .pure h
  | (key, t) :: rest => by
    intro h
    simp only [Tree.partsOf, Region.holds_append] at h
    rw [branches]
    refine (keeps_tree hσ t h.1).bind fun t ht => ?_
    refine (keeps_branches hσ rest h.2).bind fun rest hrest => .pure ?_
    simpa [Tree.partsOf] using ⟨ht, hrest⟩

end

theorem keeps_elim {e : Elim Term} (he : R.Holds e.parts) :
    Keeps I (elim self σ e) fun e => R.Holds e.parts := by
  simp only [Elim.parts, Region.holds_append, Region.holds_flatMap, Option.mem_toList] at he
  rw [elim]
  refine (Keeps.mapM fun c hc => keeps_clause hI hself hσ (he.1 c hc)).bind
    fun clauses hclauses => ?_
  refine (Keeps.optionMapM fun t ht => keeps_tree hI hself hσ t (he.2 t ht)).bind
    fun tree htree => ?_
  refine hI.fresh.lift.bind fun stamp _ => .pure ?_
  simp only [Elim.parts, Region.holds_append, Region.holds_flatMap, Option.mem_toList]
  exact ⟨hclauses, htree⟩

theorem keeps_caseOf {c : CaseOf Term} (hc : R.Holds c.parts) :
    Keeps I (caseOf self σ c) fun c => R.Holds c.parts := by
  simp only [CaseOf.parts, Region.holds_append, Region.holds_cons, Region.holds_map,
    Region.holds_flatMap, Option.mem_toList, Part.within_term] at hc
  obtain ⟨⟨⟨⟨hargs, hps⟩, hresult, -⟩, hproof⟩, helim⟩ := hc
  rw [caseOf]
  refine (hself.mapM hσ hargs).bind fun args hargs => ?_
  refine Keeps.get.lift.bind fun s _ => ?_
  refine (keeps_params hI hself hσ hps).bind fun r hr => ?_
  refine (hself.within hr.2 hresult).bind fun result hresult => ?_
  refine (hself.optional hr.2 hproof).bind fun proof hproof => ?_
  refine (Keeps.modify fun _ s hs =>
    hI.onShared (fun _ hm => Shared.holds_release hm _) hs).lift.bind fun _ _ => ?_
  refine (Keeps.optionMapM fun e he => keeps_elim hI hself hσ (helim e he)).bind
    fun elim helim => .pure ?_
  simp only [CaseOf.parts, Region.holds_append, Region.holds_cons, Region.holds_map,
    Region.holds_flatMap, Option.mem_toList, Part.within_term]
  exact ⟨⟨⟨⟨hargs, hr.1⟩, hresult, by simp⟩, hproof⟩, helim⟩

/-- One step of a traversal; the cases follow the forms of terms. -/
theorem keeps_step (ht : t.Within R) : Keeps I (step sig self σ t) (Term.Within R) := by
  obtain ⟨stamp, node⟩ := t
  have h := ht.node rfl
  cases node with
  | ref x =>
    unfold step
    dsimp only [Term.node]
    cases hx : σ.exprs.get? (.local x) with
    | some u => exact .pure (Mapping.within_get? hσ hx)
    | none =>
      dsimp only
      split
      next hkind =>
        exact (keeps_updateClause hI hself hσ (h hkind)).bind fun _ _ => .pure ht
      next => exact .pure ht
  | app fn arg =>
    refine (hself.within hσ h.1).bind fun fn hfn => ?_
    refine (hself.within hσ h.2).bind fun arg harg => ?_
    exact (keeps_makeAppFrom hI hself hfn (by simpa using harg)).lift
  | call f sortArg args =>
    refine (hself.mapM hσ h).bind fun args hargs => ?_
    exact (hI.build (by exact hargs)).lift
  | con c =>
    refine (hself.mapM hσ h.1).bind fun dataArgs hdataArgs => ?_
    refine (hself.mapM hσ h.2).bind fun args hargs => ?_
    exact (hI.build (by exact ⟨hdataArgs, hargs⟩)).lift
  | data d =>
    refine (hself.mapM hσ h).bind fun args hargs => ?_
    exact (hI.build (by exact hargs)).lift
  | field f sortArg arg =>
    unfold step
    dsimp only [Term.node]
    cases hf : σ.exprs.get? (.field f) with
    | some u =>
      refine (hself.within hσ h).bind fun arg harg => ?_
      exact (keeps_makeAppFrom hI hself (Mapping.within_get? hσ hf) (by simpa using harg)).lift
    | none =>
      refine (hself.within hσ h).bind fun arg harg => ?_
      exact (keeps_makeFieldFrom hI hself f _ harg).lift
  | record r =>
    refine (keeps_recordType hI hself hσ h).bind fun r hr => ?_
    exact (hI.build (n := .record r) hr).lift
  | lam sort ps body | pi sort ps body =>
    refine hI.inScope ?_
    refine (keeps_params hI hself hσ h.1).bind fun r hr => ?_
    refine (hself.within hr.2 h.2).bind fun body hbody => ?_
    exact (hI.build (by exact ⟨hr.1, hbody⟩)).lift
  | sigma s =>
    refine hI.inScope ?_
    refine (keeps_params hI hself hσ h).bind fun r hr => ?_
    exact (hI.build (by exact hr.1)).lift
  | tuple fields type =>
    refine (hself.mapM hσ h.1).bind fun fields hfields => ?_
    refine (hI.inScope (keeps_params hI hself hσ h.2)).bind fun r hr => ?_
    refine hI.fresh.lift.bind fun n _ => ?_
    exact (hI.build (by exact ⟨hfields, hr.1⟩)).lift
  | proj u index =>
    exact (hself.within hσ h).bind fun u hu => (hI.makeProj index hu).lift
  | univ sort =>
    show Keeps I (if σ.levels.isEmpty then _ else _) _
    split
    · exact .pure ht
    · exact (hI.build (by trivial)).lift
  | new renewed type =>
    refine (keeps_recordType hI hself hσ h.2).bind fun r hr => ?_
    refine (hself.optional hσ h.1).bind fun renewed hrenewed => ?_
    refine hI.fresh.lift.bind fun n _ => ?_
    exact (hI.build (by exact ⟨hrenewed, hr⟩)).lift
  | letIn strict xs body =>
    refine hI.inScope ?_
    refine (keeps_clauses hI hself hσ h.1).bind fun r hr => ?_
    refine (hself.within hr.2 h.2).bind fun body hbody => ?_
    exact (hI.build (by exact ⟨hr.1, hbody⟩)).lift
  | case c =>
    refine (keeps_caseOf hI hself hσ h).bind fun c hc => ?_
    exact (hI.build (n := .case c) hc).lift
  | ofType u type =>
    refine (hself.within hσ h.1).bind fun u hu => ?_
    refine (hself.within hσ h.2).bind fun type htype => ?_
    exact (hI.build (by exact ⟨hu, htype⟩)).lift
  | int n => exact .pure ht
  | hole goal part =>
    cases part with
    | none => exact .pure ht
    | some u =>
      refine (hself.within hσ (h u rfl)).bind fun u hu => ?_
      exact (hI.build (by simpa using hu)).lift
  | unknown v => exact keeps_unknown hI hself hσ v ht
  | delayed u exprs levels =>
    refine (hI.readMapping h.2).lift.bind fun m hm => ?_
    refine (keeps_composeFrom hself hσ hm).lift.bind fun m hm => ?_
    exact (keeps_applyFrom hself hm h.1).lift

end Step

variable {sig : Signature} {R : Region} {I : SolverState → Prop}

/-- Substitution keeps every invariant, by induction on the depth. -/
theorem respects_traverse (hI : Invariant sig R I) (fuel : Nat) :
    Respects sig R I (traverse sig fuel) := by
  induction fuel with
  | zero => exact fun _ _ _ _ => .throwT
  | succ fuel ih =>
    intro σ t hσ ht done
    refine Keeps.mono (Keeps.outcome (keeps_step hI ih hσ ht done)) ?_
    rintro ⟨e, done'⟩ ⟨he, _, s, s', hs, hrun⟩
    exact ⟨he, fuel + 1, σ, done, done', s, s', hI.good hs, hσ, ht, hrun⟩

end Traversal

/-- Numbers are handed out in order. -/
theorem next_invariant (sig : Signature) (n : Nat) :
    Invariant sig .unrestricted (OnStore fun s => n ≤ s.next) where
  good _ := Region.good_unrestricted _
  number h := Nat.le_succ_of_le h
  define h _ := Nat.le_succ_of_le h
  rewrite _ h _ _ _ _ := h
  narrow h _ _ _ := h
  mapping h _ := h

theorem keeps_next_traverse {sig : Signature} (n fuel : Nat) (σ : Substitution) (t : Term) :
    Preserves (OnStore fun s => n ≤ s.next) (Traversal.traverse sig fuel σ t) := by
  have hrespects := Traversal.respects_traverse (next_invariant sig n) fuel
  exact (hrespects σ t (Region.holds_unrestricted _) (Region.within_unrestricted t)).mono
    fun _ _ => trivial

/-! ## The operations -/

namespace Invariant

variable {sig : Signature} {R : Region} {I : SolverState → Prop} (hI : Invariant sig R I)
variable {t : Term} {σ : Substitution} {ps : Telescope Term} {args : List Term}

include hI

variable (fuel : Nat)

theorem subst (ht : t.Within R) (hσ : R.Holds σ.exprs.parts) :
    Keeps I (t.subst sig fuel σ) (Term.Within R) :=
  Traversal.keeps_applyFrom (Traversal.respects_traverse hI fuel) hσ ht

theorem substParams (hps : R.Holds ps.parts) (hσ : R.Holds σ.exprs.parts) :
    Keeps I (Telescope.subst sig fuel ps σ) fun r =>
      R.Holds r.1.parts ∧ R.Holds r.2.exprs.parts := by
  have hparams := Traversal.keeps_params hI (Traversal.respects_traverse hI fuel) hσ hps
  refine Keeps.get.bind fun s _ => hparams.start.bind fun r hr => ?_
  refine (Keeps.modify fun _ s hs => ?_).bind fun _ _ => .pure hr
  exact hI.onShared (fun _ hm => Shared.holds_commit hm _) hs

theorem compose {m : Mapping Term} (hm : R.Holds m.parts) (hσ : R.Holds σ.exprs.parts) :
    Keeps I (m.compose sig fuel σ) fun m => R.Holds m.parts :=
  Traversal.keeps_composeFrom (Traversal.respects_traverse hI fuel) hσ hm

theorem makeApp {fn : Term} (hfn : fn.Within R) (hargs : ∀ t ∈ args, t.Within R) :
    Keeps I (Recheck.makeApp sig fuel fn args) (Term.Within R) :=
  Traversal.keeps_makeAppFrom hI (Traversal.respects_traverse hI fuel) hfn hargs

theorem makeField {arg : Term} (f : FieldName) (sortArg : USort) (harg : arg.Within R) :
    Keeps I (Recheck.makeField sig fuel f sortArg arg) (Term.Within R) :=
  Traversal.keeps_makeFieldFrom hI (Traversal.respects_traverse hI fuel) f sortArg harg

theorem implementation {r : RecordType Term} {this : Term} (f : FieldName) (hr : R.Holds r.parts)
    (hthis : this.Within R) :
    Keeps I (r.implementation sig fuel f this) fun o => ∀ t, o = some t → t.Within R :=
  Traversal.keeps_implementationFrom (Traversal.respects_traverse hI fuel) f hr hthis

theorem expandDelayed {exprs : MappingRef Term} (levels : LevelSubst) (ht : t.Within R)
    (hexprs : R.Holds exprs.parts) :
    Keeps I (Recheck.expandDelayed sig fuel t exprs levels) (Term.Within R) := by
  refine (hI.solution? t).bind fun o _ => ?_
  split
  · exact .pure ht
  · exact (hI.readMapping hexprs).bind fun m hm => hI.subst fuel ht hm

theorem underlying (ht : t.Within R) : Keeps I (t.underlying sig fuel) (Term.Within R) := by
  induction fuel generalizing t with
  | zero => exact .throw
  | succ fuel ih =>
    rw [Term.underlying]
    split
    next =>
      refine (hI.solution? t).bind fun o ho => ?_
      cases o with
      | none => exact .pure ht
      | some u => exact ih (ho u rfl)
    next u exprs levels heq =>
      have h := ht.node heq
      refine (hI.expandDelayed fuel levels h.1 h.2).bind fun e he => ?_
      split
      · exact .pure ht
      · exact ih he
    next => exact .pure ht

theorem instantiatePi {codomain : Term} (sort : USort) (hps : R.Holds ps.parts)
    (hcodomain : codomain.Within R) (hargs : ∀ t ∈ args, t.Within R) :
    Keeps I (Recheck.instantiatePi sig fuel sort ps codomain args) (Term.Within R) := by
  have hσ : R.Holds (Mapping.empty.insertVars ps.vars args).parts :=
    Mapping.holds_insertVars Mapping.holds_empty (fun x => Telescope.binds_of_mem_vars hps) hargs
  have hself := Traversal.respects_traverse hI fuel
  have hdrop := Telescope.holds_drop hps args.length
  rw [Recheck.instantiatePi]
  split
  · exact Keeps.throw.bind (P := fun _ => False) fun _ h => h.elim
  · dsimp only
    split
    · exact hI.subst fuel hcodomain hσ
    next rest _ =>
      refine Keeps.start ?_
      refine (Traversal.keeps_params hI hself hσ hdrop).bind fun r hr => ?_
      refine (hself.within hr.2 hcodomain).bind fun codomain hcodomain => ?_
      exact (hI.build (by exact ⟨hr.1, hcodomain⟩)).lift

end Invariant

end Recheck
