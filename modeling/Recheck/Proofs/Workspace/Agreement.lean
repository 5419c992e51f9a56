import Recheck.Proofs.Workspace.Rules
import Recheck.Proofs.Workspace.Tracking

/-!
# Recheck — checking with a workspace gives the same answers

One lemma for each rule: it follows the rule that is told the scope. Rules for telescopes and
patterns open the scope that they return there, and the others restore the workspace. Each lemma
is relative to the check of subterms, and the induction on the depth is at the end.
-/

namespace Recheck

/-- The check of subterms follows the one that is told the scope, from every workspace. -/
def Accords (self : Term → Option Term → Work Term)
    (self' : Scope → Term → Option Term → Check Term) : Prop :=
  ∀ w t expected, Follows w (self t expected) (self' w.scope t expected)

namespace Working

variable {k : Checker} {fuel : Nat} {self : Term → Option Term → Work Term}
  {self' : Scope → Term → Option Term → Check Term} {w : Workspace}
variable {A B : Type} {R : A → B → Workspace → Prop} {ps : Telescope Term}
  {columns : List (Column Term)}

/-! ## Building blocks -/

section

variable (hself : Accords self self')

include hself

theorem follows_typeIn (t : Term) (sort : USort) :
    Follows w (typeIn self t sort) (Typing.typeIn self' w.scope t sort) := by
  refine .lift_bind fun u => ?_
  exact (hself w t (some u)).bind fun _ => .pure ⟨rfl, rfl⟩

theorem follows_sortOf (t : Term) :
    Follows w (sortOf k fuel self t) (Typing.sortOf k fuel self' w.scope t) := by
  refine (hself w t none).bind fun type => ?_
  refine .lift_bind fun type => ?_
  cases type.node with
  | univ sort => exact Follows.pure sort
  | _ => exact .lift_bind fun _ => .refuse _

theorem opens_params (u : Term) (ps : Telescope Term) :
    Opens w (params k self u ps) (Typing.params k self' u w.scope ps) fun _ scope w' =>
      w'.scope = scope := by
  induction ps generalizing w with
  | nil => exact .pure rfl
  | cons p ps ih =>
    rw [params, Typing.params]
    have hrest : Opens w
        (do
          let type ← Telescope.headTypeM (p :: ps)
          Work.add k p.var type type
          params k self u ps)
        (do
          let type ← Telescope.headTypeM (p :: ps)
          let scope ← k.addVar w.scope p.var type type
          Typing.params k self' u scope ps)
        fun _ scope w' => w'.scope = scope :=
      .lift_bind fun type => opens_add_bind fun w' => ih
    cases p.type with
    | none => exact hrest
    | some type => exact (hself w type (some u)).bind fun _ => hrest

theorem opens_paramsIn (ps : Telescope Term) (sort : USort) :
    Opens w (paramsIn k self ps sort) (Typing.paramsIn k self' w.scope ps sort) fun _ scope w' =>
      w'.scope = scope :=
  .lift_bind fun u => opens_params hself u ps

/-- Bringing a telescope into scope and going on from there. -/
theorem opens_paramsIn_bind {sort : USort} {f : Unit → Work A} {g : Scope → Check B}
    (hf : ∀ w', Opens w' (f ()) (g w'.scope) R) :
    Opens w (paramsIn k self ps sort >>= f) (Typing.paramsIn k self' w.scope ps sort >>= g) R := by
  refine Opens.bind (opens_paramsIn hself ps sort) ?_
  rintro _ _ w' rfl
  exact hf w'

theorem follows_argsFrom (first : Option Term)
    (σ : Substitution) (columns : List (Column Term)) (args : List Term) :
    Follows w (argsFrom k fuel self first σ columns args)
      (Typing.argsFrom k fuel self' w.scope first σ columns args) := by
  induction columns generalizing first σ args with
  | nil => exact .pure _
  | cons c columns ih =>
    cases args with
    | nil => exact .pure _
    | cons t args =>
      have hrest (type : Term) : Follows w
          (do
            let _ ← self t (some type)
            argsFrom k fuel self none (σ.bind c.var t) columns args)
          (do
            let _ ← self' w.scope t (some type)
            Typing.argsFrom k fuel self' w.scope none (σ.bind c.var t) columns args) :=
        (hself w t (some type)).bind fun _ => ih none _ args
      cases first with
      | some type => exact hrest type
      | none => exact .lift_bind fun type => .lift_bind hrest

theorem follows_callArgs (t : Term)
    (first : Option Term) (σ : Substitution) (columns : List (Column Term)) (args : List Term) :
    Follows w (callArgs k fuel self t first σ columns args)
      (Typing.callArgs k fuel self' w.scope t first σ columns args) := by
  refine .ite (fun _ => .refuse_bind _) fun _ => ?_
  exact follows_argsFrom hself first σ columns args

end

/-! ## Pattern matches -/

mutual

/-- Proof by recursion on the pattern. -/
theorem opens_pattern {w : Workspace} (type : Term) (p : Pattern Term) :
    Opens w (pattern k fuel type p) (Typing.pattern k fuel w.scope type p) fun t r w' =>
      r = (t, w'.scope) := by
  cases p with
  | bind x declared =>
    rw [pattern, Typing.pattern]
    refine .lift_bind fun ref => .lift_bind fun same => ?_
    refine .ite (fun _ => .lift_bind fun _ => .refuse_bind _) fun _ => ?_
    exact opens_add_bind fun w' => .pure rfl
  | wild =>
    rw [pattern, Typing.pattern]
    refine .lift_bind fun x => opens_add_bind fun w' => ?_
    exact .lift_return fun _ => rfl
  | absurd =>
    rw [pattern, Typing.pattern]
    refine .lift_bind fun r => .lift_bind fun cons => ?_
    refine .ite (fun _ => .refuse_bind _) fun _ => ?_
    exact .lift_return fun _ => rfl
  | con c ps =>
    rw [pattern, Typing.pattern]
    refine .lift_bind fun r => .lift_bind fun dataArgs => ?_
    refine .lift_bind fun _ => Opens.bind (opens_patternRow _ _ ps) ?_
    rintro ⟨args, σ⟩ _ w' rfl
    exact .lift_return fun _ => rfl
  | tuple ps =>
    rw [pattern, Typing.pattern]
    refine .lift_bind fun whnf => ?_
    cases whnf.node with
    | sigma s =>
      refine .lift_bind fun _ => Opens.bind (opens_patternRow _ _ ps) ?_
      rintro ⟨args, σ⟩ _ w' rfl
      exact .lift_return fun _ => rfl
    | _ => exact .refuse _
  | record fields ps =>
    rw [pattern, Typing.pattern]
    refine .lift_bind fun whnf => ?_
    cases whnf.node with
    | record r =>
      refine .lift_bind fun _ => .lift_bind fun params => ?_
      refine .lift_bind fun _ => Opens.bind (opens_patternRow _ _ ps) ?_
      rintro ⟨args, σ⟩ _ w' rfl
      exact .lift_return fun _ => rfl
    | _ => exact .refuse _

theorem opens_patternRow {w : Workspace} (σ : Substitution) (columns : List (Column Term))
    (ps : List (Pattern Term)) :
    Opens w (patternRow k fuel σ columns ps) (Typing.patternRow k fuel w.scope σ columns ps)
      fun a r w' => r = (a.1, a.2, w'.scope) := by
  cases ps with
  | nil =>
    rw [patternRow.eq_def, Typing.patternRow.eq_def]
    cases columns <;> exact .pure rfl
  | cons p ps =>
    cases columns with
    | nil =>
      rw [patternRow.eq_def, Typing.patternRow.eq_def]
      exact .pure rfl
    | cons c columns =>
      rw [patternRow, Typing.patternRow]
      refine .lift_bind fun type => .lift_bind fun type => ?_
      refine Opens.bind (opens_pattern type p) ?_
      rintro t _ w' rfl
      refine Opens.bind (opens_patternRow _ columns ps) ?_
      rintro ⟨ts, σ⟩ _ w'' rfl
      exact .pure rfl

end

/-- Matching patterns and going on from there. -/
theorem opens_patterns_bind {σ : Substitution} {ps : List (Pattern Term)}
    {f : List Term × Substitution → Work A} {g : List Term × Substitution × Scope → Check B}
    (hf : ∀ ts σ w', Opens w' (f (ts, σ)) (g (ts, σ, w'.scope)) R) :
    Opens w (patterns k fuel σ columns ps >>= f)
      (Typing.patterns k fuel w.scope σ columns ps >>= g) R := by
  refine Opens.bind (.lift_bind fun _ => opens_patternRow σ columns ps) ?_
  rintro ⟨ts, σ⟩ _ w' rfl
  exact hf ts σ w'

theorem follows_clause (hself : Accords self self') (params : Telescope Term)
    (resultType : Term) (c : Clause Term) :
    Follows w (clause k fuel self params resultType c)
      (Typing.clause k fuel self' w.scope params resultType c) := by
  refine follows_item (opens_enclosed ?_)
  refine opens_patterns_bind fun _ σ w' => ?_
  cases c.body with
  | none => exact .ite (fun _ => .refuse _) fun _ => .pure rfl
  | some body =>
    refine .lift_bind fun type => ?_
    exact (hself w' body (some type)).bind fun _ => .pure rfl

theorem opens_nodeParams (m : Mapping Term) (ps : Telescope Term)
    (columns : List (Column Term)) :
    Opens w (nodeParams k fuel m ps columns) (Typing.nodeParams k fuel w.scope m ps columns)
      fun a r w' => r = (w'.scope, a.1, a.2) := by
  induction ps generalizing w m columns with
  | nil => exact .pure rfl
  | cons p ps ih =>
    cases columns with
    | nil => exact .refuse _
    | cons c columns =>
      rw [nodeParams, Typing.nodeParams]
      refine .lift_bind fun type => .lift_bind fun type => ?_
      refine .lift_bind fun declared => .lift_bind fun ref => ?_
      refine .lift_bind fun same => ?_
      refine .ite (fun _ => .lift_bind fun _ => .refuse_bind _) fun _ => ?_
      refine opens_add_bind fun w' => .lift_bind fun m => ?_
      exact ih m columns

/-- Binding the parameters of a node and going on from there. -/
theorem opens_nodeParams_bind {m : Mapping Term} {f : Mapping Term × List (Column Term) → Work A}
    {g : Scope × Mapping Term × List (Column Term) → Check B}
    (hf : ∀ m columns w', Opens w' (f (m, columns)) (g (w'.scope, m, columns)) R) :
    Opens w (nodeParams k fuel m ps columns >>= f)
      (Typing.nodeParams k fuel w.scope m ps columns >>= g) R := by
  refine Opens.bind (opens_nodeParams m ps columns) ?_
  rintro ⟨m, columns⟩ _ w' rfl
  exact hf m columns w'

mutual

/-- Proof by recursion on the tree. -/
theorem opens_tree (hself : Accords self self') {w : Workspace} (m : Mapping Term)
    (resultType : Term) (columns : List (Column Term)) (t : Tree Term) :
    Opens w (tree k fuel self m resultType columns t)
      (Typing.tree k fuel self' w.scope m resultType columns t) fun a b _ => a = b := by
  cases t with
  | leaf ps body =>
    rw [tree, Typing.tree]
    refine opens_nodeParams_bind fun m columns w' => ?_
    refine .ite (fun _ => .refuse_bind _) fun _ => ?_
    refine .lift_bind fun type => ?_
    exact (hself w' body (some type)).bind fun _ => .pure rfl
  | branch ps children =>
    rw [tree, Typing.tree]
    refine opens_nodeParams_bind fun m columns w' => ?_
    cases columns with
    | nil => exact .refuse _
    | cons c columns =>
      refine .lift_bind fun type => .lift_bind fun type => ?_
      refine .lift_bind fun type => ?_
      refine (follows_branches hself m resultType type c.var columns children).bind fun _ => ?_
      exact Opens.mono (Follows.lift _) fun _ _ _ h => h.1

theorem follows_branches (hself : Accords self self') {w : Workspace}
    (m : Mapping Term) (resultType type : Term) (x : Var) (columns : List (Column Term))
    (children : List (BranchKey × Tree Term)) :
    Follows w (branches k fuel self m resultType type x columns children)
      (Typing.branches k fuel self' w.scope m resultType type x columns children) := by
  cases children with
  | nil =>
    rw [branches, Typing.branches]
    exact .pure _
  | cons child rest =>
    obtain ⟨key, t⟩ := child
    rw [branches, Typing.branches]
    refine Follows.bind ?_ fun _ => follows_branches hself m resultType type x columns rest
    refine follows_item (opens_enclosed ?_)
    refine .lift_bind fun r => ?_
    exact opens_tree hself _ resultType _ t

end

theorem follows_elim (hself : Accords self self') (params : Telescope Term)
    (resultType : Term) (e : Elim Term) :
    Follows w (elim k fuel self params resultType e)
      (Typing.elim k fuel self' w.scope params resultType e) := by
  refine Follows.bind (.forM fun c _ => follows_clause hself params resultType c) fun _ => ?_
  cases e.tree with
  | none => exact Follows.pure ()
  | some t => exact opens_enclosed (opens_tree hself _ resultType _ t)

/-! ## The rules -/

theorem follows_variableType (t : Term) (x : Var) :
    Follows w (variableType k t x) (Typing.variableType k w.scope t x) := by
  refine .of_settled fun hw => .of_space ?_
  rw [Typing.variableType, contains_eq hw.consistent]
  by_cases hx : x ∈ w.bound
  · rw [if_neg (not_not.mpr hx), if_neg (by simp [hx])]
    refine .lift_bind fun type => ?_
    cases type with
    | some type => exact Follows.pure type
    | none => exact .refuse _
  · rw [if_pos hx, if_pos (by simp [hx])]
    exact .refuse_bind _

theorem follows_boundsInScope (t : Term) (v : Var) (exprs : Mapping Term) :
    Follows w (boundsInScope k t v exprs) (Typing.boundsInScope k w.scope t v exprs) := by
  refine .of_settled fun hw => .of_space (.lift_bind fun u => ?_)
  simp only [contains_eq hw.consistent, decide_not]
  exact .ite (fun _ => .refuse _) fun _ => .pure ⟨trivial, rfl⟩

section

variable (hself : Accords self self')

include hself

theorem follows_application (fn arg : Term) : Follows w (application k fuel self fn arg)
      (Typing.application k fuel self' w.scope fn arg) := by
  refine (hself w fn none).bind fun type => .lift_bind fun type => ?_
  cases type.node with
  | pi sort ps codomain =>
    refine .lift_bind fun domain => ?_
    exact (hself w arg (some domain)).bind fun _ => Follows.lift _
  | _ => exact .refuse _

variable (t : Term)

theorem follows_call (f : FuncName) (sortArg : USort) (args : List Term) :
    Follows w (call k fuel self t f sortArg args)
      (Typing.call k fuel self' w.scope t f sortArg args) := by
  refine .lift_bind fun first => ?_
  exact (follows_callArgs hself t first _ _ args).bind fun σ => Follows.lift _

theorem follows_constructor (c : ConApp Term) :
    Follows w (constructor k fuel self t c) (Typing.constructor k fuel self' w.scope t c) := by
  refine (follows_callArgs hself t none _ _ c.dataArgs).bind fun σ => ?_
  refine (follows_callArgs hself t none σ _ c.args).bind fun _ => ?_
  exact .lift_bind fun d => Follows.lift _

theorem follows_dataType (d : DataType Term) :
    Follows w (dataType k fuel self t d) (Typing.dataType k fuel self' w.scope t d) :=
  (follows_callArgs hself t none _ _ d.args).bind fun _ => Follows.lift _

theorem follows_projection (u : Term) (index : Int64) :
    Follows w (projection k fuel self t u index)
      (Typing.projection k fuel self' w.scope t u index) := by
  refine (hself w u none).bind fun type => .lift_bind fun type => ?_
  cases type.node with
  | sigma s =>
    refine .ite (fun _ => .refuse_bind _) fun _ => ?_
    refine Follows.bind (.mapM fun i _ => Follows.lift _) fun projs => ?_
    dsimp only
    generalize (Telescope.columns s.params).drop _ = rest
    cases rest with
    | nil => exact .failing _
    | cons c _ => exact .lift_bind fun type => Follows.lift _
  | _ => exact .refuse _

theorem follows_openField (r : RecordType Term) (this : Term) (promised : Option Int64)
    (f : FieldName) :
    Follows w (openField k fuel self t r this promised f)
      (Typing.recordType.openField k fuel self' w.scope t r this promised f) := by
  refine .lift_bind fun type => ?_
  refine (follows_sortOf hself type).bind fun sort => ?_
  refine .ite (fun _ => Follows.pure ()) fun _ => ?_
  refine .lift_bind fun below => ?_
  refine .ite (fun _ => ?_) fun _ => .refuse _
  refine .ite (fun _ => Follows.pure ()) fun _ => ?_
  refine .lift_bind fun below => ?_
  exact .ite (fun _ => Follows.pure ()) fun _ => .refuse _

theorem follows_recordType (r : RecordType Term) :
    Follows w (recordType k fuel self t r) (Typing.recordType k fuel self' w.scope t r) := by
  refine opens_enclosed (opens_add_bind fun w' => ?_)
  have hlast : Opens w' (Work.ofCheck (Core.build (.univ r.sort))) (Core.build (.univ r.sort))
      fun a b _ => a = b :=
    Opens.mono (Follows.lift _) fun _ _ _ h => h.1
  dsimp only
  generalize r.impls.find? _ = foreign
  cases foreign with
  | some e => exact .refuse_bind _
  | none =>
    refine .lift_bind fun this => ?_
    refine Follows.bind (.forIn fun f _ _ => ?_) fun _ => ?_
    · cases r.impl? f with
      | none => exact Follows.pure _
      | some impl =>
        refine .lift_bind fun type => ?_
        exact (hself w' impl (some type)).bind fun _ => Follows.pure _
    · refine Follows.when_bind (fun _ => .forIn fun f _ _ => ?_) ?_
      · exact (follows_openField hself t r this _ f).bind fun _ => Follows.pure _
      · refine .ite (fun _ => ?_) fun _ => hlast
        generalize List.find? _ _ = exceeding
        cases exceeding with
        | some f => exact .refuse_bind _
        | none => exact hlast

theorem follows_recordValue (renewed : Option Term) (type : Stamped (RecordType Term)) :
    Follows w (recordValue k self t renewed type)
      (Typing.recordValue k self' w.scope t renewed type) := by
  refine (hself w type.record none).bind fun _ => ?_
  refine .ite (fun _ => .refuse_bind _) fun _ => ?_
  cases renewed with
  | none => exact Follows.pure _
  | some u =>
    refine .lift_bind fun bare => .lift_bind fun bare => ?_
    exact (hself w u (some bare)).bind fun _ => Follows.pure _

/-- The scope of a let expression is opened clause by clause, and its body is checked in it. -/
theorem opens_letClauses (body : Term) (xs : List Var) : Opens w (letClauses k self t body xs)
      (Typing.letClauses k self' t w.scope xs >>= fun inner => self' inner body none)
      fun a b _ => a = b := by
  induction xs generalizing w with
  | nil =>
    rw [letClauses, Typing.letClauses, pure_bind]
    exact Opens.mono (hself w body none) fun _ _ _ h => h.1
  | cons x xs ih =>
    rw [letClauses, Typing.letClauses, bind_assoc]
    refine .lift_bind fun c => ?_
    cases c.type with
    | some type =>
      simp only [bind_assoc]
      refine (follows_typeIn hself type .omega).bind fun _ => ?_
      refine .lift_bind fun c => ?_
      refine (hself w c.expr (some type)).bind fun _ => ?_
      exact opens_add_bind fun w' => ih
    | none =>
      simp only [bind_assoc]
      refine (hself w c.expr none).bind fun type => ?_
      exact opens_noted fun w' => ih

theorem follows_levelProof (proof type : Term) : Follows w (levelProof k fuel self proof type)
      (Typing.levelProof k fuel self' w.scope proof type) := by
  refine (hself w proof none).bind fun proofType => .lift_bind fun r => ?_
  refine .ite (fun _ => .lift_bind fun _ => .refuse_bind _) fun _ => ?_
  refine .ite (fun _ => .refuse_bind _) fun _ => ?_
  exact .lift_bind fun _ => Follows.pure _

end

/-- The part of a case expression that has its parameters in scope. -/
def caseHead (k : Checker) (fuel : Nat) (self' : Scope → Term → Option Term → Check Term)
    (scope : Scope) (t : Term) (c : CaseOf Term) : Check Substitution := do
  let inner ← Typing.paramsIn k self' scope c.params .omega
  let σ ← Typing.callArgs k fuel self' inner t none .identity (Telescope.columns c.params) c.args
  Typing.typeIn self' inner c.resultType .omega
  if let some proof := c.levelProof then
    let _ ← Typing.levelProof k fuel self' inner proof c.resultType
  return σ

/-- The part of a case expression that is without its parameters. -/
def caseMatch (k : Checker) (fuel : Nat) (self' : Scope → Term → Option Term → Check Term)
    (scope : Scope) (t : Term) (c : CaseOf Term) (σ : Substitution) : Check Term := do
  match c.elim with
  | none => refuse (k.about .nonExhaustive t)
  | some e =>
    Typing.elim k fuel self' scope c.params c.resultType e
    Typing.exhaustive k fuel t c.params e
    c.resultType.subst k.sig fuel σ

theorem caseOf_eq (scope : Scope) (t : Term) (c : CaseOf Term) :
    Typing.caseOf k fuel self' scope t c =
      caseHead k fuel self' scope t c >>= caseMatch k fuel self' scope t c := by
  rw [Typing.caseOf, caseHead]
  cases c.levelProof <;> simp only [bind_assoc, pure_bind] <;> rfl

theorem follows_caseOf (hself : Accords self self') (t : Term) (c : CaseOf Term) :
    Follows w (caseOf k fuel self t c) (Typing.caseOf k fuel self' w.scope t c) := by
  rw [caseOf_eq]
  refine Follows.bind (opens_released ?_) fun σ => ?_
  · refine opens_paramsIn_bind hself fun w' => ?_
    refine (follows_callArgs hself t none _ _ c.args).bind fun σ => ?_
    refine (follows_typeIn hself c.resultType .omega).bind fun _ => ?_
    cases c.levelProof with
    | none => exact .pure rfl
    | some proof =>
      exact (follows_levelProof hself proof c.resultType).bind fun _ => .pure rfl
  · rw [caseMatch]
    cases c.elim with
    | none => exact .refuse _
    | some e =>
      refine (follows_elim hself c.params c.resultType e).bind fun _ => ?_
      exact .lift_bind fun _ => Follows.lift _

theorem follows_step (hself : Accords self self') (t : Term)
    (expected : Option Term) :
    Follows w (step k fuel self t expected) (Typing.step k fuel self' w.scope t expected) := by
  have hconclude (type : Term) : Follows w (Work.ofCheck (Typing.conclude k fuel t expected type))
      (Typing.conclude k fuel t expected type) :=
    .lift _
  rw [step.eq_def, Typing.step.eq_def]
  cases t.node with
  | ref x => exact (follows_variableType t x).bind hconclude
  | app fn arg => exact (follows_application hself fn arg).bind hconclude
  | call f sortArg args => exact (follows_call hself t f sortArg args).bind hconclude
  | con c => exact (follows_constructor hself t c).bind hconclude
  | data d => exact (follows_dataType hself t d).bind hconclude
  | field f sortArg arg =>
    refine (hself w arg _).bind fun _ => ?_
    exact .lift_bind hconclude
  | record r => exact (follows_recordType hself t r).bind hconclude
  | lam sort ps body =>
    refine .assoc (.assoc (Follows.bind (opens_enclosed ?_) hconclude))
    rw [bind_assoc]
    refine opens_paramsIn_bind hself fun w' => ?_
    refine (hself w' body none).bind fun codomain => ?_
    exact Opens.mono (Follows.lift _) fun _ _ _ h => h.1
  | pi sort ps codomain =>
    refine .assoc (Follows.bind (opens_released ?_) fun _ => .lift_bind hconclude)
    refine opens_paramsIn_bind hself fun w' => ?_
    exact Opens.mono (follows_typeIn hself codomain sort) fun _ _ _ h => h.1
  | sigma s =>
    refine Opens.bind (opens_released (R := fun _ _ => True) ?_) ?_
    · exact Opens.mono (opens_paramsIn hself s.params s.sort) fun _ _ _ _ => trivial
    rintro _ _ _ ⟨-, rfl⟩
    exact .lift_bind hconclude
  | tuple fields type =>
    refine (hself w type.sigma none).bind fun _ => ?_
    refine (follows_callArgs hself t none .identity _ fields).bind fun _ => ?_
    exact hconclude type.sigma
  | proj u index => exact (follows_projection hself t u index).bind hconclude
  | univ sort =>
    refine .ite (fun _ => .refuse_bind _) fun _ => ?_
    exact .lift_bind hconclude
  | new renewed type => exact (follows_recordValue hself t renewed type).bind hconclude
  | letIn strict xs body =>
    exact .assoc (Follows.bind (opens_enclosed (opens_letClauses hself t body xs)) hconclude)
  | case c => exact (follows_caseOf hself t c).bind hconclude
  | ofType u type =>
    refine (follows_typeIn hself type .omega).bind fun _ => ?_
    exact (hself w u (some type)).bind fun _ => hconclude type
  | int n => exact .lift_bind hconclude
  | hole goal text =>
    cases goal with
    | false => exact .refuse _
    | true =>
      cases expected with
      | some type => exact Follows.pure type
      | none => exact .refuse _
  | unknown v =>
    refine .lift_bind fun solution => ?_
    cases solution with
    | some u => exact hself w u expected
    | none =>
      refine (follows_boundsInScope t v .empty).bind fun _ => ?_
      exact .lift_bind hconclude
  | delayed u exprs levels =>
    refine .lift_bind fun solution => ?_
    have hexpand : Follows w (do self (← expandDelayed k.sig fuel u exprs levels) expected)
        (do self' w.scope (← expandDelayed k.sig fuel u exprs levels) expected) :=
      .lift_bind fun e => hself w e expected
    cases u.node with
    | unknown v =>
      cases solution with
      | some u => exact hexpand
      | none =>
        refine .lift_bind fun exprs => ?_
        refine (follows_boundsInScope t v exprs).bind fun _ => ?_
        exact .lift_bind fun type => .lift_bind hconclude
    | _ => exact hexpand

end Working

end Recheck
