import Recheck.Proofs.Keeps.Courses
import Recheck.Typing.Declarations

/-!
# Recheck — checking terms keeps invariants

`Typing.term` keeps every invariant on terms of the region, by induction on the depth: a check
does nothing to the state but the primitive changes. The rules follow a course that stays in
one place. So do the checks of declarations.
-/

namespace Recheck

variable {R : Region} {I : SolverState → Prop} {k : Checker}

/-! ## Staying in one place -/

theorem looksAll_within {ts : List Term} {P P' : Unit} :
    LooksAll (fun _ t _ => t.Within R) P ts P' ↔ ∀ t ∈ ts, t.Within R := by
  induction ts generalizing P with
  | nil => exact ⟨fun _ => by simp, fun _ => .nil⟩
  | cons t ts ih =>
    rw [List.forall_mem_cons]
    constructor
    · intro h
      cases h with
      | cons ht hts => exact ⟨ht, ih.mp hts⟩
    · exact fun h => @LooksAll.cons _ _ P () P' t ts h.1 (ih.mpr h.2)

theorem Term.within_iff_looks {n : Node Term} {stamp : Nat} {P P' : Unit}
    (hn : ∀ strict xs body, n ≠ .letIn strict xs body) : (Term.mk stamp n).Within R ↔
      R.Holds n.hidden ∧
        LooksAll (fun _ t _ => t.Within R) P ((n.checked k.sig).map Prod.snd) P' := by
  rw [Term.within_mk, looksAll_within, List.forall_mem_map]
  exact Node.forall_parts_iff k.sig hn

/-- The invariant holds all the way, and terms of the region stay in it. -/
def Course.still (hI : SolverInvariant k.sig R I) (hsig : k.sig.Within R) : Course k where
  Place := Unit
  Before _ _ := True
  region _ := R
  holds _ := I
  broken := I
  Looks _ t _ := t.Within R
  Inside _ _ := True
  Safe _ _ := True
  refl _ := trivial
  trans _ _ := trivial
  region_le _ := ⟨fun _ h => h, fun _ h => h⟩
  invariant _ := hI
  sig _ := hsig
  breaks _ _ h := h
  before _ := trivial
  within h := h
  node hn := Term.within_iff_looks hn
  inside _ := trivial
  inside_mono _ _ := trivial
  fresh _ _ := (hI.freshVar _ _).mono fun _ hx => ⟨hx, trivial⟩
  safe_ref _ := trivial
  safe_node _ _ := trivial
  safe_parts _ _ _ := trivial

theorem Course.Passes.keeps {A : Type} {x : Check A} {Q Q' : A → Prop}
    {hI : SolverInvariant k.sig R I} {hsig : k.sig.Within R}
    (h : (Course.still hI hsig).Passes () x () Q) (hQ : ∀ a, Q a → Q' a) : Keeps I x Q' :=
  h.mono hQ

namespace Typing

variable {self} (hI : SolverInvariant k.sig R I) (hsig : k.sig.Within R) (hself : Respects R I self)

section Rules

variable {scope : Scope} {t resultType : Term} {ps : Telescope Term}

include hself

theorem Respects.checks : (Course.still hI hsig).Checks self where
  respects _ := hself
  passes ht hscope hexpected :=
    (hself _ _ _ hscope.1 ht hexpected).mono fun _ h => ⟨h, trivial⟩

include hI hsig

omit hself in
theorem placed_still (hscope : scope.Within R) : (Course.still hI hsig).Placed () [] scope :=
  ⟨hscope, fun _ _ => trivial⟩

theorem keeps_paramsIn (sort : USort) (hscope : scope.Within R)
    (hps : R.Holds ps.parts) :
    Keeps I (paramsIn k self scope ps sort) (Scope.Within R) := by
  obtain ⟨hhidden, hterms⟩ := (Telescope.forall_parts_iff []).mp hps
  exact (passes_paramsIn (hself.checks hI hsig) sort (placed_still hI hsig hscope) hhidden
    (looksAll_within.mpr (List.forall_mem_map.mpr hterms))).keeps fun _ h => h.1.1

theorem keeps_callArgs {first : Option Term} {σ : Substitution} {columns : List (Column Term)}
    {ts : List Term} (fuel : Nat) (t : Term) (hscope : scope.Within R)
    (hfirst : ∀ t, first = some t → t.Within R) (hσ : R.Holds σ.exprs.parts)
    (hcolumns : R.Holds (columns.flatMap Column.parts)) (hts : ∀ t ∈ ts, t.Within R) :
    Keeps I (callArgs k fuel self scope t first σ columns ts) fun σ =>
      R.Holds σ.exprs.parts :=
  (passes_callArgs (hself.checks hI hsig) fuel t (placed_still hI hsig hscope) hfirst hσ hcolumns
    (looksAll_within.mpr hts)).keeps fun _ h => h.1

theorem keeps_elim {e : Elim Term} (fuel : Nat) (hscope : scope.Within R)
    (hps : R.Holds ps.parts) (hresult : resultType.Within R) (he : R.Holds e.parts) :
    Preserves I (elim k fuel self scope ps resultType e) := by
  obtain ⟨hhidden, hterms⟩ := Elim.forall_parts_iff.mp he
  exact (passes_elim (hself.checks hI hsig) (placed_still hI hsig hscope) fuel hps hresult hhidden
    (looksAll_within.mpr (List.forall_mem_map.mpr hterms))).keeps fun _ _ => trivial

omit hsig in
theorem keeps_letClauses {xs : List Var} (t : Term) (hscope : scope.Within R)
    (hxs : ∀ x ∈ xs, R.refers x.serial) :
    Keeps I (letClauses k self t scope xs) (Scope.Within R) := by
  induction xs generalizing scope with
  | nil => exact .pure hscope
  | cons x xs ih =>
    rw [List.forall_mem_cons] at hxs
    have hrest : ∀ scope : Scope, scope.Within R → Keeps I (do
        let scope ← k.addVar scope x none t
        letClauses k self t scope xs) (Scope.Within R) := by
      intro scope hscope
      exact (keeps_addVar _ _ hscope (by simp)).bind fun scope hscope => ih hscope.1 hxs.2
    rw [letClauses]
    refine (hI.clause hxs.1).core fun c hc => ?_
    split
    next type heq =>
      have htype := hc.1.2 type heq
      refine (keeps_typeIn hI hself _ hscope htype).bind fun _ _ => ?_
      refine (hI.clause hxs.1).core fun c hc => ?_
      refine (hself.against hscope hc.1.1 htype).bind fun _ _ => ?_
      exact Keeps.bind (.pure hscope) hrest
    next =>
      refine (hself.infer hscope hc.1.1).bind fun type htype => ?_
      exact Keeps.bind (.pure ⟨hscope.1, List.forall_mem_cons.mpr ⟨htype, hscope.2⟩⟩) hrest

/-- One rule of the checker: only the forms that lead into the store are new. -/
theorem keeps_step {expected : Option Term} (fuel : Nat) (hscope : scope.Within R) (ht : t.Within R)
    (hexpected : ∀ u, expected = some u → u.Within R) :
    Keeps I (step k fuel self scope t expected) (Term.Within R) := by
  obtain ⟨stamp, node⟩ := t
  have h := ht.node rfl
  have hend : ∀ actual : Term, actual.Within R →
      Keeps I (conclude k fuel (.mk stamp node) expected actual) (Term.Within R) :=
    fun actual => keeps_conclude hI hsig fuel _ hexpected
  have hcourse (hn : node.Plain ∨ ∃ x, node = .ref x) :
      Keeps I (step k fuel self scope (.mk stamp node) expected) (Term.Within R) :=
    (passes_step (hself.checks hI hsig) (placed_still hI hsig hscope) fuel ht hexpected hn).keeps
      fun _ h => h.1
  cases node with
  | ref x => exact hcourse (.inr ⟨x, rfl⟩)
  | letIn strict xs body =>
    refine (keeps_letClauses hI hself _ hscope fun x hx => (h.1 x hx).2).bind
      fun inner hinner => ?_
    exact (hself.infer hinner h.2).bind hend
  | unknown v =>
    refine (hI.solution? _).core fun o ho => ?_
    cases o with
    | some u => exact hself scope u expected hscope (ho u rfl) hexpected
    | none =>
      refine (keeps_boundsInScope hI scope _ v _).bind fun _ _ => ?_
      exact (keeps_unknownType hI v).bind hend
  | delayed u exprs levels =>
    refine (hI.solution? u).core fun o _ => ?_
    split
    · refine (hI.readMapping h.2).core fun m hm => ?_
      refine (keeps_boundsInScope hI scope _ _ m).bind fun _ _ => ?_
      refine (keeps_unknownType hI _).bind fun type htype => ?_
      exact (hI.subst fuel htype (Substitution.holds_of hm)).core hend
    · refine (hI.expandDelayed fuel levels h.1 h.2).core fun e he => ?_
      exact hself scope e expected hscope he hexpected
  | _ => exact hcourse (.inl trivial)

omit hself in
/-- The checker keeps every invariant, by induction on the depth. -/
theorem respects_term (fuel : Nat) : Respects R I (term k fuel) := by
  induction fuel with
  | zero => exact fun _ _ _ _ _ _ => .throw
  | succ fuel ih =>
    intro scope t expected hscope ht hexpected
    refine keeps_traced hscope (hI.quote fuel ht).liftCore fun scope hscope => ?_
    exact keeps_step hI hsig ih fuel hscope ht hexpected

end Rules

/-! ## Declarations -/

section Declarations

variable {scope : Scope}

include hI hsig

theorem keeps_constructorDecl (fuel : Nat) (d : DataName) (c : ConName) (hscope : scope.Within R) :
    Preserves I (constructorDecl k fuel scope d c) := by
  have hself := respects_term hI hsig fuel
  have hend : ∀ scope : Scope, scope.Within R → Keeps I (do
      let _ ← paramsIn k (term k fuel) scope (k.sig.con c).params (k.sig.data d).sort)
      fun _ => True := fun scope hscope =>
    (keeps_paramsIn hI hsig hself _ hscope (hsig.con c)).then_pure
  rw [constructorDecl]
  dsimp only
  split
  · exact keeps_refuse_bind _ _
  split
  next => exact (keeps_paramsIn hI hsig hself _ hscope (hsig.data d)).bind hend
  next ps hps =>
    have hnew : Keeps I (Core.freshVar .param "_") fun x => R.Binds x ∧ True :=
      (hI.freshVar _ _).mono fun _ hx => ⟨hx, trivial⟩
    exact (keeps_patterns hI hsig hnew fuel ⟨hscope, fun _ _ => trivial⟩
      Substitution.holds_identity (Telescope.holds_columns (hsig.data d))
      (hsig.patterns c ps hps) fun _ _ => trivial).bind fun r hr => hend _ hr.2.2.1

theorem keeps_dataDecl (fuel : Nat) (d : DataName) (hscope : scope.Within R) :
    Preserves I (dataDecl k fuel scope d) := by
  refine keeps_traced hscope (.pure trivial) fun scope hscope => ?_
  refine (keeps_paramsIn hI hsig (respects_term hI hsig fuel) _ hscope (hsig.data d)).bind
    fun _ _ => ?_
  exact Keeps.forM fun c _ => keeps_constructorDecl hI hsig fuel d c hscope

theorem keeps_funcDecl (fuel : Nat) (f : FuncName) (hscope : scope.Within R) :
    Preserves I (funcDecl k fuel scope f) := by
  have hself := respects_term hI hsig fuel
  refine keeps_traced hscope (.pure trivial) fun scope hscope => ?_
  refine (keeps_paramsIn hI hsig hself _ hscope (hsig.params f)).bind fun inner hinner => ?_
  refine (keeps_typeIn hI hself _ hinner (hsig.result f)).bind fun _ _ => ?_
  have helim : ∀ e : Elim Term, R.Holds e.parts → Keeps I (elim k fuel (term k fuel) scope
      (k.sig.func f).params (k.sig.func f).resultType e) fun _ => True := fun e he =>
    keeps_elim hI hsig hself fuel hscope (hsig.params f) (hsig.result f) he
  have hend : ∀ o : Option Term, (∀ t, o = some t → t.Within R) →
      Preserves I (endpoint k fuel inner (k.sig.func f).resultType o) := by
    intro o ho
    cases o with
    | none => exact .pure trivial
    | some t =>
      exact (hself.against hinner (ho t rfl) (hsig.result f)).then_pure
  split
  next => exact .pure trivial
  next t hbody =>
    have ht : t.Within R := by simpa [Body.parts] using hsig.body f _ hbody
    exact (hself.against hinner ht (hsig.result f)).then_pure
  next e hbody =>
    refine (helim e (hsig.body f _ hbody)).bind fun _ _ => ?_
    exact keeps_exhaustive hI hsig fuel _ e (hsig.params f)
  next ps ends otherwise hbody =>
    have hparts := hsig.body f _ hbody
    simp only [Body.parts, Region.holds_append, Region.holds_flatMap, Region.holds_map,
      Option.mem_toList, Part.within_term] at hparts
    refine Keeps.bind (P := fun _ => True) (Keeps.forIn (fun e he _ _ => ?_) trivial) fun _ _ => ?_
    · refine (hend e.1 (hparts.1.2 e he).1).bind fun _ _ => ?_
      exact (hend e.2 (hparts.1.2 e he).2).then_pure
    · split
      next e => exact helim e (hparts.2 e rfl)
      next => exact .pure trivial

end Declarations

end Typing

end Recheck
