import Recheck.Proofs.Copies

/-!
# Recheck — shared mappings are put back

A substitution that is made of a shared mapping extends it whenever it goes under a binder. A
variable of the mapping may be bound on the way, more than once, and substitutions that are made of
the same mapping may be carried out inside of each other. When the outermost one is done, the
mapping is what it was, and so is its log: `Mapping.restored_by_subst`.

What is known of a run that is still in scopes is `Substitution.Entered`: it has extended one
mapping, and only by way of the log. Leaving the scopes undoes the log. So the argument follows the
scopes of the traversal, and at the recursive call it takes for granted that the call has left all
of its own.
-/

namespace Recheck

variable {σ : Substitution} {s s' : Store}

/-- The mapping that the substitution is made of, if it is shared, has its entries. -/
def Substitution.Published (σ : Substitution) (s : Store) : Prop :=
  ∀ i, σ.shared = some i → s.mapping? (.shared i) = some σ.exprs

namespace Substitution.Published

theorem restored (h : σ.Published s) (hs : Restored s s') : σ.Published s' := fun i hi => by
  rw [← h i hi, Store.mapping?, Store.mapping?, hs i]

theorem enter (h : σ.Published s) (x : Var) (t : Term) :
    (σ.bind x t).Published (σ.onShared (fun m => m.bind (.local x) t) s) := fun i hi => by
  obtain ⟨m, hm, hexprs⟩ := Option.map_eq_some_iff.mp (h i hi)
  rw [Store.mapping?, get?_onShared (σ := σ) hi, hm, bind, ← hexprs]
  rfl

theorem commit (h : σ.Published s) {τ : Substitution} (mark : Nat) :
    σ.Published (τ.onShared (Shared.commit mark) s) := fun i hi => by
  rw [← h i hi, Store.mapping?, Store.mapping?]
  by_cases hτ : τ.shared = some i
  · rw [get?_onShared hτ, Option.map_map]
    rfl
  · rw [get?_onShared_of_ne hτ]

end Substitution.Published

namespace Traversal

variable {self} (hself : Restoring self)
variable {sig : Signature} {t fn arg u : Term} {stamp : Nat}

include hself

theorem restored_apply : Yields (applyFrom self σ t) s fun _ s' => Restored s s' := by
  unfold applyFrom
  split
  · exact .pure (.of_eq rfl)
  · exact hself.start

theorem restored_app : Yields (makeAppFrom self fn [arg]) s fun _ s' => Restored s s' := by
  refine yields_app (fun _ => .build (.of_eq rfl)) (fun sort p body _ => hself) ?_
  -- The parameters that are left are copied by a substitution that is made of no shared mapping.
  intro sort p q ps body ps' body' s' _ _ hruns
  exact .build fun i => (hruns.entered hself).others i nofun

theorem restored_field (f : FieldName) (sort : USort) :
    Yields (makeFieldFrom self f sort arg) s fun _ s' => Restored s s' :=
  yields_field (fun _ => .build (.of_eq rfl)) fun _ _ _ _ _ => hself

theorem restored_compose (m : Mapping Term) :
    Yields (composeFrom self m σ) s fun _ s' => Restored s s' := by
  have hentries : ∀ (entries : List (Variable × Term)) (s : Store),
      Yields (entries.mapM fun e => return (e.1, ← applyFrom self σ e.2)) s
        fun _ s' => Restored s s' := by
    intro entries
    induction entries with
    | nil => exact fun _ => .pure (.of_eq rfl)
    | cons e entries ih =>
      intro s
      rw [List.mapM_cons]
      refine .seq (Yields.bind (restored_apply hself) fun _ s₁ h => .pure ?_)
      exact (ih s₁).bind fun _ _ h' => .pure (h.trans h')
  unfold composeFrom
  split
  · exact .pure (.of_eq rfl)
  split
  · exact .pure (.of_eq rfl)
  · exact (hentries _ s).bind fun _ _ h => .pure h

/-- Copying the clauses of a let expression goes into the scopes of the copies. -/
theorem entered_clauses (xs : List Var) : Yields (clauses self σ xs) s fun _ s' =>
    σ.Entered s s' := by
  induction xs generalizing σ s with
  | nil => exact .pure (.of_restored (.of_eq rfl))
  | cons x xs ih =>
    rw [clauses]
    refine .seq (Yields.clause fun c _ => ?_).lift
    refine Yields.bind hself fun expr s₁ hexpr => ?_
    refine Yields.bind (runs_optional c.type) ?_
    rintro type s₂ ⟨htype, -⟩
    refine .seq (Yields.lift (.seq (Yields.freshVar (.seq (Yields.modify (.pure ?_))))))
    refine .seq (Yields.build ?_).lift
    refine Yields.bind (enters x _).lift ?_
    rintro _ s₃ ⟨rfl, -, hentered⟩
    refine Yields.bind ih fun r s₄ hrest => .pure ?_
    have hclause : σ.Entered s s₂ := .of_restored (hexpr.trans (htype.restored hself))
    have hscope : σ.Entered s₂ s₄ := (hentered.trans (hrest.congr rfl)).of_eq rfl
    exact hclause.trans hscope

theorem restored_unknown (v : Var) :
    Yields (unknown self σ t v) s fun _ s' => Restored s s' := by
  unfold unknown
  refine .seq (Yields.solution? ?_).lift
  split
  · exact hself
  split
  · exact .pure (.of_eq rfl)
  refine .seq (Yields.unknown fun w hw => ?_).lift
  split
  · dsimp only
    split
    · exact .pure (.of_eq rfl)
    · exact Yields.lift (.build (.of_eq rfl))
  · refine Yields.bind (P := fun _ s' => Restored s s') (Yields.lift ?_) fun _ _ h => .pure h
    exact .seq (Yields.unknown fun _ _ => Yields.modify (.of_eq rfl))

theorem restoring_step : Restoring (step sig self) := by
  intro σ t s
  obtain ⟨stamp, n⟩ := t
  by_cases hplain : n.isPlain
  · exact (rebuilds_step hplain).mono fun _ _ h => h.1.restored hself
  cases n with
  | ref x =>
    unfold step
    dsimp only [Term.node]
    split
    · exact .pure (.of_eq rfl)
    split
    · refine Yields.bind (yields_updateClause (.of_eq rfl) fun c _ => ?_) fun _ _ h => .pure h
      exact hself.mono fun _ _ h => h.trans (.of_eq rfl)
    · exact .pure (.of_eq rfl)
  | app fn arg =>
    refine Yields.bind hself fun _ _ hfn => Yields.bind hself fun _ _ harg => Yields.lift ?_
    exact (restored_app hself).mono fun _ _ h => (hfn.trans harg).trans h
  | field f sortArg arg =>
    unfold step
    dsimp only [Term.node]
    split
    · refine Yields.bind hself fun _ _ harg => Yields.lift ?_
      exact (restored_app hself).mono fun _ _ h => harg.trans h
    · refine Yields.bind hself fun _ _ harg => Yields.lift ?_
      exact (restored_field hself f _).mono fun _ _ h => harg.trans h
  | proj u index =>
    refine Yields.bind hself fun _ _ hu => Yields.lift ?_
    exact yields_proj (fun _ => .build (hu.trans (.of_eq rfl))) fun _ _ _ _ _ => hu
  | letIn strict xs body =>
    refine yields_inScope (P := fun _ s' => σ.Entered s s')
      (Yields.bind (entered_clauses hself xs) fun r s₁ hclauses => ?_) fun _ _ h => h.release
    refine Yields.bind hself fun _ s₂ hbody => Yields.lift (.build ?_)
    exact hclauses.trans (.of_restored (hbody.trans (.of_eq rfl)))
  | unknown v =>
    show Yields (unknown self σ _ v) s _
    exact restored_unknown hself v
  | delayed u r levels =>
    refine .seq (Yields.mapping fun m _ => ?_).lift
    refine Yields.bind (restored_compose hself m).lift fun _ _ hm => Yields.lift ?_
    exact (restored_apply hself).mono fun _ _ h => hm.trans h
  | _ => exact absurd rfl hplain

omit hself in
theorem restoring_traverse (sig : Signature) (fuel : Nat) : Restoring (traverse sig fuel) := by
  induction fuel with
  | zero => exact .throwT
  | succ fuel ih => exact restoring_step ih

/-- Copying a telescope maps each of its variables to a reference to the copy, and the mapping is
left so. -/
theorem published_params (ps : Telescope Term) (hσ : σ.Published s) :
    Yields (params self σ ps) s fun r s' => r.2.Published s' ∧ σ.Entered s s' ∧
      ∃ refs, refs.map Term.node = r.1.vars.map .ref ∧ r.1.length = ps.length ∧
        r.2 = { σ with exprs := σ.exprs.insertVars ps.vars refs } := by
  induction ps generalizing σ s with
  | nil => exact .pure ⟨hσ, .of_restored (.of_eq rfl), [], rfl, rfl, rfl⟩
  | cons p ps ih =>
    rw [params]
    refine Yields.bind (runs_optional p.type) ?_
    rintro type s₁ ⟨htype, -⟩
    have hs₁ : Restored s s₁ := htype.restored hself
    let y : Var := ⟨s₁.next, .param, p.var.name⟩
    let ref : Term := .mk (s₁.next + 1) (.ref y)
    refine .seq (Yields.freshVar (.seq (Yields.build ?_).lift)).lift
    refine .seq (Yields.lift (.seq (Yields.modify (.pure ?_))))
    refine Yields.bind (ih (Substitution.Published.enter ?_ p.var ref)) ?_
    · exact (hσ.restored hs₁).restored (.of_eq rfl)
    rintro ⟨ps', σ'⟩ s₂ ⟨hpublished, hentered, refs, hrefs, hlength, heq⟩
    have hrefs' := congrArg (ref.node :: ·) hrefs
    refine .pure ⟨hpublished, ?_, ref :: refs, hrefs', congrArg (· + 1) hlength, heq⟩
    have hscope := (Substitution.Entered.bind σ (.local p.var) ref _).trans (hentered.congr rfl)
    exact (Substitution.Entered.of_restored hs₁).trans (hscope.of_eq rfl)

end Traversal

/-- When a substitution has been carried out, all shared mappings have the same entries and the
same logs as before. When a telescope has been copied, the mapping that the substitution is made of
has one more entry for each variable, the reference to the copy, in place of what there was. This
is not in the log. All other mappings stay. -/
theorem Mapping.restored_by_subst (sig : Signature) (fuel : Nat) (hσ : σ.Published s) :
    (∀ t : Term, Yields (t.subst sig fuel σ) s fun _ s' =>
      ∀ i, s'.mappings.get? i = s.mappings.get? i) ∧
    ∀ ps : Telescope Term, Yields (ps.subst sig fuel σ) s fun r s' => r.2.Published s' ∧
      (∀ i, σ.shared ≠ some i → s'.mappings.get? i = s.mappings.get? i) ∧
      (∀ i, (s'.mappings.get? i).map Shared.undo = (s.mappings.get? i).map Shared.undo) ∧
      ∃ refs, refs.map Term.node = r.1.vars.map .ref ∧ r.1.length = ps.length ∧
        r.2 = { σ with exprs := σ.exprs.insertVars ps.vars refs } := by
  have hself : Traversal.Restoring (Traversal.traverse sig fuel) :=
    Traversal.restoring_traverse sig fuel
  refine ⟨fun t => Traversal.restored_apply hself, fun ps => ?_⟩
  refine .seq (Yields.get (Yields.bind (Traversal.published_params hself ps hσ).start ?_))
  rintro r s' ⟨hpublished, hentered, hrefs⟩
  have hcommit := hentered.commit
  refine .seq (Yields.modify (.pure ⟨hpublished.commit _, fun i hi => ?_, hcommit, hrefs⟩))
  exact (Substitution.get?_onShared_of_ne hi).trans (hentered.others i hi)

namespace ReboundKey

def x : Var := ⟨13, .param, "x"⟩

/-- The function `\lam x => x`, of the variable that the mapping replaces. -/
def term : Term := .mk 14 (.lam .set0 [⟨x, none, true⟩] (.mk 15 (.ref x)))

/-- Replaces the variable by a number. -/
def replacing : Substitution := ⟨.single (.local x) (.mk 16 (.int 0)), .empty, some 0⟩

def store : Store :=
  { Store.start 17 with mappings := Table.empty.insert 0 ⟨replacing.exprs, []⟩ }

/-- In the function the variable stands for the parameter of the copy, and then for the number
again. -/
theorem identity_restores : replacing.Published store ∧
    ∃ t' s', term.subst Prelude.signature 5 replacing store = .ok t' s' ∧
      t'.node = .lam .set0 [⟨⟨17, .param, "x"⟩, none, true⟩] (.mk 18 (.ref ⟨17, .param, "x"⟩)) ∧
      s'.mappings.get? 0 = some ⟨replacing.exprs, []⟩ := by
  have h : replacing.Published store := fun i hi => by
    cases hi
    rfl
  refine ⟨h, _, _, rfl, rfl, ?_⟩
  exact (Mapping.restored_by_subst Prelude.signature 5 h).1 term _ _ ⟨store, _, rfl, rfl, rfl⟩ 0

end ReboundKey

end Recheck
