import Recheck.Proofs.Reading
import Recheck.Proofs.Undo
import Mathlib.Data.List.Rotate

/-!
# Recheck — what a step of a traversal does to the parts of a node

Most of what a traversal does is copying. It copies the parts of a node one after the
other, binders get new names on the way, and a new node is put together from the copies.
The order, the scopes and the shape of the new node are what this module is about. What
the copies of the terms are does not matter: they are left to the recursive call, of which
nothing is known.

* `Plan` lists the parts of a node in the order in which they are copied.
* `Plan.Runs` says that the parts of one plan are copies of the parts of another.
* `Traversal.rebuilds_step` is the result: a step of a traversal runs the plan of the node,
  for all nodes that are made of their parts alone.
-/

namespace Recheck

variable {n : Node Term}

/-! ## Plans -/

/-- The parts of a node: terms, and parts in scope of a variable. -/
inductive Plan where
  | done
  | term (t : Term) (rest : Plan)
  | under (x : Var) (inner rest : Plan)

namespace Plan

/-- The parts of one plan in front of those of another. -/
def append : Plan → Plan → Plan
  | .done, q => q
  | .term t p, q => .term t (p.append q)
  | .under x inner p, q => .under x inner (p.append q)

/-- Terms, one after the other. -/
def terms (ts : List Term) : Plan := ts.foldr .term .done

/-- Plans, one after the other. -/
def all (ps : List Plan) : Plan := ps.foldr append .done

theorem append_done (p : Plan) : p.append .done = p := by
  induction p with
  | done => rfl
  | term t p ih => rw [append, ih]
  | under x inner p _ ih => rw [append, ih]

end Plan

/-- The parts of a telescope, and those in the scope behind it. -/
def Telescope.plan : Telescope Term → Plan → Plan
  | [], inner => inner
  | p :: ps, inner =>
    (Plan.terms p.type.toList).append (.under p.var (Telescope.plan ps inner) .done)

/-- The parts of the variables of patterns, and those in the scope behind them. -/
def Pattern.plan : List (Var × Term) → Plan → Plan
  | [], inner => inner
  | b :: bs, inner => .term b.2 (.under b.1 (Pattern.plan bs inner) .done)

theorem Pattern.plan_append (as bs : List (Var × Term)) (inner : Plan) :
    Pattern.plan (as ++ bs) inner = Pattern.plan as (Pattern.plan bs inner) := by
  induction as with
  | nil => rfl
  | cons a as ih => rw [List.cons_append, Pattern.plan, ih, Pattern.plan]

def Clause.plan (c : Clause Term) : Plan :=
  Pattern.plan (Pattern.bindingsOf c.patterns) (.terms c.body.toList)

mutual

def Tree.plan : Tree Term → Plan
  | .leaf ps body => Telescope.plan ps (.terms [body])
  | .branch ps children => Telescope.plan ps (Tree.planAll children)

/-- The parts of the children of a branch. -/
def Tree.planAll : List (BranchKey × Tree Term) → Plan
  | [] => .done
  | (_, t) :: rest => t.plan.append (Tree.planAll rest)

end

def Elim.plan (e : Elim Term) : Plan :=
  (Plan.all (e.clauses.map Clause.plan)).append (.all (e.tree.toList.map Tree.plan))

def CaseOf.plan (c : CaseOf Term) : Plan :=
  (Plan.terms c.args).append
    ((Telescope.plan c.params (.terms (c.resultType :: c.levelProof.toList))).append
      (.all (c.elim.toList.map Elim.plan)))

def RecordType.plan (r : RecordType Term) : Plan :=
  .under r.this (.terms (r.impls.map Prod.snd)) .done

/-- The parts of a node. The clauses of a let expression, the solution of an unknown and the
mapping of a delayed substitution are not in the node alone. -/
def Node.plan : Node Term → Plan
  | .app fn arg => .terms [fn, arg]
  | .call _ _ args => .terms args
  | .con c => (Plan.terms c.dataArgs).append (.terms c.args)
  | .data d => .terms d.args
  | .field _ _ arg => .terms [arg]
  | .record r => r.plan
  | .lam _ ps body | .pi _ ps body => Telescope.plan ps (.terms [body])
  | .sigma s => Telescope.plan s.params .done
  | .tuple fields type => (Plan.terms fields).append (Telescope.plan type.val.params .done)
  | .proj t _ => .terms [t]
  | .new renewed type => type.val.plan.append (.terms renewed.toList)
  | .case c => c.plan
  | .ofType t type => .terms [t, type]
  | .hole _ part => .terms part.toList
  | .ref _ | .univ _ | .int _ | .letIn _ _ _ | .unknown _ | .delayed _ _ _ => .done

/-! ## The subterms in a plan -/

/-- The terms of a plan in their scopes. -/
def Plan.subterms : Plan → List (Scoped Term)
  | .done => []
  | .term t rest => ([], t) :: rest.subterms
  | .under x inner rest => inScopeOf [x] inner.subterms ++ rest.subterms

theorem Plan.subterms_append (p q : Plan) : (p.append q).subterms = p.subterms ++ q.subterms := by
  induction p with
  | done => rfl
  | term t p ih => rw [append, subterms, ih, subterms, List.cons_append]
  | under x inner p _ ih => rw [append, subterms, ih, subterms, List.append_assoc]

theorem Plan.subterms_terms (ts : List Term) : (Plan.terms ts).subterms = unscoped ts := by
  induction ts with
  | nil => rfl
  | cons t ts ih => exact congrArg _ ih

theorem Plan.subterms_all {A : Type} {plan : A → Plan} {subterms : A → List (Scoped Term)}
    (h : ∀ a, (plan a).subterms = subterms a) (as : List A) :
    (Plan.all (as.map plan)).subterms = as.flatMap subterms := by
  induction as with
  | nil => rfl
  | cons a as ih =>
    rw [List.flatMap_cons, ← ih, ← h]
    exact subterms_append _ _

theorem Telescope.plan_subterms (ps : Telescope Term) (inner : Plan) :
    (ps.plan inner).subterms =
      ps.subterms [] ++ inScopeOf (ps.inner []) inner.subterms := by
  induction ps with
  | nil => simp [plan, subterms, Telescope.inner, Telescope.vars, inScopeOf]
  | cons p ps ih =>
    have hscope : Telescope.inner [] (p :: ps) = Telescope.inner [] ps ++ [p.var] := by
      simp [Telescope.inner, Telescope.vars]
    rw [plan, Plan.subterms_append, Plan.subterms_terms, Plan.subterms, ih, subterms,
      Telescope.subterms_eq [p.var], hscope, inScopeOf_append, inScopeOf_inScopeOf, Plan.subterms,
      List.append_nil, List.append_assoc]
    rfl

theorem Pattern.plan_subterms (bs : List (Var × Term)) (inner : Plan) :
    (Pattern.plan bs inner).subterms =
      Pattern.subterms [] bs ++ inScopeOf (Pattern.inner [] bs) inner.subterms := by
  induction bs with
  | nil => simp [plan, subterms, Pattern.inner, inScopeOf]
  | cons b bs ih =>
    have hscope : Pattern.inner [] (b :: bs) = Pattern.inner [] bs ++ [b.1] := by
      simp [Pattern.inner]
    rw [plan, Plan.subterms, Plan.subterms, ih, subterms, Pattern.subterms_eq [b.1], hscope,
      inScopeOf_append, inScopeOf_inScopeOf, Plan.subterms, List.append_nil, List.cons_append]

theorem Clause.plan_subterms (c : Clause Term) : c.plan.subterms = c.subterms := by
  rw [plan, Pattern.plan_subterms, Plan.subterms_terms, unscoped, inScopeOf_map]
  rfl

mutual

theorem Tree.plan_subterms : ∀ t : Tree Term, t.plan.subterms = t.subterms []
  | .leaf ps body => by
    rw [Tree.plan, Telescope.plan_subterms, Plan.subterms_terms, Tree.subterms]
    rfl
  | .branch ps children => by
    rw [Tree.plan, Telescope.plan_subterms, Tree.planAll_subterms, ← Tree.subtermsOf_eq,
      Tree.subterms]

theorem Tree.planAll_subterms : ∀ children : List (BranchKey × Tree Term),
    (Tree.planAll children).subterms = Tree.subtermsOf [] children
  | [] => rfl
  | (key, t) :: rest => by
    rw [Tree.planAll, Plan.subterms_append, Tree.plan_subterms, Tree.planAll_subterms,
      Tree.subtermsOf]

end

theorem Elim.plan_subterms (e : Elim Term) : e.plan.subterms = e.subterms := by
  rw [plan, Plan.subterms_append, Plan.subterms_all Clause.plan_subterms,
    Plan.subterms_all Tree.plan_subterms, subterms]

theorem CaseOf.plan_subterms (c : CaseOf Term) : c.plan.subterms = c.subterms := by
  rw [plan, Plan.subterms_append, Plan.subterms_append, Plan.subterms_terms,
    Telescope.plan_subterms, Plan.subterms_terms, Plan.subterms_all Elim.plan_subterms, subterms,
    unscoped, unscoped, inScopeOf_map]
  simp only [List.nil_append, List.append_assoc]

theorem RecordType.plan_subterms (r : RecordType Term) : r.plan.subterms = r.subterms := by
  rw [plan, Plan.subterms, Plan.subterms_terms]
  simp [Plan.subterms, subterms, unscoped, inScopeOf]

/-- Whether a step of a traversal makes a node of the copies of its parts, and of nothing
else. -/
def Node.isPlain {T : Type} : Node T → Bool
  | .ref _ | .app _ _ | .field _ _ _ | .proj _ _ => false
  | .letIn _ _ _ | .unknown _ | .delayed _ _ _ => false
  | _ => true

/-- The number of subterms that are copied before those that the node lists first. An instance
that is extended is copied after the record type, and listed in front of it. -/
def Node.leading {T : Type} : Node T → Nat
  | .new _ type => type.val.impls.length
  | _ => 0

theorem Node.leading_erase (n : Node Term) : n.erase.leading = n.leading := by
  cases n with
  | new renewed type => exact List.length_map _
  | _ => rfl

theorem Node.leading_atLevels {T : Type} (levels : LevelSubst) (n : Node T) :
    (n.atLevels levels).leading = n.leading := by cases n <;> rfl

/-- The subterms of a node are those of its plan. -/
theorem Node.subterms_eq_rotate (hplain : n.isPlain) :
    n.subterms = n.plan.subterms.rotate n.leading := by
  have hsame : n.leading = 0 → n.plan.subterms = n.subterms →
      n.subterms = n.plan.subterms.rotate n.leading := fun hleading hsubterms => by
    rw [hleading, List.rotate_zero, hsubterms]
  cases n with
  | ref | app | field | proj | letIn | unknown | delayed => cases hplain
  | new renewed type =>
    have hlength : type.val.subterms.length = type.val.impls.length := List.length_map _
    rw [plan, Plan.subterms_append, RecordType.plan_subterms, Plan.subterms_terms, leading,
      ← hlength, List.rotate_append_length_eq, subterms]
  | univ | int => rfl
  | call | data | ofType | hole => exact hsame rfl (Plan.subterms_terms _)
  | con c =>
    refine hsame rfl ?_
    rw [plan, Plan.subterms_append, Plan.subterms_terms, Plan.subterms_terms, subterms]
  | record r => exact hsame rfl r.plan_subterms
  | lam sort ps body | pi sort ps body =>
    refine hsame rfl ?_
    rw [plan, Telescope.plan_subterms, Plan.subterms_terms]
    rfl
  | sigma s =>
    refine hsame rfl ?_
    rw [plan, Telescope.plan_subterms]
    exact List.append_nil _
  | tuple fields type =>
    refine hsame rfl ?_
    rw [plan, Plan.subterms_append, Plan.subterms_terms, Telescope.plan_subterms]
    exact congrArg _ (List.append_nil _)
  | case c => exact hsame rfl c.plan_subterms

theorem Node.leading_le (hplain : n.isPlain) : n.leading ≤ n.subterms.length := by
  cases n with
  | new renewed type =>
    rw [subterms, List.length_append, RecordType.subterms, List.length_map, leading]
    exact Nat.le_add_left _ _
  | _ => exact Nat.zero_le _

/-! ## Runs -/

/-- Nothing that terms refer to is different in the second store, except for the mapping that
the substitution is made of, if it is shared. -/
structure Quiet (σ : Substitution) (s s' : Store) : Prop where
  next : s.next ≤ s'.next
  clauses : s'.clauses = s.clauses
  unknowns : s'.unknowns = s.unknowns
  solutions : s'.solutions = s.solutions
  mappings : σ.shared = none → s'.mappings = s.mappings
  others : ∀ i, σ.shared ≠ some i → s'.mappings.get? i = s.mappings.get? i

namespace Quiet

variable {σ : Substitution} {s s' s'' : Store}

theorem refl : Quiet σ s s := ⟨le_rfl, rfl, rfl, rfl, fun _ => rfl, fun _ _ => rfl⟩

theorem trans (h : Quiet σ s s') (h' : Quiet σ s' s'') : Quiet σ s s'' where
  next := h.next.trans h'.next
  clauses := h'.clauses.trans h.clauses
  unknowns := h'.unknowns.trans h.unknowns
  solutions := h'.solutions.trans h.solutions
  mappings hσ := (h'.mappings hσ).trans (h.mappings hσ)
  others i hi := (h'.others i hi).trans (h.others i hi)

theorem tick (σ : Substitution) (s : Store) (k : Nat) :
    Quiet σ s { s with next := s.next + k } :=
  ⟨Nat.le_add_right _ _, rfl, rfl, rfl, fun _ => rfl, fun _ _ => rfl⟩

theorem onShared (σ : Substitution) (f : Shared → Shared) (s : Store) :
    Quiet σ s (σ.onShared f s) := by
  have hothers (i : Nat) (hi : σ.shared ≠ some i) := Substitution.get?_onShared_of_ne (s := s)
    (f := f) hi
  revert hothers
  unfold Substitution.onShared
  split
  next => exact fun _ => refl
  next number h =>
    unfold Store.updateMapping
    split
    · exact fun hothers => ⟨le_rfl, rfl, rfl, rfl, fun hnone => by simp [h] at hnone, hothers⟩
    · exact fun _ => refl

end Quiet

/-- The recursive call puts shared mappings back. -/
def Traversal.Restoring (self : Substitution → Term → Traversal Term) : Prop :=
  ∀ {σ t s}, Yields (self σ t) s fun _ s' => Restored s s'

/-- The second plan is a copy of the first one, made by calls of `self` and with new
variables. -/
inductive Plan.Runs (self : Substitution → Term → Traversal Term) :
    Substitution → Store → Plan → Plan → Store → Prop where
  | done {σ : Substitution} {s : Store} : Runs self σ s .done .done s
  | quiet {σ : Substitution} {s s₁ s₂ : Store} {p p' : Plan} (h : Quiet σ s s₁)
      (hp : Runs self σ s₁ p p' s₂) : Runs self σ s p p' s₂
  | term {σ : Substitution} {s s₁ s₂ : Store} {t t' : Term} {rest rest' : Plan}
      (ht : Returning.returns (self σ t) s t' s₁) (hrest : Runs self σ s₁ rest rest' s₂) :
      Runs self σ s (.term t rest) (.term t' rest') s₂
  | under {σ : Substitution} {s s₁ s₂ s₃ : Store} {x y : Var} {ref : Term}
      {inner inner' rest rest' : Plan} (hquiet : Quiet σ s s₁) (hold : s.next ≤ y.serial)
      (hnew : y.serial < s₁.next) (hkind : y.kind = .param ∨ y.kind = .given)
      (href : ref.node = .ref y) (hinner : Runs self (σ.bind x ref) s₁ inner inner' s₂)
      (hrest : Runs self σ s₂ rest rest' s₃) :
      Runs self σ s (.under x inner rest) (.under y inner' rest') s₃

namespace Plan.Runs

variable {self : Substitution → Term → Traversal Term} {σ : Substitution} {s s₁ s₂ : Store}
variable {p p' q q' : Plan}

theorem append (h : Runs self σ s p p' s₁) (h' : Runs self σ s₁ q q' s₂) :
    Runs self σ s (p.append q) (p'.append q') s₂ := by
  induction h with
  | done => exact h'
  | quiet hquiet _ ih => exact .quiet hquiet (ih h')
  | term ht _ ih => exact .term ht (ih h')
  | under hquiet hold hnew hkind href hinner _ _ ih =>
    exact .under hquiet hold hnew hkind href hinner (ih h')

theorem then_quiet (h : Runs self σ s p p' s₁) (hquiet : Quiet σ s₁ s₂) :
    Runs self σ s p p' s₂ := by
  have hdone := h.append (.quiet hquiet .done)
  rwa [append_done, append_done] at hdone

end Plan.Runs

/-- The run of a plan that may end in a scope, so that the shared mapping may be extended. -/
structure Plan.Enters (call : Substitution → Term → Traversal Term) (σ : Substitution) (s : Store)
    (p p' : Plan) (s' : Store) : Prop where
  runs : Runs call σ s p p' s'
  entered : Traversal.Restoring call → σ.Entered s s'

/-- The run of a plan that ends outside of all scopes, so that shared mappings are put back. -/
structure Plan.Closes (call : Substitution → Term → Traversal Term) (σ : Substitution) (s : Store)
    (p p' : Plan) (s' : Store) : Prop where
  runs : Runs call σ s p p' s'
  restored : Traversal.Restoring call → Restored s s'

section

variable {self : Substitution → Term → Traversal Term} {σ : Substitution} {s s₁ s₂ : Store}
variable {p p' q q' : Plan}

namespace Plan.Closes

theorem done : Closes self σ s .done .done s := ⟨.done, fun _ => .of_eq rfl⟩

theorem append (h : Closes self σ s p p' s₁) (h' : Closes self σ s₁ q q' s₂) :
    Closes self σ s (p.append q) (p'.append q') s₂ :=
  ⟨h.runs.append h'.runs, fun hself => (h.restored hself).trans (h'.restored hself)⟩

theorem term {t t' : Term} (ht : Returning.returns (self σ t) s t' s₁)
    (h : Closes self σ s₁ p p' s₂) : Closes self σ s (.term t p) (.term t' p') s₂ :=
  ⟨.term ht h.runs, fun hself => (hself _ _ ht).trans (h.restored hself)⟩

theorem single {t t' : Term} (ht : Returning.returns (self σ t) s t' s₁) :
    Closes self σ s (.terms [t]) (.terms [t']) s₁ := .term ht .done

theorem tick (h : Closes self σ s p p' s₁) :
    Closes self σ s p p' { s₁ with next := s₁.next + 1 } :=
  ⟨h.runs.then_quiet (.tick σ s₁ 1), fun hself => (h.restored hself).trans (.of_eq rfl)⟩

theorem enters (h : Closes self σ s p p' s₁) : Enters self σ s p p' s₁ :=
  ⟨h.runs, fun hself => .of_restored (h.restored hself)⟩

end Plan.Closes

theorem Plan.Enters.tick (h : Enters self σ s p p' s₁) :
    Enters self σ s p p' { s₁ with next := s₁.next + 1 } :=
  ⟨h.runs.then_quiet (.tick σ s₁ 1),
    fun hself => (h.entered hself).trans (.of_restored (.of_eq rfl))⟩

/-- Leaving the scope undoes the log. -/
theorem Plan.Enters.closes (h : Enters self σ s p p' s₁) :
    Closes self σ s p p' (σ.onShared (Shared.release (σ.mark s)) s₁) :=
  ⟨h.runs.then_quiet (.onShared σ _ s₁), fun hself => (h.entered hself).release⟩

end

/-! ## Scopes -/

namespace Traversal

variable {A : Type} {Q : A → Store → Prop} {t : Term}

/-- The traversal has gone under binders. What it copies from here on is in their scope. -/
structure Opens (call : Substitution → Term → Traversal Term) (σ : Substitution) (s : Store)
    (σ₁ : Substitution) (s₁ : Store) (before after : Plan → Plan) : Prop where
  levels : σ₁.levels = σ.levels
  shared : σ₁.shared = σ.shared
  runs : ∀ {p p' s₂}, Plan.Runs call σ₁ s₁ p p' s₂ → Plan.Runs call σ s (before p) (after p') s₂
  entered : Restoring call → σ.Entered s s₁

variable {sig : Signature} {self : Substitution → Term → Traversal Term}
variable {σ σ₁ σ₂ : Substitution} {s s₁ s₂ : Store}

theorem Opens.refl : Opens self σ s σ s id id :=
  ⟨rfl, rfl, id, fun _ => .of_restored (.of_eq rfl)⟩

theorem Opens.enters {p p' : Plan} {before after : Plan → Plan}
    (h : Opens self σ s σ₁ s₁ before after) (hp : Plan.Enters self σ₁ s₁ p p' s₂) :
    Plan.Enters self σ s (before p) (after p') s₂ :=
  ⟨h.runs hp.runs, fun hself => (h.entered hself).trans ((hp.entered hself).congr h.shared)⟩

theorem Opens.trans {before after before' after' : Plan → Plan}
    (h : Opens self σ s σ₁ s₁ before after) (h' : Opens self σ₁ s₁ σ₂ s₂ before' after') :
    Opens self σ s σ₂ s₂ (before ∘ before') (after ∘ after') :=
  ⟨h'.levels.trans h.levels, h'.shared.trans h.shared, fun hp => h.runs (h'.runs hp),
    fun hself => (h.entered hself).trans ((h'.entered hself).congr h.shared)⟩

theorem Opens.after {p p' : Plan} {before after : Plan → Plan}
    (hp : Plan.Closes self σ s p p' s₁) (h : Opens self σ s₁ σ₁ s₂ before after) :
    Opens self σ s σ₁ s₂ (fun q => p.append (before q)) fun q => p'.append (after q) :=
  ⟨h.levels, h.shared, fun hq => hp.runs.append (h.runs hq),
    fun hself => (hp.enters.entered hself).trans (h.entered hself)⟩

theorem yields_inScope {x : Traversal A} {P : A → Store → Prop} (hx : Yields x s P)
    (hQ : ∀ a s', P a s' → Q a (σ.onShared (Shared.release (σ.mark s)) s')) :
    Yields (inScope σ x) s Q := by
  rintro a s' ⟨done, done', r, r', rfl, rfl, h⟩
  rw [inScope] at h
  cases hr : x done r with
  | ok p r₁ =>
    rw [hr] at h
    cases h
    exact hQ a _ (hx a _ ⟨done, done', r, r₁, rfl, rfl, hr⟩)
  | error e r₁ =>
    rw [hr] at h
    cases h

theorem leaves {x : Traversal A} (hx : Yields x s Q)
    (hQ : ∀ f a s', Q a s' → Q a (σ.onShared f s')) : Yields (inScope σ x) s Q :=
  yields_inScope hx (hQ _)

/-- Leaving the scope puts the mapping back. -/
theorem closes_scope {x : Traversal A} {p : Plan} {plan : A → Plan} {R : A → Prop}
    (hmark : σ.mark s₁ = σ.mark s)
    (hx : Yields x s₁ fun a s' => Plan.Enters self σ s p (plan a) s' ∧ R a) :
    Yields (inScope σ x) s₁ fun a s' => Plan.Closes self σ s p (plan a) s' ∧ R a :=
  yields_inScope hx fun _ _ h => ⟨hmark ▸ h.1.closes, h.2⟩

theorem enters (x : Var) (ref : Term) : Yields (enter σ x ref) s fun σ' s' =>
    σ' = σ.bind x ref ∧ Quiet σ s s' ∧ σ.Entered s s' :=
  .seq (Yields.modify (.pure ⟨rfl, .onShared σ _ s, .bind σ _ ref s⟩))

variable (self) in
/-- Copies a binder and goes on in its scope. -/
theorem opens_binder {x : Var} {kind : VarKind} {f : Var → Substitution → Traversal A}
    (name : String) (hkind : kind = .param ∨ kind = .given)
    (hf : ∀ y σ₁ s₁, Opens self σ s σ₁ s₁ (fun p => .under x p .done) (fun p => .under y p .done) →
      Yields (f y σ₁) s₁ Q) :
    Yields (do
      let y ← Core.freshVar kind name
      let ref ← Core.build (.ref y)
      let σ ← enter σ x ref
      f y σ : Traversal A) s Q := by
  refine .seq (Yields.freshVar (.seq (Yields.build ?_).lift)).lift
  refine Yields.bind (enters x _).lift ?_
  rintro _ s₁ ⟨rfl, hquiet, hentered⟩
  refine hf _ _ _ ⟨rfl, rfl, fun hp => ?_, fun _ => hentered.of_eq rfl⟩
  have hnext : s.next + 1 + 1 ≤ s₁.next := hquiet.next
  exact .under ((Quiet.tick σ s 2).trans hquiet) le_rfl (by simp only; omega) hkind rfl
    hp .done

/-! ## The parts -/

theorem runs_terms (ts : List Term) : Yields (ts.mapM (self σ)) s fun ts' s' =>
    Plan.Closes self σ s (.terms ts) (.terms ts') s' ∧ eraseTerms ts' = eraseTerms ts := by
  induction ts generalizing s with
  | nil => exact .pure ⟨.done, rfl⟩
  | cons t ts ih =>
    rw [List.mapM_cons]
    refine .seq fun t' s₁ ht => ?_
    refine Yields.bind ih ?_
    rintro ts' s₂ ⟨hts, herase⟩
    exact .pure ⟨.term ht hts, by simpa [eraseTerms] using herase⟩

theorem runs_optional (o : Option Term) : Yields (o.mapM (self σ)) s fun o' s' =>
    Plan.Closes self σ s (.terms o.toList) (.terms o'.toList) s' ∧
      o'.map (fun _ => ()) = o.map fun _ => () := by
  cases o with
  | none => exact .pure ⟨.done, rfl⟩
  | some t =>
    refine Yields.map ?_
    exact fun t' s' ht => ⟨.single ht, rfl⟩

theorem opens_params (ps : Telescope Term) : Yields (params self σ ps) s fun r s₁ =>
    r.1.map Param.erase = ps.map Param.erase ∧
      Opens self σ s r.2 s₁ (Telescope.plan ps) (Telescope.plan r.1) := by
  induction ps generalizing s σ with
  | nil => exact .pure ⟨rfl, .refl⟩
  | cons p ps ih =>
    rw [params]
    refine Yields.bind (runs_optional p.type) ?_
    rintro type s₁ ⟨htype, herase⟩
    refine opens_binder self _ (.inl rfl) fun y σ₁ s₂ hbinder => ?_
    refine Yields.bind ih ?_
    rintro ⟨ps', σ₂⟩ s₃ ⟨herase', hparams⟩
    refine .pure ⟨?_, .after htype (hbinder.trans hparams)⟩
    simp only [List.map_cons, Param.erase, herase, herase']

mutual

theorem opens_pattern : ∀ {σ : Substitution} {s : Store} (p : Pattern Term),
    Yields (pattern self σ p) s fun r s₁ => r.1.erase = p.erase ∧
      Opens self σ s r.2 s₁ (Pattern.plan p.bindings) (Pattern.plan r.1.bindings)
  | σ, s, .bind x type => by
    rw [pattern]
    refine .seq fun type' s₁ htype => ?_
    refine opens_binder self _ (.inl rfl) fun y σ₁ s₂ hbinder => ?_
    exact .pure ⟨rfl, .after (.single htype) hbinder⟩
  | _, _, .wild => .pure ⟨rfl, .refl⟩
  | _, _, .absurd => .pure ⟨rfl, .refl⟩
  | _, _, .con c args => by
    refine Yields.bind (opens_patterns args) ?_
    rintro r s₁ ⟨herase, hopens⟩
    exact .pure ⟨by simp only [Pattern.erase, herase], hopens⟩
  | _, _, .tuple args => by
    refine Yields.bind (opens_patterns args) ?_
    rintro r s₁ ⟨herase, hopens⟩
    exact .pure ⟨by simp only [Pattern.erase, herase], hopens⟩
  | _, _, .record fields args => by
    refine Yields.bind (opens_patterns args) ?_
    rintro r s₁ ⟨herase, hopens⟩
    exact .pure ⟨by simp only [Pattern.erase, herase], hopens⟩

theorem opens_patterns : ∀ {σ : Substitution} {s : Store} (ps : List (Pattern Term)),
    Yields (patterns self σ ps) s fun r s₁ => Pattern.eraseAll r.1 = Pattern.eraseAll ps ∧
      Opens self σ s r.2 s₁ (Pattern.plan (Pattern.bindingsOf ps))
        (Pattern.plan (Pattern.bindingsOf r.1))
  | _, _, [] => .pure ⟨rfl, .refl⟩
  | _, _, p :: ps => by
    rw [patterns]
    refine Yields.bind (opens_pattern p) ?_
    rintro ⟨p', σ₁⟩ s₁ ⟨herase, hp⟩
    refine Yields.bind (opens_patterns ps) ?_
    rintro ⟨ps', σ₂⟩ s₂ ⟨herase', hps⟩
    refine .pure ⟨by simp only [Pattern.eraseAll, herase, herase'], ?_⟩
    have hopens := hp.trans hps
    refine ⟨hopens.levels, hopens.shared, fun hinner => ?_, hopens.entered⟩
    simp only [Pattern.bindingsOf, Pattern.plan_append]
    exact hopens.runs hinner

end

theorem runs_clause (c : Clause Term) : Yields (clause self σ c) s fun c' s' =>
    Plan.Closes self σ s c.plan c'.plan s' ∧ c'.erase = c.erase := by
  refine closes_scope rfl ?_
  refine Yields.bind (opens_patterns c.patterns) ?_
  rintro ⟨ps, σ₁⟩ s₁ ⟨herase, hopens⟩
  refine Yields.bind (runs_optional c.body) ?_
  rintro body s₂ ⟨hbody, herase'⟩
  exact .pure ⟨hopens.enters hbody.enters, by simp only [Clause.erase, herase, herase']⟩

theorem runs_clauses (cs : List (Clause Term)) : Yields (cs.mapM (clause self σ)) s fun cs' s' =>
    Plan.Closes self σ s (.all (cs.map Clause.plan)) (.all (cs'.map Clause.plan)) s' ∧
      cs'.map Clause.erase = cs.map Clause.erase := by
  induction cs generalizing s with
  | nil => exact .pure ⟨.done, rfl⟩
  | cons c cs ih =>
    rw [List.mapM_cons]
    refine Yields.bind (runs_clause c) ?_
    rintro c' s₁ ⟨hc, herase⟩
    refine Yields.bind ih ?_
    rintro cs' s₂ ⟨hcs, herase'⟩
    exact .pure ⟨hc.append hcs, by rw [List.map_cons, List.map_cons, herase, herase']⟩

mutual

theorem runs_tree : ∀ {σ : Substitution} {s : Store} (t : Tree Term),
    Yields (tree self σ t) s fun t' s' => Plan.Closes self σ s t.plan t'.plan s' ∧
      t'.erase = t.erase.atLevels σ.levels
  | σ, s, .leaf ps body => by
    rw [tree]
    refine closes_scope rfl ?_
    refine Yields.bind (opens_params ps) ?_
    rintro ⟨ps', σ₁⟩ s₁ ⟨herase, hopens⟩
    refine .seq fun body' s₂ hbody => ?_
    rw [Tree.plan]
    refine .pure ⟨hopens.enters (Plan.Closes.single hbody).enters, ?_⟩
    simp only [Tree.erase, Tree.mapSorts, herase]
  | σ, s, .branch ps children => by
    rw [tree]
    refine closes_scope rfl ?_
    refine Yields.bind (opens_params ps) ?_
    rintro ⟨ps', σ₁⟩ s₁ ⟨herase, hopens⟩
    refine Yields.bind (runs_branches children) ?_
    rintro children' s₂ ⟨hchildren, herase'⟩
    rw [Tree.plan]
    refine .pure ⟨hopens.enters hchildren.enters, ?_⟩
    have hlevels : σ₁.levels = σ.levels := hopens.levels
    simp only [Tree.erase, Tree.mapSorts, herase, herase', hlevels]

theorem runs_branches : ∀ {σ : Substitution} {s : Store} (children : List (BranchKey × Tree Term)),
    Yields (branches self σ children) s fun children' s' =>
      Plan.Closes self σ s (Tree.planAll children) (Tree.planAll children') s' ∧
      Tree.eraseAll children' = Tree.mapAllSorts (·.subst σ.levels) (Tree.eraseAll children)
  | _, _, [] => .pure ⟨.done, rfl⟩
  | σ, s, (key, t) :: rest => by
    rw [branches]
    refine Yields.bind (runs_tree t) ?_
    rintro t' s₁ ⟨ht, herase⟩
    refine Yields.bind (runs_branches rest) ?_
    rintro rest' s₂ ⟨hrest, herase'⟩
    have hkey : branchKey σ key = key.mapSorts (·.subst σ.levels) := by cases key <;> rfl
    rw [Tree.planAll]
    refine .pure ⟨ht.append hrest, ?_⟩
    simp only [Tree.eraseAll, Tree.mapAllSorts, herase, herase', hkey]

end

/-- A part that a node may have or lack. -/
theorem runs_if_any {B : Type} {plan : A → Plan} {shape : A → B} {change : B → B}
    {f : A → Traversal A}
    (hf : ∀ a s, Yields (f a) s fun a' s' =>
      Plan.Closes self σ s (plan a) (plan a') s' ∧ shape a' = change (shape a))
    (o : Option A) : Yields (o.mapM f) s fun o' s' =>
      Plan.Closes self σ s (.all (o.toList.map plan)) (.all (o'.toList.map plan)) s' ∧
        o'.map shape = (o.map shape).map change := by
  cases o with
  | none => exact .pure ⟨.done, rfl⟩
  | some a =>
    refine Yields.map ((hf a s).mono ?_)
    rintro a' s' ⟨ha, hshape⟩
    exact ⟨ha.append .done, by simp [hshape]⟩

theorem runs_elim (e : Elim Term) : Yields (elim self σ e) s fun e' s' =>
    Plan.Closes self σ s e.plan e'.plan s' ∧ e'.erase = e.erase.atLevels σ.levels := by
  rw [elim]
  refine Yields.bind (runs_clauses e.clauses) ?_
  rintro clauses s₁ ⟨hclauses, herase⟩
  refine Yields.bind (runs_if_any (fun t s => runs_tree t) e.tree) ?_
  rintro tree s₂ ⟨htree, herase'⟩
  refine .seq (Yields.fresh ?_).lift
  refine .pure ⟨(hclauses.append htree).tick, ?_⟩
  simp only [Elim.erase, Elim.mapSorts, herase, herase']

theorem runs_case (c : CaseOf Term) : Yields (caseOf self σ c) s fun c' s' =>
    Plan.Closes self σ s c.plan c'.plan s' ∧
      c'.erase = { c.erase with elim := c.erase.elim.map (Elim.atLevels σ.levels) } := by
  rw [caseOf]
  refine Yields.bind (runs_terms c.args) ?_
  rintro args s₁ ⟨hargs, herase⟩
  refine .seq (Yields.get ?_).lift
  refine Yields.bind (opens_params c.params) ?_
  rintro ⟨ps, σ₁⟩ s₂ ⟨herase₁, hopens⟩
  refine .seq fun result s₃ hresult => ?_
  refine Yields.bind (runs_optional c.levelProof) ?_
  rintro proof s₄ ⟨hproof, herase₂⟩
  have hparams := (hopens.enters (hproof.term hresult).enters).closes
  refine .seq (Yields.modify ?_).lift
  refine Yields.bind (runs_if_any (fun e s => runs_elim e) c.elim) ?_
  rintro elim s₅ ⟨helim, herase₃⟩
  refine .pure ⟨hargs.append (hparams.append helim), ?_⟩
  simp only [CaseOf.erase, herase, herase₁, herase₂, herase₃]

/-- The implementations of fields, each of which is looked up. -/
theorem runs_impls (r : RecordType Term) (fs : List FieldName) :
    Yields (fs.filterMapM fun f => (r.impl? f).mapM fun impl => return (f, ← self σ impl)) s
      fun impls s' => Plan.Closes self σ s
          (.terms ((fs.filterMap fun f => (r.impl? f).map (f, ·)).map Prod.snd))
          (.terms (impls.map Prod.snd)) s' ∧
        impls.map Prod.fst = (fs.filterMap fun f => (r.impl? f).map (f, ·)).map Prod.fst := by
  induction fs generalizing s with
  | nil => exact .pure ⟨.done, rfl⟩
  | cons f fs ih =>
    rw [List.filterMapM_cons]
    cases himpl : r.impl? f with
    | none =>
      have hskip : (f :: fs).filterMap (fun f => (r.impl? f).map (f, ·)) =
          fs.filterMap fun f => (r.impl? f).map (f, ·) := by
        rw [List.filterMap_cons, himpl]
        rfl
      rw [hskip]
      exact .seq (.pure ih)
    | some impl =>
      have htake : (f :: fs).filterMap (fun f => (r.impl? f).map (f, ·)) =
          (f, impl) :: fs.filterMap fun f => (r.impl? f).map (f, ·) := by
        rw [List.filterMap_cons, himpl]
        rfl
      rw [htake]
      refine .seq (Yields.map (.seq fun t s₁ ht => .pure (Yields.bind ih ?_)))
      rintro impls s₂ ⟨himpls, hnames⟩
      exact .pure ⟨.term ht himpls, by rw [List.map_cons, List.map_cons, hnames]⟩

theorem runs_recordType (r : RecordType Term) :
    Yields (recordType sig self σ r) s fun r' s' =>
      Plan.Closes self σ s (r.sorted sig).plan r'.plan s' ∧
      r'.erase = (r.sorted sig).erase.atLevels σ.levels := by
  have herase : ∀ {impls : List (FieldName × Term)} (this : Var),
      impls.map Prod.fst = (r.sorted sig).impls.map Prod.fst →
      RecordType.erase ⟨r.record, r.sortArg.subst σ.levels, impls, r.sort.subst σ.levels,
        r.universes, this⟩ = (r.sorted sig).erase.atLevels σ.levels := by
    intro impls this hnames
    have hunits : impls.map (fun e => (e.1, ())) =
        (r.sorted sig).impls.map fun e => (e.1, ()) := by
      have := congrArg (List.map fun f => (f, ())) hnames
      simpa [Function.comp_def] using this
    simp only [RecordType.erase, RecordType.mapSorts, hunits]
    rfl
  rw [recordType]
  let this : Var := ⟨s.next, .given, "this"⟩
  refine .seq (Yields.lift (.seq (Yields.freshVar (.pure ?_))))
  split
  next hempty =>
    have himpls : (r.sorted sig).impls = [] := by
      simp [RecordType.sorted, RecordType.impl?, List.isEmpty_iff.mp hempty]
    refine .pure ⟨?_, herase this (by rw [himpls])⟩
    rw [RecordType.plan, himpls]
    have href : (Term.mk 0 (.ref this)).node = .ref this := rfl
    refine ⟨?_, fun _ => .of_eq rfl⟩
    exact .under (.tick σ s 1) le_rfl (Nat.lt_succ_self _) (.inr rfl) href .done .done
  next =>
    refine .seq (Yields.build ?_).lift
    refine Yields.bind (P := fun impls s' => Plan.Closes self σ s (r.sorted sig).plan
      (.under this (.terms (impls.map Prod.snd)) .done) s' ∧
      impls.map Prod.fst = (r.sorted sig).impls.map Prod.fst) ?_ ?_
    · refine closes_scope rfl ?_
      refine Yields.bind (enters r.this _).lift ?_
      rintro _ s₂ ⟨rfl, hquiet, hentered⟩
      refine Yields.mono (runs_impls r (sig.implemented r)) ?_
      rintro impls s₃ ⟨himpls, hnames⟩
      have hnext : s.next + 2 ≤ s₂.next := hquiet.next
      refine ⟨⟨.under ((Quiet.tick σ s 2).trans hquiet) le_rfl
        (show s.next < s₂.next by omega) (.inr rfl) rfl himpls.runs .done, fun hself => ?_⟩, hnames⟩
      have hbody : σ.Entered s₂ s₃ := .of_restored (himpls.restored hself)
      exact (hentered.trans hbody).of_eq rfl
    · rintro impls s₂ ⟨hruns, hnames⟩
      exact .pure ⟨hruns, herase this hnames⟩

/-! ## The step -/

/-- The term is made like the node, from copies of its parts. -/
def Rebuilds (sig : Signature) (self : Substitution → Term → Traversal Term) (σ : Substitution)
    (s : Store) (n : Node Term) (t : Term) (s' : Store) : Prop :=
  Plan.Closes self σ s (n.sorted sig).plan t.node.plan s' ∧
    t.node.erase = (n.sorted sig).erase.atLevels σ.levels

theorem Rebuilds.isPlain (h : Rebuilds sig self σ s n t s₁) : t.node.isPlain = n.isPlain := by
  have herase : ∀ n : Node Term, n.erase.isPlain = n.isPlain := fun n => by cases n <;> rfl
  have hlevels : ∀ n : Shape, (n.atLevels σ.levels).isPlain = n.isPlain := fun n => by
    cases n <;> rfl
  have hsorted : (n.sorted sig).isPlain = n.isPlain := by cases n <;> rfl
  rw [← herase, h.2, hlevels, herase, hsorted]

theorem Rebuilds.leading (h : Rebuilds sig self σ s n t s₁) :
    t.node.leading = (n.sorted sig).leading := by
  rw [← Node.leading_erase, h.2, Node.leading_atLevels, Node.leading_erase]

/-- A record type that looks like a copy of a proper one is proper, and its implementations are
in order. -/
theorem proper_of_shape {r r' : RecordType Term} {levels : LevelSubst}
    (h : r.Proper sig) (hshape : r'.erase = (r.sorted sig).erase.atLevels levels) :
    r'.Proper sig ∧ r'.sorted sig = r' := by
  have hrecord : r'.record = r.record :=
    congrArg (fun e : RecordType Unit => e.record) hshape
  have hnames : r'.impls.map Prod.fst = sig.implemented r := by
    have := congrArg (fun e : RecordType Unit => e.impls.map Prod.fst) hshape
    rw [← r.sorted_names sig]
    simpa [RecordType.erase, RecordType.mapSorts, Function.comp_def] using this
  refine ⟨⟨hrecord ▸ h.nodup, fun e he => ?_⟩, RecordType.sorted_of_names h.nodup hrecord hnames⟩
  have hmem : e.1 ∈ sig.implemented r := hnames ▸ List.mem_map_of_mem he
  exact hrecord ▸ List.mem_of_mem_filter hmem

/-- The copy of a node that can be read can be read, and lists implementations in order. -/
theorem Rebuilds.readable (h : Rebuilds sig self σ s n t s₁) (hplain : n.isPlain)
    (hn : n.Readable sig) : t.node.Readable sig ∧ t.node.sorted sig = t.node := by
  have hshape := h.2
  generalize t.node = n' at hshape
  cases n with
  | ref | app | field | proj | letIn | unknown | delayed => cases hplain
  | record r =>
    cases n' with
    | record r' =>
      obtain ⟨hproper, hsorted⟩ := proper_of_shape hn (Node.record.inj hshape)
      exact ⟨hproper, congrArg Node.record hsorted⟩
    | _ => cases hshape
  | new renewed type =>
    cases n' with
    | new renewed' type' =>
      obtain ⟨hproper, hsorted⟩ := proper_of_shape hn
        (congrArg Stamped.val (Node.new.inj hshape).2)
      exact ⟨hproper, by rw [Node.sorted, hsorted]⟩
    | _ => cases hshape
  | _ =>
    cases n' with
    | record | new | ref | unknown | delayed => cases hshape
    | _ => exact ⟨trivial, rfl⟩

theorem rebuilds_build {n' : Node Term} (h : Plan.Closes self σ s₁ (n.sorted sig).plan n'.plan s)
    (hshape : n'.erase = (n.sorted sig).erase.atLevels σ.levels) :
    Yields (Core.build n') s (Rebuilds sig self σ s₁ n) :=
  Yields.build ⟨h.tick, hshape⟩

theorem rebuilds_step {stamp : Nat} (hplain : n.isPlain) :
    Yields (step sig self σ (.mk stamp n)) s (Rebuilds sig self σ s n) := by
  have hsame : n.plan = .done → (n.sorted sig) = n → n.erase.atLevels σ.levels = n.erase →
      Rebuilds sig self σ s n (.mk stamp n) s := by
    intro hplan hsorted hlevels
    refine ⟨?_, ?_⟩
    · rw [Term.node, hsorted, hplan]
      exact .done
    · rw [Term.node, hsorted, hlevels]
  cases n with
  | ref | app | field | proj | letIn | unknown | delayed => cases hplain
  | call f sortArg args =>
    refine Yields.bind (runs_terms args) ?_
    rintro args' s₁ ⟨hargs, herase⟩
    refine Yields.lift (rebuilds_build hargs ?_)
    simp only [Node.sorted, Node.erase, Node.mapSorts, herase]
  | con c =>
    refine Yields.bind (runs_terms c.dataArgs) ?_
    rintro dataArgs s₁ ⟨hdata, herase⟩
    refine Yields.bind (runs_terms c.args) ?_
    rintro args s₂ ⟨hargs, herase'⟩
    refine Yields.lift (rebuilds_build (hdata.append hargs) ?_)
    simp only [Node.sorted, Node.erase, Node.mapSorts, herase, herase']
  | data d =>
    refine Yields.bind (runs_terms d.args) ?_
    rintro args' s₁ ⟨hargs, herase⟩
    refine Yields.lift (rebuilds_build hargs ?_)
    simp only [Node.sorted, Node.erase, Node.mapSorts, herase]
  | record r =>
    refine Yields.bind (runs_recordType r) ?_
    rintro r' s₁ ⟨hruns, herase⟩
    refine Yields.lift (rebuilds_build hruns ?_)
    simp only [Node.sorted, Node.erase, Node.mapSorts, herase]
  | lam sort ps body | pi sort ps body =>
    refine closes_scope rfl ?_
    refine Yields.bind (opens_params ps) ?_
    rintro ⟨ps', σ₁⟩ s₁ ⟨herase, hopens⟩
    refine .seq fun body' s₂ hbody => ?_
    refine Yields.lift (.build ⟨(hopens.enters (Plan.Closes.single hbody).enters).tick, ?_⟩)
    have hlevels : σ₁.levels = σ.levels := hopens.levels
    simp only [Term.node, Node.sorted, Node.erase, Node.mapSorts, herase, hlevels]
  | sigma sigma =>
    refine closes_scope rfl ?_
    refine Yields.bind (opens_params sigma.params) ?_
    rintro ⟨ps', σ₁⟩ s₁ ⟨herase, hopens⟩
    refine Yields.lift (.build ⟨(hopens.enters Plan.Closes.done.enters).tick, ?_⟩)
    have hlevels : σ₁.levels = σ.levels := hopens.levels
    simp only [Term.node, Node.sorted, Node.erase, Node.mapSorts, SigmaType.erase,
      SigmaType.mapSorts, herase, hlevels]
  | tuple fields type =>
    refine Yields.bind (runs_terms fields) ?_
    rintro fields' s₁ ⟨hfields, herase⟩
    refine Yields.bind (P := fun r s' => Plan.Closes self σ s₁
      (Telescope.plan type.val.params .done) (Telescope.plan r.1 .done) s' ∧
      r.1.map Param.erase = type.val.params.map Param.erase) ?_ ?_
    · refine closes_scope rfl ?_
      exact (opens_params type.val.params).mono fun r s' h => ⟨h.2.enters Plan.Closes.done.enters, h.1⟩
    · rintro ⟨ps', σ₁⟩ s₂ ⟨hparams, herase'⟩
      refine .seq (Yields.fresh ?_).lift
      refine Yields.lift (rebuilds_build (hfields.append hparams).tick ?_)
      simp only [Node.sorted, Node.erase, Node.mapSorts, SigmaType.erase, SigmaType.mapSorts,
        herase, herase']
  | univ sort =>
    show Yields (if σ.levels.isEmpty then _ else _) s _
    split
    next hempty =>
      refine .pure (hsame rfl rfl ?_)
      simp only [Node.erase, Node.mapSorts, USort.subst_of_isEmpty hempty]
    next => exact Yields.lift (rebuilds_build .done rfl)
  | new renewed type =>
    refine Yields.bind (runs_recordType type.val) ?_
    rintro r' s₁ ⟨hrecord, herase⟩
    refine Yields.bind (runs_optional renewed) ?_
    rintro renewed' s₂ ⟨hrenewed, herase'⟩
    refine .seq (Yields.fresh ?_).lift
    refine Yields.lift (rebuilds_build (hrecord.append hrenewed).tick ?_)
    simp only [Node.sorted, Node.erase, Node.mapSorts, herase, herase']
  | case c =>
    refine Yields.bind (runs_case c) ?_
    rintro c' s₁ ⟨hruns, herase⟩
    refine Yields.lift (rebuilds_build hruns ?_)
    simp only [Node.sorted, Node.erase, Node.mapSorts, herase]
  | ofType u type =>
    refine .seq fun u' s₁ hu => ?_
    refine .seq fun type' s₂ htype => ?_
    exact Yields.lift (rebuilds_build (.term hu (.single htype)) rfl)
  | int i => exact .pure (hsame rfl rfl rfl)
  | hole goal part =>
    cases part with
    | none => exact .pure (hsame rfl rfl rfl)
    | some u =>
      refine .seq fun u' s₁ hu => ?_
      exact Yields.lift (rebuilds_build (.single hu) rfl)

/-! ## Contractions -/

section Contractions

variable {Q : Term → Store → Prop} {fn arg u : Term}

/-- Applies a term: a function is contracted. -/
theorem yields_app
    (happ : (∀ sort ps body, fn.node ≠ .lam sort ps body) → Yields (Core.build (.app fn arg)) s Q)
    (hbeta : ∀ sort p body, fn.node = .lam sort [p] body →
      Yields (self (.single p.var arg) body) s Q)
    (hrest : ∀ sort p q ps body ps' body' s', fn.node = .lam sort (p :: q :: ps) body →
      ps'.map Param.erase = q.erase :: ps.map Param.erase →
      Plan.Enters self (.single p.var arg) s (Telescope.plan (q :: ps) (.terms [body]))
        (Telescope.plan ps' (.terms [body'])) s' → Yields (Core.build (.lam sort ps' body')) s' Q) :
    Yields (makeAppFrom self fn [arg]) s Q := by
  rw [makeAppFrom]
  split
  next sort ps body hnode =>
    refine Yields.bind ?_ fun t s' h => .pure h
    cases ps with
    | nil => exact .throw
    | cons p ps =>
      cases ps with
      | nil => exact (hbeta sort p body hnode).start
      | cons q ps =>
        refine Yields.start (Yields.bind (opens_params (q :: ps)) ?_)
        rintro ⟨ps', σ₁⟩ s₁ ⟨herase, hopens⟩
        refine .seq fun body' s₂ hbody => Yields.lift ?_
        exact hrest sort p q ps body ps' body' s₂ hnode herase
          (hopens.enters (Plan.Closes.single hbody).enters)
  next hnode => exact (happ hnode).bind fun t s' h => .pure h

/-- Projects a component: that of a tuple is the component itself. -/
theorem yields_proj {index : Int64}
    (hproj : (∀ fields type, u.node = .tuple fields type → fields[index.toNatClampNeg]? = none) →
      Yields (Core.build (.proj u index)) s Q)
    (hcomponent : ∀ fields type v, u.node = .tuple fields type →
      fields[index.toNatClampNeg]? = some v → Q v s) : Yields (makeProj u index) s Q := by
  rw [makeProj]
  split
  next fields type hnode =>
    unfold componentAt
    split
    · exact .seq .throw
    refine .seq (.pure ?_)
    cases hget : fields[index.toNatClampNeg]? with
    | none =>
      refine hproj fun fields' type' hnode' => ?_
      cases hnode.symm.trans hnode'
      exact hget
    | some v => exact .pure (hcomponent fields type v hnode hget)
  next hnode => exact hproj fun fields type h => absurd h (hnode fields type)

/-- Projects a field: that of a record value is the implementation. -/
theorem yields_field {f : FieldName} {sort : USort}
    (hfield : (∀ renewed type, arg.node = .new renewed type → type.val.impl? f = none) →
      Yields (Core.build (.field f sort arg)) s Q)
    (himpl : ∀ renewed type impl, arg.node = .new renewed type → type.val.impl? f = some impl →
      Yields (self (.single type.val.this arg) impl) s Q) :
    Yields (makeFieldFrom self f sort arg) s Q := by
  rw [makeFieldFrom]
  split
  next renewed type hnode =>
    unfold implementationFrom
    cases hget : type.val.impl? f with
    | none =>
      refine .seq (.pure (hfield fun renewed' type' hnode' => ?_))
      cases hnode.symm.trans hnode'
      exact hget
    | some impl =>
      refine .seq (Yields.map (Yields.start ?_))
      exact (himpl renewed type impl hnode hget).mono fun _ _ h => .pure h
  next hnode => exact hfield fun renewed type h => absurd h (hnode renewed type)

end Contractions

end Traversal

end Recheck
