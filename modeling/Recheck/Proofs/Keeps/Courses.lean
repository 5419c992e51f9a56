import Recheck.Proofs.Keeps.Rules

/-!
# Recheck — the course of a check

A check looks at the positions of a term one after the other. What it relies on may change on
the way, and so may what it has to keep. A `Course` says all there is to know about this: the
places on the way, what holds at each of them, which look leads from where to where, and what
a look makes sure of.

For each rule of the checker, a lemma says that it follows every course, and `passes_step` puts
them together. What leads into the store, which are let expressions, unknowns and delayed
substitutions, is left to the courses themselves.
-/

namespace Recheck

/-- Looks at terms, one after the other, lead from the one place to the other. -/
inductive LooksAll {Place : Type} (Looks : Place → Term → Place → Prop) :
    Place → List Term → Place → Prop where
  | nil {P : Place} : LooksAll Looks P [] P
  | cons {P P₁ P' : Place} {t : Term} {ts : List Term} (ht : Looks P t P₁)
      (hts : LooksAll Looks P₁ ts P') : LooksAll Looks P (t :: ts) P'

/-- What a check relies on at the places on its way, and what it makes sure of. -/
structure Course (k : Checker) where
  Place : Type
  /-- The second place comes after the first one. -/
  Before : Place → Place → Prop
  /-- What terms may mention at a place. -/
  region : Place → Region
  holds : Place → SolverState → Prop
  /-- What holds wherever the check breaks off. -/
  broken : SolverState → Prop
  /-- Looking at the term leads from the one place to the other. -/
  Looks : Place → Term → Place → Prop
  /-- The variable counts as one of those in the list. -/
  Inside : List Var → Var → Prop
  /-- What a look at the term makes sure of, if the variables in the list are in scope. -/
  Safe : List Var → Term → Prop
  refl (P : Place) : Before P P
  trans {P P₁ P' : Place} : Before P P₁ → Before P₁ P' → Before P P'
  region_le {P P' : Place} : Before P P' → region P ≤ region P'
  invariant (P : Place) : SolverInvariant k.sig (region P) (holds P)
  sig (P : Place) : k.sig.Within (region P)
  breaks (P : Place) (st : SolverState) : holds P st → broken st
  before {P P' : Place} {t : Term} : Looks P t P' → Before P P'
  within {P P' : Place} {t : Term} : Looks P t P' → t.Within (region P')
  /-- A look at a node is a look at its positions. -/
  node {P P' : Place} {stamp : Nat} {n : Node Term}
    (hn : ∀ strict xs body, n ≠ .letIn strict xs body) : Looks P (.mk stamp n) P' ↔
      (region P).Holds n.hidden ∧ LooksAll Looks P ((n.checked k.sig).map Prod.snd) P'
  inside {vars : List Var} {x : Var} : x ∈ vars → Inside vars x
  inside_mono {vars vars' : List Var} {x : Var} :
    (∀ y ∈ vars, y ∈ vars') → Inside vars x → Inside vars' x
  fresh (P : Place) (vars : List Var) :
    Keeps (holds P) (Core.freshVar .param "_") fun x => (region P).Binds x ∧ Inside vars x
  safe_ref {vars : List Var} {stamp : Nat} {x : Var} :
    Inside vars x → Safe vars (.mk stamp (.ref x))
  safe_node {vars : List Var} {stamp : Nat} {n : Node Term} :
    n.Plain → (∀ p ∈ n.checked k.sig, Safe (p.1 ++ vars) p.2) → Safe vars (.mk stamp n)
  safe_parts {vars : List Var} {stamp : Nat} {n : Node Term} :
    Safe vars (.mk stamp n) → ∀ p ∈ n.checked k.sig, Safe (p.1 ++ vars) p.2

namespace Course

variable {k : Checker} {C : Course k} {P M P' : C.Place} {vars : List Var} {scope : Scope}
  {ts us : List Term} {ps qs : List (Scoped Term)} {ys : List Var}

/-! ## Looks and scopes -/

theorem before_all (h : LooksAll C.Looks P ts P') : C.Before P P' := by
  induction h with
  | nil => exact C.refl _
  | cons ht _ ih => exact C.trans (C.before ht) ih

theorem within_all (h : LooksAll C.Looks P ts P') : ∀ t ∈ ts, t.Within (C.region P') := by
  induction h with
  | nil => simp
  | cons ht hts ih =>
    exact List.forall_mem_cons.mpr ⟨(C.within ht).mono (C.region_le (before_all hts)), ih⟩

theorem split_looks (h : LooksAll C.Looks P (ts ++ us) P') :
    ∃ P₁, LooksAll C.Looks P ts P₁ ∧ LooksAll C.Looks P₁ us P' := by
  induction ts generalizing P with
  | nil => exact ⟨P, .nil, h⟩
  | cons t ts ih =>
    cases h with
    | cons ht hts =>
      obtain ⟨P₁, hts, hus⟩ := ih hts
      exact ⟨P₁, .cons ht hts, hus⟩

/-- What is in scope may be mentioned at the place, and its variables count as those in the
list. -/
def Placed (C : Course k) (P : C.Place) (vars : List Var) (scope : Scope) : Prop :=
  scope.Within (C.region P) ∧ scope.Over (C.Inside vars)

theorem Placed.mono (h : C.Placed P vars scope) (hle : C.Before P P') : C.Placed P' vars scope :=
  ⟨h.1.mono (C.region_le hle), h.2⟩

theorem Placed.over (h : C.Placed P vars scope) (inner : List Var)
    (hle : ∀ x ∈ vars, x ∈ inner) : C.Placed P inner scope :=
  ⟨h.1, fun x hx => C.inside_mono hle (h.2 x hx)⟩

/-- What looks at the terms make sure of, each in its scope. -/
def SafeAll (C : Course k) (vars : List Var) (ps : List (Scoped Term)) : Prop :=
  ∀ p ∈ ps, C.Safe (p.1 ++ vars) p.2

theorem safeAll_nil : C.SafeAll vars [] := by simp [SafeAll]

theorem safeAll_cons {p : Scoped Term} :
    C.SafeAll vars (p :: ps) ↔ C.Safe (p.1 ++ vars) p.2 ∧ C.SafeAll vars ps := by
  simp [SafeAll]

theorem safeAll_append :
    C.SafeAll vars (ps ++ qs) ↔ C.SafeAll vars ps ∧ C.SafeAll vars qs := by
  simp [SafeAll, or_imp, forall_and]

theorem safeAll_map : C.SafeAll vars (ts.map (ys, ·)) ↔ ∀ t ∈ ts, C.Safe (ys ++ vars) t := by
  simp [SafeAll]

theorem safeAll_unscoped : C.SafeAll vars (unscoped ts) ↔ ∀ t ∈ ts, C.Safe vars t := by
  simp [SafeAll, unscoped]

/-! ## Operations -/

/-- If the operation succeeds, it has led from the one place to the other, and the result
satisfies `Q`. -/
def Passes {A : Type} (C : Course k) (P : C.Place) (x : Check A) (P' : C.Place) (Q : A → Prop) :
    Prop :=
  Takes (C.holds P) x (fun a st => C.holds P' st ∧ Q a) C.broken

/-- The operation gives a type, and makes sure of `S` on the way. -/
abbrev Types (C : Course k) (P : C.Place) (x : Check Term) (P' : C.Place) (S : Prop) : Prop :=
  C.Passes P x P' fun type => type.Within (C.region P') ∧ S

namespace Passes

variable {A B : Type} {x : Check A} {Q : A → Prop} {f : A → Check B} {Q' : B → Prop}

theorem of_keeps (h : Keeps (C.holds P) x Q) : C.Passes P x P Q :=
  Takes.mono h (fun _ hs => hs) (fun _ _ hs => hs) (C.breaks P)

protected theorem pure {a : A} {Q : A → Prop} (h : Q a) : C.Passes P (pure a) P Q :=
  .of_keeps (.pure h)

protected theorem bind (hx : C.Passes P x M Q) (hf : ∀ a, Q a → C.Passes M (f a) P' Q') :
    C.Passes P (x >>= f) P' Q' :=
  Takes.bind hx fun a => Takes.and (hf a)

theorem mono {Q' : A → Prop} (hx : C.Passes P x P' Q) (h : ∀ a, Q a → Q' a) :
    C.Passes P x P' Q' :=
  Takes.mono hx (fun _ hs => hs) (fun a _ hs => ⟨hs.1, h a hs.2⟩) fun _ hs => hs

/-- What fails has gone anywhere. -/
theorem refuse {Q : A → Prop} (e : TypeError) : C.Passes P (refuse e : Check A) P' Q :=
  fun _ _ hs => C.breaks P _ hs

theorem refuse_bind {Q : B → Prop} (e : TypeError) (f : A → Check B) :
    C.Passes P (Recheck.refuse e >>= f) P' Q :=
  Passes.bind (M := P) (Q := fun _ => False) (refuse e) fun _ h => h.elim

end Passes

theorem passes_addVar {x : Var} {type : Option Term} (t : Term) (hscope : C.Placed P vars scope)
    (htype : ∀ u, type = some u → u.Within (C.region P)) :
    C.Passes P (k.addVar scope x type t) P (C.Placed P (x :: vars)) := by
  have hscope' := hscope.over (x :: vars) fun y => List.mem_cons_of_mem x
  exact .of_keeps (keeps_addVar_over t hscope' htype (C.inside (.head _)))

theorem passes_traced {A : Type} {text : Check String} {body : Scope → Check A} {Q : A → Prop}
    (hscope : C.Placed P vars scope)
    (htext : Trace.reaches k.traceDepth scope.depth = true →
      Preserves (C.holds P) text)
    (hbody : ∀ scope : Scope, C.Placed P vars scope → C.Passes P (body scope) P' Q) :
    C.Passes P (traced k scope text body) P' Q := by
  rw [traced]
  split
  next hreaches =>
    refine (Passes.of_keeps (htext hreaches)).bind fun _ _ => ?_
    exact Passes.bind (Q := fun _ => True) (.of_keeps (Keeps.modify fun _ _ hs => hs)) fun _ _ =>
      hbody _ hscope
  next => exact hbody _ hscope

/-- What is asked of the recursive call of the checker. -/
structure Checks (C : Course k) (check : Scope → Term → Option Term → Check Term) : Prop where
  respects (P : C.Place) : Typing.Respects (C.region P) (C.holds P) check
  passes {P P' : C.Place} {scope : Scope} {t : Term} {expected : Option Term} {vars : List Var} :
    C.Looks P t P' → C.Placed P vars scope →
      (∀ u, expected = some u → u.Within (C.region P)) →
      C.Types P (check scope t expected) P' (C.Safe vars t)

end Course

section

variable {k : Checker} {C : Course k} {P P' : C.Place} {A B : Type} {Q : A → Prop} {Q' : B → Prop}
  {f : A → Check B} (hf : ∀ a, Q a → C.Passes P (f a) P' Q')

include hf

/-- An operation that does not go on comes first. -/
theorem Keeps.passes {x : Check A} (hx : Keeps (C.holds P) x Q) : C.Passes P (x >>= f) P' Q' :=
  (Course.Passes.of_keeps hx).bind hf

theorem Keeps.passesCore {x : Core A} (hx : Keeps (C.holds P) x Q) :
    C.Passes P (liftM x >>= f) P' Q' :=
  hx.liftCore.passes hf

end

namespace Typing

open Course (before_all within_all split_looks Passes passes_addVar passes_traced safeAll_nil
  safeAll_cons safeAll_append safeAll_map safeAll_unscoped)

variable {k : Checker} {C : Course k} {P P' : C.Place} {vars : List Var} {scope : Scope}
variable {self} (hself : C.Checks self)

/-! ## Building blocks -/

section Blocks

variable {t : Term} {ps : Telescope Term} {outer : List Var} {first : Option Term}
  {σ : Substitution} {columns : List (Column Term)} {ts : List Term}

include hself

theorem passes_infer (hscope : C.Placed P vars scope) (ht : C.Looks P t P') :
    C.Types P (self scope t none) P' (C.Safe vars t) :=
  hself.passes ht hscope (by simp)

theorem passes_against {type : Term} (hscope : C.Placed P vars scope) (ht : C.Looks P t P')
    (htype : type.Within (C.region P)) :
    C.Passes P (self scope t (some type)) P' fun _ => C.Safe vars t :=
  (hself.passes ht hscope (by simpa using htype)).mono fun _ h => h.2

theorem passes_typeIn (sort : USort) (hscope : C.Placed P vars scope) (ht : C.Looks P t P') :
    C.Passes P (typeIn self scope t sort) P' fun _ => C.Safe vars t := by
  refine ((C.invariant P).build (by trivial)).passesCore fun u hu => ?_
  exact (passes_against hself hscope ht hu).bind fun _ h => .pure h

theorem passes_params {u : Term} (hu : u.Within (C.region P))
    (hscope : C.Placed P (outer ++ vars) scope)
    (hhidden : (C.region P).Holds (Telescope.hidden ps))
    (hps : LooksAll C.Looks P ((Telescope.subterms outer ps).map Prod.snd) P') :
    C.Passes P (params k self u scope ps) P' fun scope =>
      C.Placed P' (Telescope.inner outer ps ++ vars) scope ∧
        C.SafeAll vars (Telescope.subterms outer ps) := by
  induction ps generalizing scope outer P with
  | nil =>
    cases hps
    exact .pure ⟨by simpa [Telescope.inner, Telescope.vars] using hscope, safeAll_nil⟩
  | cons p ps ih =>
    simp only [Telescope.hidden, List.cons_append, Region.holds_cons, Region.holds_append,
      Part.within_binder] at hhidden
    obtain ⟨hx, hshared, hrest⟩ := hhidden
    -- the parameter comes into scope with its own type or a later one
    have hbound {P₁ : C.Place} (hle : C.Before P P₁)
        (hhead : ∀ t, Telescope.headType (p :: ps) = some t → t.Within (C.region P₁))
        (hlooks : LooksAll C.Looks P₁ ((Telescope.subterms (p.var :: outer) ps).map Prod.snd) P') :
        C.Passes P₁ (do
          let type ← (Telescope.headTypeM (p :: ps) : Check Term)
          let scope ← k.addVar scope p.var type type
          params k self u scope ps) P' fun scope =>
            C.Placed P' (Telescope.inner outer (p :: ps) ++ vars) scope ∧
              C.SafeAll vars (Telescope.subterms (p.var :: outer) ps) := by
      have hregion := C.region_le hle
      have hcolumn : (C.region P₁).Holds (Column.parts ⟨p, Telescope.headType (p :: ps)⟩) :=
        Column.holds_iff.mpr ⟨hx.mono hregion, hhead⟩
      refine (keeps_typeM hcolumn).passesCore fun type htype => ?_
      refine (passes_addVar _ (hscope.mono hle) (by simpa using htype)).bind fun scope hscope => ?_
      refine (ih (hu.mono hregion) hscope (hrest.mono hregion) hlooks).mono fun scope h => ?_
      simpa [Telescope.inner, Telescope.vars] using h
    rw [params]
    split
    next type heq =>
      simp only [Telescope.subterms, heq, Option.toList_some, List.map_cons, List.map_nil,
        List.cons_append, List.nil_append] at hps ⊢
      cases hps with
      | cons ht hps =>
        refine (passes_against hself hscope ht hu).bind fun _ hsafe => ?_
        refine (hbound (C.before ht) (fun t hhead => ?_) hps).mono fun scope h =>
          ⟨h.1, safeAll_cons.mpr ⟨hsafe, h.2⟩⟩
        have htype : type = t := by simpa [Telescope.headType, heq] using hhead
        exact htype ▸ C.within ht
    next hnone =>
      have hown : p.type = none := Option.eq_none_iff_forall_ne_some.mpr hnone
      simp only [Telescope.subterms, hown, Option.toList_none, List.map_nil, List.nil_append]
        at hps ⊢
      refine hbound (C.refl P) (fun t hhead => ?_) hps
      have hlater : Telescope.headType ps = some t := by
        simpa [Telescope.headType, hown] using hhead
      simpa [hown, hlater] using hshared

omit hself in
/-- A telescope that has been looked at may be mentioned. -/
theorem holds_params (hhidden : (C.region P).Holds ps.hidden)
    (hps : LooksAll C.Looks P ((ps.subterms outer).map Prod.snd) P') :
    (C.region P').Holds ps.parts :=
  (Telescope.forall_parts_iff outer).mpr ⟨hhidden.mono (C.region_le (before_all hps)), fun p hp =>
    within_all hps p.2 (List.mem_map_of_mem hp)⟩

theorem passes_paramsIn (sort : USort) (hscope : C.Placed P vars scope)
    (hhidden : (C.region P).Holds ps.hidden)
    (hps : LooksAll C.Looks P ((ps.subterms []).map Prod.snd) P') :
    C.Passes P (paramsIn k self scope ps sort) P' fun scope =>
      C.Placed P' (ps.inner [] ++ vars) scope ∧
        C.SafeAll vars (ps.subterms []) :=
  ((C.invariant P).build (by trivial)).passesCore fun _ hu =>
    passes_params hself hu hscope hhidden hps

theorem passes_argsFrom (fuel : Nat) (hscope : C.Placed P vars scope)
    (hfirst : ∀ t, first = some t → t.Within (C.region P))
    (hσ : (C.region P).Holds σ.exprs.parts)
    (hcolumns : (C.region P).Holds (columns.flatMap Column.parts))
    (hlength : ts.length = columns.length) (hts : LooksAll C.Looks P ts P') :
    C.Passes P (argsFrom k fuel self scope first σ columns ts) P' fun σ =>
      (C.region P').Holds σ.exprs.parts ∧ ∀ t ∈ ts, C.Safe vars t := by
  induction columns generalizing first σ ts P with
  | nil =>
    obtain rfl := List.eq_nil_of_length_eq_zero hlength
    cases hts
    exact .pure ⟨hσ, by simp⟩
  | cons c cs ih =>
    cases hts with
    | nil => cases hlength
    | @cons _ P₁ _ t ts ht hts =>
      rw [List.flatMap_cons, Region.holds_append] at hcolumns
      have hregion := C.region_le (C.before ht)
      have hvar : (C.region P₁).Binds c.var := (Column.holds_iff.mp hcolumns.1).1.mono hregion
      have hrest (type : Term) (htype : type.Within (C.region P)) : C.Passes P (do
          let _ ← self scope t (some type)
          argsFrom k fuel self scope none (σ.bind c.var t) cs ts) P' fun σ =>
            (C.region P').Holds σ.exprs.parts ∧ ∀ u ∈ t :: ts, C.Safe vars u := by
        refine (passes_against hself hscope ht htype).bind fun _ hsafe => ?_
        refine (ih (hscope.mono (C.before ht)) (by simp)
          (Mapping.holds_insert_var (hσ.mono hregion) hvar (C.within ht))
          (hcolumns.2.mono hregion) (Nat.succ.inj hlength) hts).mono fun σ h => ⟨h.1, ?_⟩
        exact List.forall_mem_cons.mpr ⟨hsafe, h.2⟩
      unfold argsFrom
      split
      next type => exact Passes.bind (.pure (hfirst type rfl)) hrest
      next =>
        refine (keeps_typeM hcolumns.1).passesCore fun type htype => ?_
        exact ((C.invariant P).subst fuel htype hσ).passesCore hrest

theorem passes_callArgs (fuel : Nat) (t : Term) (hscope : C.Placed P vars scope)
    (hfirst : ∀ t, first = some t → t.Within (C.region P))
    (hσ : (C.region P).Holds σ.exprs.parts)
    (hcolumns : (C.region P).Holds (columns.flatMap Column.parts))
    (hts : LooksAll C.Looks P ts P') :
    C.Passes P (callArgs k fuel self scope t first σ columns ts) P' fun σ =>
      (C.region P').Holds σ.exprs.parts ∧ C.SafeAll vars (unscoped ts) := by
  rw [callArgs]
  split
  · exact .refuse_bind _ _
  next hlength =>
    refine (passes_argsFrom hself fuel hscope hfirst hσ hcolumns
      (Decidable.of_not_not hlength) hts).mono fun σ h => ⟨h.1, ?_⟩
    exact safeAll_unscoped.mpr h.2

omit hself in
/-- The result of a rule is compared with the expected type. -/
theorem passes_conclude {expected : Option Term} {S : Prop} {P₁ : C.Place} {x : Check Term}
    (fuel : Nat) (t : Term) (hle : C.Before P P')
    (hexpected : ∀ u, expected = some u → u.Within (C.region P))
    (hx : C.Types P₁ x P' S) :
    C.Types P₁ (x >>= conclude k fuel t expected) P' S := by
  refine hx.bind fun actual h => ?_
  refine (Passes.of_keeps (keeps_conclude (C.invariant P') (C.sig P') fuel t (fun u hu => ?_)
    h.1)).mono fun _ htype => ⟨htype, h.2⟩
  exact (hexpected u hu).mono (C.region_le hle)

end Blocks

/-! ## The rules -/

section Rules

variable {x : Var} {u t resultType : Term} {ps : Telescope Term} {stamp : Nat}
  {expected : Option Term} (hscope : C.Placed P vars scope)

include hscope

omit hscope in
theorem map_snd_unscoped (ts : List Term) : (unscoped ts).map Prod.snd = ts := by
  rw [unscoped, List.map_map]
  exact List.map_id ts

theorem passes_variableType (t : Term) (hx : (C.region P).Holds (Node.ref x).parts) :
    C.Types P (variableType k scope t x) P (C.Inside vars x) := by
  have hkeeps : Keeps (C.holds P) (variableType k scope t x) (Term.Within (C.region P)) := by
    refine keeps_variableType (C.invariant P) t hscope.1 fun hkind => ?_
    simpa [hkind] using hx
  rw [variableType] at hkeeps ⊢
  split
  · exact .refuse_bind _ _
  next hcontains =>
    rw [if_neg hcontains] at hkeeps
    have hmem : x ∈ scope.context.vars := by simpa [Context.contains] using hcontains
    exact (Passes.of_keeps hkeeps).mono fun _ htype => ⟨htype, hscope.2 x hmem⟩

include hself

variable (fuel : Nat)

theorem passes_application {fn arg : Term} (hparts : LooksAll C.Looks P [fn, arg] P') :
    C.Types P (application k fuel self scope fn arg) P' (C.SafeAll vars (unscoped [fn, arg])) := by
  cases hparts with
  | @cons _ P₁ _ _ _ hfn hparts =>
  cases hparts with
  | cons harg hparts =>
  cases hparts
  refine (passes_infer hself hscope hfn).bind fun type htype => ?_
  refine ((C.invariant P₁).whnf (C.sig P₁) fuel htype.1).passesCore fun whnf hwhnf => ?_
  split
  next sort ps codomain heq =>
    have h := hwhnf.node heq
    have hregion := C.region_le (C.before harg)
    refine (Conversion.keeps_headTypeM h.1).passesCore fun domain hdomain => ?_
    refine (passes_against hself (hscope.mono (C.before hfn)) harg hdomain).bind
      fun _ hsafe => ?_
    refine (Passes.of_keeps ((C.invariant P').instantiatePi fuel sort (h.1.mono hregion)
      (h.2.mono hregion) (by simpa using C.within harg)).liftCore).mono
      fun _ htype' => ⟨htype', ?_⟩
    simpa [safeAll_unscoped] using ⟨htype.2, hsafe⟩
  next => exact .refuse _

theorem passes_call {args : List Term} (t : Term) (f : FuncName) (sortArg : USort)
    (hargs : LooksAll C.Looks P args P') :
    C.Types P (call k fuel self scope t f sortArg args) P' (C.SafeAll vars (unscoped args)) := by
  refine (keeps_propEqualityDomain (C.invariant P) f sortArg).passes fun first hfirst => ?_
  refine (passes_callArgs hself fuel t hscope hfirst
    (Substitution.holds_of Mapping.holds_empty)
    (Telescope.holds_columns ((C.sig P).params f)) hargs).bind fun σ hσ => ?_
  exact (Passes.of_keeps ((C.invariant P').subst fuel ((C.sig P').result f) hσ.1).liftCore).mono
    fun _ htype => ⟨htype, hσ.2⟩

theorem passes_constructor {c : ConApp Term} (t : Term)
    (hparts : LooksAll C.Looks P (c.dataArgs ++ c.args) P') :
    C.Types P (constructor k fuel self scope t c) P'
      (C.SafeAll vars (unscoped c.dataArgs ++ unscoped c.args)) := by
  obtain ⟨P₁, hdataArgs, hargs⟩ := split_looks hparts
  refine (passes_callArgs hself fuel t hscope (by simp)
    (Substitution.holds_of Mapping.holds_empty) ((C.sig P).dataColumns c.con) hdataArgs).bind
    fun σ hσ => ?_
  refine (passes_callArgs hself fuel t (hscope.mono (before_all hdataArgs)) (by simp) hσ.1
    (Telescope.holds_columns ((C.sig P₁).con c.con)) hargs).bind fun _ hsafe => ?_
  have hwithin : ∀ u ∈ c.dataArgs, u.Within (C.region P') := fun u hu =>
    (within_all hdataArgs u hu).mono (C.region_le (before_all hargs))
  refine ((C.invariant P').dataType (C.sig P') fuel hwithin).passesCore fun d hd => ?_
  refine (Passes.of_keeps ((C.invariant P').build (n := .data d) ?_).liftCore).mono
    fun _ htype => ⟨htype, safeAll_append.mpr ⟨hσ.2, hsafe.2⟩⟩
  exact hd

theorem passes_dataType {d : DataType Term} (t : Term) (hargs : LooksAll C.Looks P d.args P') :
    C.Types P (dataType k fuel self scope t d) P' (C.SafeAll vars (unscoped d.args)) := by
  refine (passes_callArgs hself fuel t hscope (by simp)
    (Substitution.holds_of Mapping.holds_empty)
    (Telescope.holds_columns ((C.sig P).data d.data)) hargs).bind fun σ hσ => ?_
  exact (Passes.of_keeps ((C.invariant P').build (by trivial)).liftCore).mono
    fun _ htype => ⟨htype, hσ.2⟩

/-- What follows on the first recursive call is the rule for a call that has returned. -/
theorem passes_projection (t : Term) (index : Int64) (hu : C.Looks P u P') :
    C.Types P (projection k fuel self scope t u index) P' (C.Safe vars u) := by
  refine (passes_infer hself hscope hu).bind fun type htype => ?_
  have hreturned : Respects (C.region P') (C.holds P') fun _ _ _ => pure type :=
    fun _ _ _ _ _ _ => .pure htype.1
  have hrest := keeps_projection (C.invariant P') (C.sig P') hreturned fuel t index
    (hscope.mono (C.before hu)).1 (C.within hu)
  exact (Passes.of_keeps hrest).mono fun _ h => ⟨h, htype.2⟩

theorem passes_levelProof {proof type : Term} (hproof : C.Looks P proof P')
    (htype : type.Within (C.region P)) :
    C.Passes P (levelProof k fuel self scope proof type) P' fun _ => C.Safe vars proof := by
  refine (passes_infer hself hscope hproof).bind fun proofType hproofType => ?_
  have hreturned : Respects (C.region P') (C.holds P') fun _ _ _ => pure proofType :=
    fun _ _ _ _ _ _ => .pure hproofType.1
  have hrest := keeps_levelProof (C.invariant P') (C.sig P') hreturned fuel
    (hscope.mono (C.before hproof)).1 (C.within hproof)
    (htype.mono (C.region_le (C.before hproof)))
  exact (Passes.of_keeps hrest).mono fun _ _ => hproofType.2

omit hself hscope in
/-- A position for each element of a list, or none; the loop looks at them in order. -/
theorem passes_forIn {A : Type} {as : List A} {g : A → Option (Scoped Term)}
    {f : A → PUnit → Check (ForInStep PUnit)}
    (hnone : ∀ a, g a = none → f a ⟨⟩ = pure (.yield ⟨⟩))
    (hsome : ∀ a p {P₁ P₂ : C.Place}, C.Before P P₁ → g a = some p → C.Looks P₁ p.2 P₂ →
      C.Passes P₁ (f a ⟨⟩) P₂ fun r => r = .yield ⟨⟩ ∧ C.Safe (p.1 ++ vars) p.2)
    (has : LooksAll C.Looks P ((as.filterMap g).map Prod.snd) P') :
    C.Passes P (forIn as ⟨⟩ f) P' fun _ => C.SafeAll vars (as.filterMap g) := by
  induction as generalizing P with
  | nil =>
    cases has
    exact .pure safeAll_nil
  | cons a as ih =>
    rw [List.forIn_cons]
    cases ha : g a with
    | none =>
      rw [List.filterMap_cons_none ha] at has ⊢
      rw [hnone a ha]
      exact Passes.bind (Q := fun r => r = .yield ⟨⟩) (.pure rfl) fun r hr => by
        subst hr
        exact ih hsome has
    | some p =>
      rw [List.filterMap_cons_some ha, List.map_cons] at has
      rw [List.filterMap_cons_some ha]
      cases has with
      | cons ht has =>
        refine (hsome a p (C.refl P) ha ht).bind fun r hr => ?_
        obtain ⟨rfl, hsafe⟩ := hr
        refine (ih (fun b q _ _ hle => hsome b q (C.trans (C.before ht) hle)) has).mono
          fun _ h => safeAll_cons.mpr ⟨hsafe, h⟩

theorem passes_recordType {r : RecordType Term} (ht : t.Within (C.region P))
    (hr : (C.region P).Holds r.parts)
    (hparts : LooksAll C.Looks P ((r.checked k.sig).map Prod.snd) P') :
    C.Types P (recordType k fuel self scope t r) P' (C.SafeAll vars (r.checked k.sig)) := by
  have hlast := before_all hparts
  have hthis : (C.region P).Binds r.this := by simp at hr; exact hr.1
  refine (passes_addVar t hscope (by simpa using ht)).bind fun scope hscope => ?_
  have hsort : Keeps (C.holds P') (liftM (Core.build (.univ r.sort)) : Check Term)
      (Term.Within (C.region P')) := ((C.invariant P').build (by trivial)).liftCore
  dsimp only
  split
  · exact .refuse_bind _ _
  refine ((C.invariant P).buildRef hthis).passesCore fun this hthis => ?_
  refine Passes.bind (Q := fun _ => C.SafeAll vars (r.checked k.sig))
    (passes_forIn (g := fun f => (r.impl? f).map ([r.this], ·)) ?_ ?_ hparts) fun _ hsafe => ?_
  · intro f hf
    rw [Option.map_eq_none_iff] at hf
    rw [hf]
  · intro f p P₁ P₂ hle hf hlook
    obtain ⟨impl, himpl, rfl⟩ := Option.map_eq_some_iff.mp hf
    rw [himpl]
    refine ((C.invariant P₁).fieldTypeAt (C.sig P₁) fuel f _
      (hthis.mono (C.region_le hle))).passesCore fun type htype => ?_
    refine (passes_against hself (hscope.mono hle) hlook htype).bind fun _ h => ?_
    exact .pure ⟨rfl, h⟩
  -- no position is looked at any more
  refine (Passes.of_keeps (Q := Term.Within (C.region P')) ?_).mono fun _ h => ⟨h, hsafe⟩
  refine Keeps.ite ?_ ?_
  · refine Keeps.bind (P := fun _ => True) (Keeps.forIn (fun f _ _ _ => ?_) trivial) fun _ _ => ?_
    · refine (keeps_openField (C.invariant P') (C.sig P') (hself.respects P') fuel t r _ f
        (hscope.mono hlast).1 (hthis.mono (C.region_le hlast))).bind fun _ _ => ?_
      exact .pure trivial
    refine Keeps.ite ?_ hsort
    split
    · exact keeps_refuse_bind _ _
    · exact hsort
  · refine Keeps.ite ?_ hsort
    split
    · exact keeps_refuse_bind _ _
    · exact hsort

theorem passes_recordValue {renewed : Option Term} {type : Stamped (RecordType Term)} (t : Term)
    (hhidden : (C.region P).Holds type.val.parts)
    (hparts : LooksAll C.Looks P
      ((type.val.checked k.sig ++ unscoped renewed.toList).map Prod.snd) P') :
    C.Passes P (recordValue k self scope t renewed type) P' fun actual =>
      actual.Within (C.region P') ∧
        C.SafeAll vars (type.val.checked k.sig ++ unscoped renewed.toList) := by
  rw [List.map_append, map_snd_unscoped] at hparts
  obtain ⟨P₁, himpls, hrenewed⟩ := split_looks hparts
  have htype : C.Looks P type.record P₁ := (C.node (by simp)).mpr ⟨hhidden, himpls⟩
  have hwithin : type.record.Within (C.region P') :=
    (C.within htype).mono (C.region_le (before_all hrenewed))
  refine (passes_infer hself hscope htype).bind fun _ hrecord => ?_
  have hsafe : C.SafeAll vars (type.val.checked k.sig) := C.safe_parts hrecord.2
  dsimp only
  split
  · exact .refuse_bind _ _
  cases renewed with
  | some u =>
    cases hrenewed with
    | cons hu hrenewed =>
    cases hrenewed
    have hI := C.invariant P₁
    refine (hI.newRecordType _ _ _ _).passesCore fun bare hbare => ?_
    refine (hI.build (n := .record bare) ?_).passesCore fun bare hbare => ?_
    · simpa [hbare.1] using hbare.2
    refine (passes_against hself (hscope.mono (before_all himpls)) hu hbare).bind
      fun _ hu => .pure ?_
    refine ⟨hwithin, safeAll_append.mpr ⟨hsafe, safeAll_unscoped.mpr ?_⟩⟩
    simpa using hu
  | none =>
    cases hrenewed
    exact .pure ⟨hwithin, safeAll_append.mpr ⟨hsafe, safeAll_nil⟩⟩

/-! ## Pattern matches -/

theorem passes_clause {c : Clause Term} (hps : (C.region P).Holds ps.parts)
    (hresult : resultType.Within (C.region P))
    (hhidden : (C.region P).Holds (Pattern.partsOf c.patterns))
    (hparts : LooksAll C.Looks P (c.checked.map Prod.snd) P') :
    C.Passes P (clause k fuel self scope ps resultType c) P' fun _ => C.SafeAll vars c.checked := by
  refine passes_traced hscope (fun _ => .pure trivial) fun scope hscope => ?_
  have hI := C.invariant P
  have hinner := hscope.over (Pattern.inner [] (Pattern.bindingsOf c.patterns) ++ vars)
    fun x hx => List.mem_append_right _ hx
  refine (keeps_patterns hI (C.sig P) (C.fresh P _) fuel hinner
    Substitution.holds_identity (Telescope.holds_columns hps) hhidden
    fun b hb => C.inside ?_).passes fun r hr => ?_
  · refine List.mem_append_left _ ?_
    rw [Pattern.inner, List.append_nil, List.mem_reverse]
    exact List.mem_map_of_mem hb
  rw [Clause.checked] at hparts ⊢
  dsimp only
  split
  next hbody =>
    rw [hbody] at hparts ⊢
    cases hparts
    split
    · exact .refuse _
    · exact .pure safeAll_nil
  next body hbody =>
    rw [hbody] at hparts ⊢
    cases hparts with
    | cons ht hparts =>
    cases hparts
    refine (hI.subst fuel hresult hr.2.1).passesCore fun type htype => ?_
    refine (passes_against hself hr.2.2 ht htype).bind fun _ hsafe => .pure ?_
    exact safeAll_cons.mpr ⟨hsafe, safeAll_nil⟩

set_option linter.unusedSectionVars false in
omit hscope in
mutual

theorem passes_tree {P P' : C.Place} {scope : Scope} {m : Mapping Term} {resultType : Term}
    {columns : List (Column Term)} (outer : List Var) (fuel : Nat)
    (hscope : C.Placed P (outer ++ vars) scope) (hm : (C.region P).Holds m.parts)
    (hresult : resultType.Within (C.region P))
    (hcolumns : (C.region P).Holds (columns.flatMap Column.parts)) :
    ∀ t : Tree Term, (C.region P).Holds t.hidden →
      LooksAll C.Looks P ((t.checked outer).map Prod.snd) P' →
      C.Passes P (tree k fuel self scope m resultType columns t) P' fun _ =>
        C.SafeAll vars (t.checked outer)
  | .leaf ps body => by
    intro hhidden hparts
    have hI := C.invariant P
    have hinner := hscope.over (Telescope.inner outer ps ++ vars) (by
      simp only [Telescope.inner, List.mem_append]
      exact fun x hx => hx.imp_left .inr)
    rw [tree]
    refine (keeps_nodeParams hI (C.sig P) fuel hinner hm hhidden hcolumns
      fun x hx => C.inside ?_).passes fun r hr => ?_
    · simp [Telescope.inner, hx]
    dsimp only
    split
    · exact .refuse_bind _ _
    · cases hparts with
      | cons ht hparts =>
      cases hparts
      refine (hI.subst fuel hresult
        (Substitution.holds_of hr.2.1)).passesCore fun type htype => ?_
      refine (passes_against hself hr.1 ht htype).bind fun _ hsafe => .pure ?_
      exact safeAll_cons.mpr ⟨hsafe, safeAll_nil⟩
  | .branch ps children => by
    intro hhidden hparts
    rw [Tree.hidden, Region.holds_append] at hhidden
    have hI := C.invariant P
    have hinner := hscope.over (Telescope.inner outer ps ++ vars) (by
      simp only [Telescope.inner, List.mem_append]
      exact fun x hx => hx.imp_left .inr)
    rw [tree]
    refine (keeps_nodeParams hI (C.sig P) fuel hinner hm hhidden.1 hcolumns
      fun x hx => C.inside ?_).passes fun r hr => ?_
    · simp [Telescope.inner, hx]
    dsimp only
    split
    · exact .refuse _
    next c columns heq =>
      have hcs := hr.2.2
      rw [heq, List.flatMap_cons, Region.holds_append] at hcs
      have hvar := (Column.holds_iff.mp hcs.1).1
      refine (keeps_typeM hcs.1).passesCore fun type htype => ?_
      refine (hI.subst fuel htype
        (Substitution.holds_of hr.2.1)).passesCore fun type htype => ?_
      refine (hI.whnf (C.sig P) fuel htype).passesCore fun type htype => ?_
      refine (passes_branches _ fuel hr.1 hr.2.1 hresult htype hvar hcs.2 children hhidden.2
        hparts).bind fun _ hsafe => ?_
      exact (Passes.of_keeps (keeps_branchCoverage (C.invariant P') (C.sig P') fuel _
        (htype.mono (C.region_le (before_all hparts))))).mono fun _ _ => hsafe

theorem passes_branches {P P' : C.Place} {scope : Scope} {m : Mapping Term}
    {resultType type : Term} {x : Var} {columns : List (Column Term)} (outer : List Var)
    (fuel : Nat) (hscope : C.Placed P (outer ++ vars) scope)
    (hm : (C.region P).Holds m.parts) (hresult : resultType.Within (C.region P))
    (htype : type.Within (C.region P)) (hx : (C.region P).Binds x)
    (hcolumns : (C.region P).Holds (columns.flatMap Column.parts)) :
    ∀ children : List (BranchKey × Tree Term), (C.region P).Holds (Tree.hiddenOf children) →
      LooksAll C.Looks P ((Tree.checkedOf outer children).map Prod.snd) P' →
      C.Passes P (branches k fuel self scope m resultType type x columns children) P' fun _ =>
        C.SafeAll vars (Tree.checkedOf outer children)
  | [] => by
    intro _ hparts
    cases hparts
    rw [branches]
    exact .pure safeAll_nil
  | (key, t) :: rest => by
    intro hhidden hparts
    rw [Tree.hiddenOf, Region.holds_append] at hhidden
    rw [Tree.checkedOf, List.map_append] at hparts
    obtain ⟨P₁, ht, hrest⟩ := split_looks hparts
    have hle := before_all ht
    have hregion := C.region_le hle
    rw [branches]
    refine Passes.bind (M := P₁) (Q := fun _ => C.SafeAll vars (t.checked outer))
      (passes_traced hscope (fun _ => .pure trivial) fun scope hscope => ?_) fun _ hsafe => ?_
    · refine (keeps_branchKey (C.invariant P) (C.sig P) fuel key htype).passes fun r hr => ?_
      refine passes_tree outer fuel hscope (Mapping.holds_insert_var hm hx hr.1) hresult ?_ t
        hhidden.1 ht
      rw [List.flatMap_append, Region.holds_append]
      exact ⟨Telescope.holds_columns hr.2, hcolumns⟩
    · refine (passes_branches outer fuel (hscope.mono hle) (hm.mono hregion)
        (hresult.mono hregion) (htype.mono hregion) (hx.mono hregion) (hcolumns.mono hregion) rest
        (hhidden.2.mono hregion) hrest).mono fun _ h => ?_
      rw [Tree.checkedOf]
      exact safeAll_append.mpr ⟨hsafe, h⟩

end

section

variable (fuel : Nat) (hps : (C.region P).Holds (Telescope.parts ps))
  (hresult : resultType.Within (C.region P))

include hps hresult

theorem passes_clauses {cs : List (Clause Term)}
    (hhidden : (C.region P).Holds (cs.flatMap fun c => Pattern.partsOf c.patterns))
    (hparts : LooksAll C.Looks P ((cs.flatMap Clause.checked).map Prod.snd) P') :
    C.Passes P (cs.forM (clause k fuel self scope ps resultType)) P' fun _ =>
      C.SafeAll vars (cs.flatMap Clause.checked) := by
  induction cs generalizing P with
  | nil =>
    cases hparts
    exact .pure safeAll_nil
  | cons c cs ih =>
    rw [List.flatMap_cons, List.map_append] at hparts
    rw [List.flatMap_cons, Region.holds_append] at hhidden
    obtain ⟨P₁, hc, hcs⟩ := split_looks hparts
    have hle := before_all hc
    have hregion := C.region_le hle
    refine (passes_clause hself hscope fuel hps hresult hhidden.1 hc).bind fun _ hsafe => ?_
    refine (ih (hscope.mono hle) (hps.mono hregion) (hresult.mono hregion)
      (hhidden.2.mono hregion) hcs).mono fun _ h => ?_
    exact safeAll_append.mpr ⟨hsafe, h⟩

theorem passes_elim {e : Elim Term} (hhidden : (C.region P).Holds e.hidden)
    (hparts : LooksAll C.Looks P (e.checked.map Prod.snd) P') :
    C.Passes P (elim k fuel self scope ps resultType e) P' fun _ => C.SafeAll vars e.checked := by
  rw [Elim.hidden, Region.holds_append] at hhidden
  rw [Elim.checked, List.map_append] at hparts
  obtain ⟨P₁, hclauses, htree⟩ := split_looks hparts
  have hle := before_all hclauses
  have hregion := C.region_le hle
  rw [elim, Elim.checked]
  refine (passes_clauses hself hscope fuel hps hresult hhidden.1 hclauses).bind fun _ hsafe => ?_
  cases heq : e.tree with
  | none =>
    rw [heq] at htree
    cases htree
    exact .pure (safeAll_append.mpr ⟨hsafe, safeAll_nil⟩)
  | some t =>
    rw [heq] at htree hhidden
    simp only [Option.toList_some, List.flatMap_cons, List.flatMap_nil, List.append_nil]
      at htree hhidden ⊢
    refine (passes_tree hself [] fuel (hscope.mono hle) Mapping.holds_empty
      (hresult.mono hregion) (Telescope.holds_columns (hps.mono hregion)) t
      (hhidden.2.mono hregion) htree).mono fun _ h => ?_
    exact safeAll_append.mpr ⟨hsafe, h⟩

end

theorem passes_caseOf {c : CaseOf Term} (t : Term)
    (hhidden : (C.region P).Holds (Node.case c).hidden)
    (hparts : LooksAll C.Looks P (c.checked.map Prod.snd) P') :
    C.Types P (caseOf k fuel self scope t c) P' (C.SafeAll vars c.checked) := by
  simp only [Node.hidden, Region.holds_append, Region.holds_flatMap, Option.mem_toList] at hhidden
  have horder : c.checked.map Prod.snd = (Telescope.subterms [] c.params).map Prod.snd ++
      (c.args ++ c.resultType :: (c.levelProof.toList ++
        (c.elim.toList.flatMap Elim.checked).map Prod.snd)) := by
    simp [CaseOf.checked, Function.comp_def]
  rw [horder] at hparts
  obtain ⟨P₁, hps, hparts⟩ := split_looks hparts
  obtain ⟨P₂, hargs, hparts⟩ := split_looks hparts
  cases hparts with
  | @cons _ P₃ _ _ _ hresult hparts =>
  obtain ⟨P₄, hproof, helim⟩ := split_looks hparts
  have hparams := holds_params hhidden.1 hps
  refine (passes_paramsIn hself _ hscope hhidden.1 hps).bind fun inner hinner => ?_
  refine (passes_callArgs hself fuel t hinner.1 (by simp) Substitution.holds_identity
    (Telescope.holds_columns hparams) hargs).bind fun σ hσ => ?_
  have hinner₂ := hinner.1.mono (before_all hargs)
  refine (passes_typeIn hself _ hinner₂ hresult).bind fun _ hsafeResult => ?_
  have hle₂ : C.Before P₂ P₄ := C.trans (C.before hresult) (before_all hproof)
  have hle₁ : C.Before P₁ P₄ := C.trans (before_all hargs) hle₂
  have hle : C.Before P P₄ := C.trans (before_all hps) hle₁
  have hend (e : Elim Term) (heq : c.elim = some e)
      (hsafeProof : ∀ u ∈ c.levelProof.toList, C.Safe (Telescope.inner [] c.params ++ vars) u) :
      C.Types P₄ (do
        elim k fuel self scope c.params c.resultType e
        exhaustive k fuel t c.params e
        c.resultType.subst k.sig fuel σ : Check Term) P' (C.SafeAll vars c.checked) := by
    simp only [heq, Option.toList_some, List.flatMap_cons, List.flatMap_nil, List.append_nil]
      at helim
    have hparams₄ := hparams.mono (C.region_le hle₁)
    have hresult₄ := (C.within hresult).mono (C.region_le (before_all hproof))
    have hregion := C.region_le (before_all helim)
    refine (passes_elim hself (hscope.mono hle) fuel hparams₄ hresult₄
      ((hhidden.2 e heq).mono (C.region_le hle)) helim).bind fun _ hsafe => ?_
    refine (keeps_exhaustive (C.invariant P') (C.sig P') fuel _ e
      (hparams₄.mono hregion)).passes fun _ _ => ?_
    have hσ' := (hσ.1.mono (C.region_le hle₂)).mono hregion
    refine (Passes.of_keeps ((C.invariant P').subst fuel (hresult₄.mono hregion)
      hσ').liftCore).mono fun _ htype => ⟨htype, ?_⟩
    rw [CaseOf.checked, heq, safeAll_append, safeAll_append, safeAll_map,
      List.forall_mem_append, List.forall_mem_cons]
    refine ⟨⟨hinner.2, safeAll_unscoped.mp hσ.2, hsafeResult, hsafeProof⟩, ?_⟩
    simpa using hsafe
  cases hlevel : c.levelProof with
  | some proof =>
    rw [hlevel] at hproof
    cases hproof with
    | cons hproof hnil =>
    cases hnil
    refine (passes_levelProof hself (hinner₂.mono (C.before hresult)) fuel hproof
      (C.within hresult)).bind fun _ hsafeProof => ?_
    cases heq : c.elim with
    | none => exact .refuse _
    | some e => exact hend e heq (by simpa [hlevel] using hsafeProof)
  | none =>
    rw [hlevel] at hproof
    cases hproof
    cases heq : c.elim with
    | none => exact .refuse _
    | some e => exact hend e heq (by simp [hlevel])

/-- One rule of the checker; the cases follow the forms of terms. -/
theorem passes_step {n : Node Term} (ht : C.Looks P (.mk stamp n) P')
    (hexpected : ∀ u, expected = some u → u.Within (C.region P)) (hn : n.Plain ∨ ∃ x, n = .ref x) :
    C.Types P (step k fuel self scope (.mk stamp n) expected) P' (C.Safe vars (.mk stamp n)) := by
  have hle := C.before ht
  have hletIn : ∀ strict xs body, n ≠ .letIn strict xs body := by
    rintro strict xs body rfl
    simp [Node.Plain] at hn
  obtain ⟨hhidden, hparts⟩ := (C.node hletIn).mp ht
  -- what is left is to compare the type with the expected one
  have hend {P₁ : C.Place} {x : Check Term} (hplain : n.Plain)
      (hx : C.Types P₁ x P' (C.SafeAll vars (n.checked k.sig))) :
      C.Types P₁ (x >>= conclude k fuel (.mk stamp n) expected) P' (C.Safe vars (.mk stamp n)) := by
    refine (passes_conclude fuel _ hle hexpected hx).mono fun _ h => ⟨h.1, ?_⟩
    exact C.safe_node hplain h.2
  have hbuild {m : Node Term} (hm : m.Within (C.region P'))
      (hsafe : C.SafeAll vars (n.checked k.sig)) :
      C.Types P' (liftM (Core.build m) : Check Term) P' (C.SafeAll vars (n.checked k.sig)) :=
    (Passes.of_keeps ((C.invariant P').build hm).liftCore).mono fun _ h => ⟨h, hsafe⟩
  cases n with
  | letIn | unknown | delayed => simp [Node.Plain] at hn
  | ref x =>
    cases hparts
    refine passes_conclude fuel _ hle hexpected ?_
    exact (passes_variableType hscope _ hhidden).mono fun _ h => ⟨h.1, C.safe_ref h.2⟩
  | app fn arg => exact hend trivial (passes_application hself hscope fuel hparts)
  | call f sortArg args =>
    refine hend trivial (passes_call hself hscope fuel _ f sortArg ?_)
    rwa [← map_snd_unscoped args]
  | con c =>
    refine hend trivial (passes_constructor hself hscope fuel _ ?_)
    rwa [← map_snd_unscoped c.dataArgs, ← map_snd_unscoped c.args, ← List.map_append]
  | data d =>
    refine hend trivial (passes_dataType hself hscope fuel _ ?_)
    rwa [← map_snd_unscoped d.args]
  | field f sortArg arg =>
    cases hparts with
    | cons harg hnil =>
    cases hnil
    refine (passes_against hself hscope harg ((C.sig P).thisType _)).bind fun _ hsafe => ?_
    refine hend trivial ?_
    refine (Passes.of_keeps ((C.invariant P').fieldTypeAt (C.sig P') fuel f sortArg
      (C.within harg)).liftCore).mono fun _ h => ⟨h, ?_⟩
    exact safeAll_cons.mpr ⟨hsafe, safeAll_nil⟩
  | record r =>
    refine hend trivial (passes_recordType hself hscope fuel ?_ hhidden hparts)
    exact Term.within_mk.mpr hhidden
  | lam sort ps body =>
    rw [Node.checked, Node.subterms, List.map_append] at hparts
    · obtain ⟨P₁, hps, hbody⟩ := split_looks hparts
      cases hbody with
      | cons hbody hnil =>
      cases hnil
      refine (passes_paramsIn hself _ hscope hhidden hps).bind fun inner hinner => ?_
      refine (passes_infer hself hinner.1 hbody).bind fun codomain hcod => ?_
      refine hend trivial (hbuild ?_ ?_)
      · have hparams := (holds_params hhidden hps).mono (C.region_le (C.before hbody))
        exact ⟨hparams, hcod.1⟩
      · exact safeAll_append.mpr ⟨hinner.2, safeAll_cons.mpr ⟨hcod.2, safeAll_nil⟩⟩
    all_goals simp
  | pi sort ps codomain =>
    rw [Node.checked, Node.subterms, List.map_append] at hparts
    · obtain ⟨P₁, hps, hcod⟩ := split_looks hparts
      cases hcod with
      | cons hcod hnil =>
      cases hnil
      refine (passes_paramsIn hself _ hscope hhidden hps).bind fun inner hinner => ?_
      refine (passes_typeIn hself _ hinner.1 hcod).bind fun _ hsafe => ?_
      refine hend trivial (hbuild (by trivial) ?_)
      exact safeAll_append.mpr ⟨hinner.2, safeAll_cons.mpr ⟨hsafe, safeAll_nil⟩⟩
    all_goals simp
  | sigma s =>
    refine (passes_paramsIn hself _ hscope hhidden hparts).bind fun _ hinner => ?_
    exact hend trivial (hbuild (by trivial) hinner.2)
  | tuple fields type =>
    rw [Node.checked, List.map_append, map_snd_unscoped] at hparts
    obtain ⟨P₁, hps, hfields⟩ := split_looks hparts
    have htype : C.Looks P type.sigma P₁ := (C.node (by simp)).mpr ⟨hhidden, hps⟩
    refine (passes_infer hself hscope htype).bind fun _ hsigma => ?_
    refine (passes_callArgs hself fuel _ (hscope.mono (before_all hps)) (by simp)
      Substitution.holds_identity (Telescope.holds_columns (holds_params hhidden hps))
      hfields).bind fun _ hsafe => ?_
    refine hend (x := pure type.sigma) trivial (.pure ⟨?_, ?_⟩)
    · exact (C.within htype).mono (C.region_le (before_all hfields))
    · exact safeAll_append.mpr ⟨C.safe_parts hsigma.2, hsafe.2⟩
  | proj u index =>
    cases hparts with
    | cons hu hnil =>
    cases hnil
    refine hend trivial ((passes_projection hself hscope fuel _ index hu).mono
      fun _ h => ⟨h.1, ?_⟩)
    exact safeAll_cons.mpr ⟨h.2, safeAll_nil⟩
  | univ sort =>
    cases hparts
    unfold step
    dsimp only [Term.node]
    split
    · exact .refuse_bind _ _
    · exact hend trivial (hbuild (by trivial) safeAll_nil)
  | new renewed type =>
    exact hend trivial (passes_recordValue hself hscope _ hhidden hparts)
  | case c => exact hend trivial (passes_caseOf hself hscope fuel _ hhidden hparts)
  | ofType u type =>
    cases hparts with
    | cons htype hparts =>
    cases hparts with
    | cons hu hnil =>
    cases hnil
    refine (passes_typeIn hself _ hscope htype).bind fun _ hsafeType => ?_
    refine (passes_against hself (hscope.mono (C.before htype)) hu
      (C.within htype)).bind fun _ hsafe => ?_
    refine hend (x := pure type) trivial (.pure ⟨?_, ?_⟩)
    · exact (C.within htype).mono (C.region_le (C.before hu))
    · exact safeAll_cons.mpr ⟨hsafeType, safeAll_cons.mpr ⟨hsafe, safeAll_nil⟩⟩
  | int m =>
    cases hparts
    exact hend trivial (hbuild (by simp) safeAll_nil)
  | hole goal part =>
    cases hparts
    cases goal with
    | false => exact .refuse _
    | true =>
      cases expected with
      | none => exact .refuse _
      | some type =>
        exact .pure ⟨hexpected type rfl, C.safe_node trivial safeAll_nil⟩

end Rules

end Typing

end Recheck
