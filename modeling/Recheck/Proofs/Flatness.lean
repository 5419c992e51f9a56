import Recheck.Proofs.Deferral.Composition
import Recheck.Proofs.Mappings

/-!
# Recheck — delayed substitutions stay flat

A substitution that comes across a delayed one does not wait on top of it. The two are composed,
and what they come to is carried out on the term beneath. At an unknown the part is kept that
concerns its bounds, if there is any. So a delayed substitution never covers another one, never
replaces what the unknown cannot mention, and never is idle, however often one substitutes.

`Term.Flat` says this of all delayed substitutions in a term. A substitution that replaces
anything copies the whole term, and delays nothing but itself: its result is flat if its values
are, whatever the term was (`Traversal.Flattens`). `Term.substs_flat` is about substitutions one
after the other.
-/

namespace Recheck

/-! ## Flat terms -/

/-- A delayed substitution is in place: beneath it is an unknown at which substitutions are
delayed, it replaces something, and variables in the bounds of the unknown only. -/
def Store.Defers (s : Store) (t : Term) (m : Mapping Term) (levels : LevelSubst) : Prop :=
  ∃ v bounds, t.node = .unknown v ∧ s.known.unknowns v.serial = some (some bounds) ∧
    (m.isEmpty && levels.isEmpty) = false ∧ ∀ e ∈ m.entries, ∃ x ∈ bounds, e.1 = .local x

/-- What terms are flat in view of. -/
structure Outlook where
  /-- The store with shared mappings as they are outside of substitutions. -/
  base : Store
  /-- The let clauses that terms may contain. -/
  lets : Nat → Prop

/-- All delayed substitutions in the term are in place, those in what they replace variables by
included. -/
inductive Term.Flat (F : Outlook) : Term → Prop where
  | mk {stamp : Nat} {n : Node Term} (hsubterms : ∀ p ∈ n.subterms, Flat F p.2)
      (hlets : ∀ strict xs body, n = .letIn strict xs body → ∀ x ∈ xs, F.lets x.serial)
      (hdefers : ∀ u r levels, n = .delayed u r levels →
        ∃ m, F.base.mapping? r = some m ∧ F.base.Defers u m levels)
      (hvalues : ∀ u r levels m, n = .delayed u r levels → F.base.mapping? r = some m →
        ∀ e ∈ m.entries, Flat F e.2) : Flat F (.mk stamp n)

def Mapping.Flat (F : Outlook) (m : Mapping Term) : Prop := ∀ e ∈ m.entries, e.2.Flat F

/-- The let clauses that terms may contain are flat, and new ones are among them. -/
structure Store.Flat (F : Outlook) (s : Store) : Prop where
  unknowns : s.known.unknowns = F.base.known.unknowns
  fresh : ∀ i, s.next ≤ i → F.lets i
  clause : ∀ i c, F.lets i → s.clauses.get? i = some c → ∀ t ∈ c.expr :: c.type.toList, t.Flat F

/-- The substitution replaces something, by flat terms. -/
structure Substitution.Flat (F : Outlook) (σ : Substitution) : Prop where
  active : σ.isIdentity = false
  values : σ.exprs.Flat F

/-- The node itself leads to no let clause and is no delayed substitution. -/
def Node.isSolid {T : Type} : Node T → Bool
  | .letIn .. | .delayed .. => false
  | _ => true

section Flat

variable {F G : Outlook} {s s' : Store} {σ : Substitution} {t u ref : Term}
variable {n : Node Term} {stamp : Nat} {x y : Var} {m : Mapping Term} {v : Variable}

theorem Term.Flat.of_subterms (hn : n.isSolid) (h : ∀ p ∈ n.subterms, p.2.Flat F) :
    (Term.mk stamp n).Flat F := by
  refine ⟨h, ?_, ?_, fun _ _ _ _ hdelayed => ?_⟩
  · rintro _ _ _ rfl
    cases hn
  · rintro _ _ _ rfl
    cases hn
  · rw [hdelayed] at hn
    cases hn

theorem Term.Flat.subterm {p : Scoped Term} (h : t.Flat F) (hp : p ∈ t.node.subterms) :
    p.2.Flat F := by
  cases h with
  | mk hsubterms => exact hsubterms p hp

/-- Another store that decides alike will do. -/
theorem Term.Flat.rebase (h : t.Flat F) (hmapping : ∀ r, s.mapping? r = F.base.mapping? r)
    (hunknowns : s.known.unknowns = F.base.known.unknowns) : t.Flat ⟨s, F.lets⟩ := by
  induction h with
  | mk _ hlets hdefers _ ih ih' =>
    refine ⟨ih, hlets, fun u r levels hn => ?_, fun u r levels m hn hm => ?_⟩
    · obtain ⟨m, hm, hdefers⟩ := hdefers u r levels hn
      refine ⟨m, (hmapping r).trans hm, ?_⟩
      unfold Store.Defers
      rwa [hunknowns]
    · exact ih' u r levels m hn ((hmapping r).symm.trans hm)

theorem Mapping.Flat.insert (h : m.Flat F) (ht : t.Flat F) : (m.insert v t).Flat F := by
  intro e he
  rcases Mapping.mem_place he with rfl | he
  · exact ht
  · exact h e he

namespace Substitution

theorem Flat.bind (h : σ.Flat F) (ht : ref.node = .ref y) : (σ.bind x ref).Flat F := by
  obtain ⟨stamp, n⟩ := ref
  obtain rfl : n = .ref y := ht
  refine ⟨?_, h.values.insert (.of_subterms rfl (by simp))⟩
  rw [isIdentity, bind, Mapping.isEmpty_insert, Bool.false_and]

theorem Flat.single (ht : t.Flat F) : (single x t).Flat F :=
  ⟨rfl, Mapping.Flat.insert (fun e he => by cases he) ht⟩

theorem Flat.get? (h : σ.Flat F) (hu : σ.exprs.get? v = some u) : u.Flat F :=
  h.values (v, u) (mem_of_lookup hu)

/-- What is composed with a substitution that replaces something does so too. -/
theorem Flat.compose {levels : LevelSubst} (h : σ.Flat F) (hm : m.Flat F)
    (hempty : m.isEmpty → σ.exprs.isEmpty) : (of m (levels.compose σ.levels)).Flat F := by
  refine ⟨Bool.eq_false_iff.mpr fun hidentity => ?_, hm⟩
  obtain ⟨hm, hlevels⟩ := Bool.and_eq_true_iff.mp hidentity
  have hactive := h.active
  rw [isIdentity, hempty hm, LevelSubst.isEmpty_of_compose hlevels] at hactive
  cases hactive

end Substitution

theorem Store.Flat.quiet (hs : s.Flat F) (h : Quiet σ s s') : s'.Flat F where
  unknowns := by
    rw [← hs.unknowns]
    exact funext fun i => by rw [known, known, h.unknowns]
  fresh i hi := hs.fresh i (h.next.trans hi)
  clause i c hi hc := hs.clause i c hi (h.clauses ▸ hc)

theorem Store.Flat.tick (hs : s.Flat F) (k : Nat) : Store.Flat F { s with next := s.next + k } :=
  hs.quiet (.tick .identity s k)

theorem Store.Flat.define {c : LetClause} {i : Nat} (hs : s.Flat F)
    (hc : F.lets i → ∀ t ∈ c.expr :: c.type.toList, t.Flat F) :
    Store.Flat F { s with clauses := s.clauses.insert i c } := by
  refine ⟨hs.unknowns, hs.fresh, fun j d hj hd => ?_⟩
  exact Table.forall_insert (P := fun j d => F.lets j → ∀ t ∈ d.expr :: d.type.toList, t.Flat F)
    (fun j d hd hj => hs.clause j d hj hd) hc j d hd hj

end Flat

/-! ## Copies -/

def Flattened (F : Outlook) (t : Term) (s : Store) : Prop := t.Flat F ∧ s.Flat F

/-- The result of a traversal is flat if the values of the substitution are. -/
def Traversal.Flattens (F : Outlook) (self : Substitution → Term → Traversal Term) : Prop :=
  ∀ {σ t s}, σ.Flat F → s.Flat F → Yields (self σ t) s (Flattened F)

section Copies

variable {F : Outlook} {s s' : Store} {self} (hself : Traversal.Flattens F self)
variable {sig : Signature} {σ : Substitution} {n : Node Term} {t u fn arg : Term} {stamp : Nat}

include hself in
theorem Plan.Runs.flat {p p' : Plan} (hruns : Plan.Runs self σ s p p' s') (hσ : σ.Flat F)
    (hs : s.Flat F) : (∀ q ∈ p'.subterms, q.2.Flat F) ∧ s'.Flat F := by
  induction hruns with
  | done => exact ⟨fun q hq => (by cases hq), hs⟩
  | quiet hquiet _ ih => exact ih hσ (hs.quiet hquiet)
  | term ht _ ih =>
    obtain ⟨ht', hs₁⟩ := hself hσ hs _ _ ht
    obtain ⟨hrest, hs₂⟩ := ih hσ hs₁
    exact ⟨List.forall_mem_cons.mpr ⟨ht', hrest⟩, hs₂⟩
  | under hquiet _ _ _ href _ _ ih ih' =>
    obtain ⟨hinner, hs₂⟩ := ih (hσ.bind href) (hs.quiet hquiet)
    obtain ⟨hrest, hs₃⟩ := ih' hσ hs₂
    rw [Plan.subterms, List.forall_mem_append, inScopeOf, List.forall_mem_map]
    exact ⟨⟨hinner, hrest⟩, hs₃⟩

namespace Traversal

theorem flat_build (hn : n.isSolid) (h : ∀ p ∈ n.subterms, p.2.Flat F) (hs : s.Flat F) :
    Yields (Core.build n) s (Flattened F) :=
  .build ⟨.of_subterms hn h, hs.tick 1⟩

include hself

theorem flat_app (hfn : fn.Flat F) (harg : arg.Flat F) (hs : s.Flat F) :
    Yields (makeAppFrom self fn [arg]) s (Flattened F) := by
  refine yields_app (fun _ => ?_) (fun _ p body _ => hself (.single harg) hs) ?_
  · refine flat_build rfl ?_ hs
    exact List.forall_mem_cons.mpr ⟨hfn, List.forall_mem_singleton.mpr harg⟩
  · intro sort p q ps body ps' body' s' _ _ hruns
    obtain ⟨hparts, hs'⟩ := hruns.runs.flat hself (.single harg) hs
    refine flat_build rfl (fun r hr => hparts r ?_) hs'
    rwa [Node.subterms_eq_rotate rfl, List.mem_rotate] at hr

theorem flat_entries (entries : List (Variable × Term)) (hσ : σ.Flat F) (hs : s.Flat F) :
    Yields (entries.mapM fun e => return (e.1, ← applyFrom self σ e.2)) s fun es s' =>
      es.length = entries.length ∧ (∀ e ∈ es, e.2.Flat F) ∧ s'.Flat F := by
  induction entries generalizing s with
  | nil => exact .pure ⟨rfl, fun e he => (by cases he), hs⟩
  | cons e entries ih =>
    rw [List.mapM_cons, applyFrom, hσ.active]
    refine .seq (Yields.bind (hself hσ hs).start ?_)
    rintro u s₁ ⟨hu, hs₁⟩
    refine .pure (Yields.bind (ih hs₁) ?_)
    rintro es s₂ ⟨hlength, hes, hs₂⟩
    exact .pure ⟨congrArg (· + 1) hlength, List.forall_mem_cons.mpr ⟨hu, hes⟩, hs₂⟩

theorem flat_compose {m : Mapping Term} (levels : LevelSubst) (hσ : σ.Flat F) (hs : s.Flat F) :
    Yields (composeFrom self m σ) s fun m' s' =>
      Substitution.Flat F (.of m' (levels.compose σ.levels)) ∧ s'.Flat F := by
  unfold composeFrom
  split
  · exact .pure ⟨hσ.compose hσ.values id, hs⟩
  next hm =>
    rw [hσ.active]
    refine Yields.bind (flat_entries hself m.entries hσ hs) ?_
    rintro es s₁ ⟨hlength, hes, hs₁⟩
    refine .pure ⟨hσ.compose (List.forall_mem_append.mpr ⟨hes, fun e he => ?_⟩) fun hempty => ?_, hs₁⟩
    · exact hσ.values e (List.mem_of_mem_filter he)
    · obtain ⟨rfl, -⟩ := List.append_eq_nil_iff.mp (List.isEmpty_iff.mp hempty)
      exact absurd (List.isEmpty_iff.mpr (List.length_eq_zero_iff.mp hlength.symm)) hm

theorem flat_clauses (xs : List Var) (hσ : σ.Flat F) (hs : s.Flat F) :
    Yields (clauses self σ xs) s fun r s' =>
      (∀ y ∈ r.1, F.lets y.serial) ∧ r.2.Flat F ∧ s'.Flat F := by
  induction xs generalizing σ s with
  | nil => exact .pure ⟨fun y hy => (by cases hy), hσ, hs⟩
  | cons x xs ih =>
    rw [clauses]
    refine .seq (Yields.clause fun c _ => ?_).lift
    refine Yields.bind (hself hσ hs) ?_
    rintro expr s₁ ⟨hexpr, hs₁⟩
    refine Yields.bind (runs_optional c.type) ?_
    rintro type s₂ ⟨hruns, -⟩
    obtain ⟨htype, hs₂⟩ := hruns.runs.flat hself hσ hs₁
    rw [Plan.subterms_terms, unscoped, List.forall_mem_map] at htype
    refine .seq (Yields.lift (.seq (Yields.freshVar (.seq (Yields.modify (.pure ?_))))))
    refine .seq (Yields.build ?_).lift
    refine Yields.bind (enters x _).lift ?_
    rintro _ s₃ ⟨rfl, hquiet, -⟩
    have hs₃ := ((hs₂.tick 2).define (c := ⟨expr, type⟩) (i := s₂.next) fun _ =>
      List.forall_mem_cons.mpr ⟨hexpr, htype⟩).quiet hquiet
    refine Yields.bind (ih (hσ.bind rfl) hs₃) ?_
    rintro ⟨ys, σ'⟩ s₄ ⟨hys, h⟩
    exact .pure ⟨List.forall_mem_cons.mpr ⟨hs₂.fresh _ le_rfl, hys⟩, h⟩

theorem flat_unknown {v : Var} (hσ : σ.Flat F) (hs : s.Flat F) :
    Yields (unknown self σ (.mk stamp (.unknown v)) v) s (Flattened F) := by
  have hunknown : (Term.mk stamp (.unknown v)).Flat F := .of_subterms rfl (by simp)
  unfold unknown
  refine .seq (Yields.solution? ?_).lift
  split
  · exact hself hσ hs
  split
  next u hu => exact .pure ⟨hσ.get? hu, hs⟩
  refine .seq (Yields.unknown fun w hw => ?_).lift
  split
  next hdelaying =>
    dsimp only
    split
    · exact .pure ⟨hunknown, hs⟩
    next hempty =>
      refine Yields.lift (.build ⟨⟨?_, ?_, ?_, ?_⟩, hs.tick 1⟩)
      · exact List.forall_mem_singleton.mpr hunknown
      · rintro _ _ _ ⟨⟩
      · rintro _ _ _ ⟨⟩
        refine ⟨_, rfl, v, w.bounds, rfl, ?_, Bool.eq_false_iff.mpr hempty, fun e he => ?_⟩
        · rw [← hs.unknowns]
          show (s.unknowns.get? v.serial).map Unknown.delays = _
          rw [hw, Option.map_some, Unknown.delays_eq_some.mpr ⟨hdelaying, rfl⟩]
        · obtain ⟨x, hx, hmem⟩ := (Option.any_eq_true _ _).mp (List.mem_filter.mp he).2
          obtain ⟨⟨⟩, u⟩ := e <;> cases hx
          exact ⟨x, of_decide_eq_true hmem, rfl⟩
      · rintro _ _ _ _ ⟨⟩ ⟨⟩ e he
        exact hσ.values e (List.mem_of_mem_filter he)
  next hdelaying =>
    refine Yields.bind (P := fun _ s' => s'.Flat F) (Yields.lift ?_) fun _ s' hs' =>
      .pure ⟨hunknown, hs'⟩
    refine .seq (Yields.unknown fun w' hw' => Yields.modify ⟨?_, hs.fresh, hs.clause⟩)
    cases hw.symm.trans hw'
    rw [← hs.unknowns, ← Store.known_narrow hw (Bool.eq_false_iff.mpr hdelaying)]

theorem flattens_step : Flattens F (step sig self) := by
  intro σ t s hσ hs
  obtain ⟨stamp, n⟩ := t
  by_cases hplain : n.isPlain
  · refine (rebuilds_step hplain).mono ?_
    rintro ⟨stamp', n'⟩ s' hrebuilds
    obtain ⟨hparts, hs'⟩ := hrebuilds.1.runs.flat hself hσ hs
    have hplain' : n'.isPlain := hrebuilds.isPlain.trans hplain
    have hsolid : n'.isSolid := by cases n' <;> first | rfl | cases hplain'
    refine ⟨.of_subterms hsolid fun p hp => hparts p ?_, hs'⟩
    rwa [Node.subterms_eq_rotate hplain', List.mem_rotate] at hp
  cases n with
  | ref x =>
    have href : (Term.mk stamp (.ref x)).Flat F := .of_subterms rfl (by simp)
    unfold step
    dsimp only [Term.node]
    split
    next u hu => exact .pure ⟨hσ.get? hu, hs⟩
    split
    · refine Yields.bind (yields_updateClause hs fun c hc => ?_) fun _ s' hs' => .pure ⟨href, hs'⟩
      refine (hself hσ hs).mono fun e s₁ h => h.2.define fun hx => ?_
      exact List.forall_mem_cons.mpr ⟨h.1, (List.forall_mem_cons.mp (hs.clause _ c hx hc)).2⟩
    · exact .pure ⟨href, hs⟩
  | app fn arg =>
    refine Yields.bind (hself hσ hs) ?_
    rintro fn' s₁ ⟨hfn, hs₁⟩
    refine Yields.bind (hself hσ hs₁) ?_
    rintro arg' s₂ ⟨harg, hs₂⟩
    exact Yields.lift (flat_app hself hfn harg hs₂)
  | field f sortArg arg =>
    unfold step
    dsimp only [Term.node]
    split
    next u hu =>
      refine Yields.bind (hself hσ hs) ?_
      rintro arg' s₁ ⟨harg, hs₁⟩
      exact Yields.lift (flat_app hself (hσ.get? hu) harg hs₁)
    refine Yields.bind (hself hσ hs) ?_
    rintro arg' s₁ ⟨harg, hs₁⟩
    refine Yields.lift (yields_field (fun _ => ?_) fun _ _ _ _ _ => hself (.single harg) hs₁)
    exact flat_build rfl (List.forall_mem_singleton.mpr harg) hs₁
  | proj u index =>
    refine Yields.bind (hself hσ hs) ?_
    rintro u' s₁ ⟨hu, hs₁⟩
    refine Yields.lift (yields_proj (fun _ => ?_) fun fields type w hnode hget => ?_)
    · exact flat_build rfl (List.forall_mem_singleton.mpr hu) hs₁
    · refine ⟨hu.subterm (p := ([], w)) ?_, hs₁⟩
      rw [hnode]
      exact List.mem_append_left _ (List.mem_map_of_mem (List.mem_of_getElem? hget))
  | letIn strict xs body =>
    refine yields_inScope (P := Flattened F) (Yields.bind (flat_clauses hself xs hσ hs) ?_)
      fun t' s₁ h => ⟨h.1, h.2.quiet (.onShared σ _ s₁)⟩
    rintro ⟨ys, σ₁⟩ s₁ ⟨hys, hσ₁, hs₁⟩
    refine Yields.bind (hself hσ₁ hs₁) ?_
    rintro body' s₂ ⟨hbody, hs₂⟩
    refine Yields.lift (.build ⟨⟨List.forall_mem_singleton.mpr hbody, ?_, ?_, ?_⟩, hs₂.tick 1⟩)
    · rintro _ _ _ ⟨⟩
      exact hys
    · rintro _ _ _ ⟨⟩
    · rintro _ _ _ _ ⟨⟩
  | unknown v =>
    show Yields (unknown self σ _ v) s _
    exact flat_unknown hself hσ hs
  | delayed u r levels =>
    refine .seq (Yields.mapping fun m _ => ?_).lift
    refine Yields.bind (flat_compose hself levels hσ hs).lift ?_
    rintro m' s₁ ⟨hm', hs₁⟩
    rw [applyFrom, hm'.active]
    exact Yields.lift (hself hm' hs₁).start
  | _ => exact absurd rfl hplain

end Traversal

end Copies

theorem Traversal.flattens_traverse {F : Outlook} (sig : Signature) (fuel : Nat) :
    Flattens F (traverse sig fuel) := by
  induction fuel with
  | zero => exact fun _ _ => .throwT
  | succ fuel ih => exact flattens_step ih

/-- Substitutions one after the other, of terms that are flat at the time. -/
inductive Term.Substs (sig : Signature) (lets : Nat → Prop) (t' : Term) (s' : Store) :
    Term → Store → Prop where
  | done : Substs sig lets t' s' t' s'
  | subst {fuel : Nat} {σ : Substitution} {t t₁ : Term} {s s₁ : Store}
      (hvalues : σ.exprs.Flat ⟨s, lets⟩) (hrun : t.subst sig fuel σ s = .ok t₁ s₁)
      (hrest : Substs sig lets t' s' t₁ s₁) : Substs sig lets t' s' t s

/-- However often one substitutes in a flat term, the term that it leads to is flat. So are the let
clauses that it may contain. -/
theorem Term.substs_flat {sig : Signature} {lets : Nat → Prop} {t t' : Term} {s s' : Store}
    (hsubsts : Substs sig lets t' s' t s) (hs : s.Flat ⟨s, lets⟩) (ht : t.Flat ⟨s, lets⟩) :
    t'.Flat ⟨s', lets⟩ ∧ s'.Flat ⟨s', lets⟩ := by
  induction hsubsts with
  | done => exact ⟨ht, hs⟩
  | @subst fuel σ t t₁ s s₁ hvalues hrun _ ih =>
    have hflat : Yields (t.subst sig fuel σ) s (Flattened ⟨s, lets⟩) := by
      unfold Term.subst Traversal.applyFrom
      split
      · exact .pure ⟨ht, hs⟩
      next hactive =>
        refine (Traversal.flattens_traverse sig fuel ⟨?_, hvalues⟩ hs).start
        exact Bool.eq_false_iff.mpr hactive
    obtain ⟨ht₁, hs₁⟩ := hflat t₁ s₁ ⟨s, s₁, rfl, rfl, hrun⟩
    -- The shared mappings are again as they were before the substitution.
    have hget : Restored s s₁ := Traversal.restored_apply (Traversal.restoring_traverse sig fuel)
      t₁ s₁ ⟨s, s₁, rfl, rfl, hrun⟩
    have hrebase {u : Term} (hu : u.Flat ⟨s, lets⟩) : u.Flat ⟨s₁, lets⟩ := by
      refine hu.rebase (fun r => ?_) hs₁.unknowns
      cases r with
      | own m => rfl
      | shared i => exact congrArg (Option.map Shared.mapping) (hget i)
    refine ih ⟨rfl, hs₁.fresh, fun i c hi hc u hu => ?_⟩ (hrebase ht₁)
    exact hrebase (hs₁.clause i c hi hc u hu)

namespace DelayedTwice

/-- What the two substitutions delay at the unknown becomes one. -/
theorem delayed_flat : ∃ t₁ s₁ t' s' z, term.subst Prelude.signature 5 (.ofMapping toY) store =
      .ok t₁ s₁ ∧ t₁.subst Prelude.signature 5 (.ofMapping toZero) s₁ = .ok t' s' ∧
    t'.node = .app (.mk 23 (.delayed (.mk 17 (.unknown v))
      (.own ⟨[(.local x, z), (.local y, z)]⟩) .empty)) z ∧ t'.Flat ⟨s', fun _ => True⟩ := by
  have hflat {t₁ t' : Term} {s₁ s' : Store}
      (h₁ : term.subst Prelude.signature 5 (.ofMapping toY) store = .ok t₁ s₁)
      (h₂ : t₁.subst Prelude.signature 5 (.ofMapping toZero) s₁ = .ok t' s') :
      t'.Flat ⟨s', fun _ => True⟩ := by
    refine (Term.substs_flat (.subst ?_ h₁ (.subst ?_ h₂ .done)) ⟨rfl, ?_, ?_⟩ ?_).1
    · exact List.forall_mem_singleton.mpr (.of_subterms rfl (by simp))
    · exact List.forall_mem_singleton.mpr (.of_subterms rfl (by simp [unscoped]))
    · exact fun _ _ => trivial
    · intro i c _ hc
      cases hc
    · refine .of_subterms rfl (List.forall_mem_cons.mpr ⟨.of_subterms rfl (by simp), ?_⟩)
      exact List.forall_mem_singleton.mpr (.of_subterms rfl (by simp))
  exact ⟨_, _, _, _, _, rfl, rfl, rfl, hflat rfl rfl⟩

end DelayedTwice

end Recheck
