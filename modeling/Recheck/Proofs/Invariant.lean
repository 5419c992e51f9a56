import Recheck.Proofs.Region
import Recheck.Proofs.Tracked

/-!
# Recheck — invariants of substitution

Everything that the library does to a store it does by a handful of primitive changes: it
takes a number, defines a new let clause, rewrites the definition of one, narrows the bounds
of an unknown or writes a shared mapping. A property of stores that survives these changes is an
`Invariant`, and substitution keeps every invariant as long as it starts inside of the
region.

A definition is only ever rewritten by a substitution: `Rewrites` records from what to
what, and which variables may have been replaced.
-/

namespace Recheck

/-- A substitution that replaces variables of the region only takes the one term to the
other. -/
def Rewrites (sig : Signature) (R : Region) (e e' : Term) : Prop :=
  ∃ (fuel : Nat) (σ : Substitution) (done done' : List Var) (s s' : Store),
    Good R s ∧ R.Holds σ.exprs.parts ∧ e.Within R ∧
      Traversal.traverse sig fuel σ e done s = .ok (e', done') s'

/-- A property of stores that survives the primitive changes inside of a region. -/
structure Invariant (sig : Signature) (R : Region) (I : SolverState → Prop) : Prop where
  good : ∀ {st}, I st → Good R st.store
  /-- A number is handed out. -/
  number : ∀ {st}, I st → I { st with store.next := st.store.next + 1 }
  /-- A let clause is defined under a new number. -/
  define : ∀ {s q c}, I ⟨s, q⟩ → c.Within R →
    I ⟨{ s with next := s.next + 1, clauses := s.clauses.insert s.next c }, q⟩
  /-- The definition of a let clause is rewritten. It may have been read from an earlier
  store than the one that it is written to. -/
  rewrite : ∀ {st₁ s q n c e}, I st₁ → I ⟨s, q⟩ → R.refers n →
    st₁.store.clauses.get? n = some c → e.Within R → Rewrites sig R c.expr e →
    I ⟨{ s with clauses := s.clauses.insert n { c with expr := e } }, q⟩
  /-- Variables are struck from the bounds of an unknown that does not delay. -/
  narrow : ∀ {s q n u} {xs : List Var}, I ⟨s, q⟩ → s.unknowns.get? n = some u →
    u.delaying = false → (∀ x ∈ xs, R.Binds x) →
    let narrowed := { u with bounds := u.bounds.filter fun x => x ∉ xs }
    I ⟨{ s with unknowns := s.unknowns.insert n narrowed }, q⟩
  /-- A shared mapping is written. -/
  mapping : ∀ {s q n} {m : Shared}, I ⟨s, q⟩ → R.Holds m.parts →
    I ⟨{ s with mappings := s.mappings.insert n m }, q⟩

namespace Invariant

variable {sig : Signature} {R : Region} {I : SolverState → Prop} (hI : Invariant sig R I)
variable {x : Var} {t : Term} {ps : Telescope Term} {σ : Substitution}

include hI

/-! ## The primitive operations -/

theorem fresh : Keeps I Core.fresh fun n => R.refers n ∧ R.binds n := by
  intro _ s hs
  have hgood := hI.good hs
  exact ⟨hI.number hs, hgood.refers_fresh _ (Nat.le_refl _), hgood.binds_fresh _ (Nat.le_refl _)⟩

theorem build {n : Node Term} (hn : n.Within R) : Keeps I (Core.build n) (Term.Within R) :=
  hI.fresh.bind fun _ _ => .pure (Term.within_mk.mpr (Node.within_iff.mp hn))

theorem freshVar (kind : VarKind) (name : String) :
    Keeps I (Core.freshVar kind name) R.Binds :=
  hI.fresh.bind fun _ hn => .pure ⟨hn.2, fun _ => hn.1⟩

theorem buildRef (hx : R.Binds x) :
    Keeps I (Core.build (.ref x)) (Term.Within R) := hI.build hx.2

/-- What is read as the definition of a let clause stands in a store that satisfies the
invariant. -/
theorem clause (hx : R.refers x.serial) :
    Keeps I (Core.clause x) fun c =>
      c.Within R ∧ ∃ st, I st ∧ st.store.clauses.get? x.serial = some c := by
  refine Keeps.get.bind fun s hs => ?_
  obtain ⟨frame, hs⟩ := hs
  split
  next c hc => exact .pure ⟨(hI.good hs).clause _ c hx hc, _, hs, hc⟩
  next => exact .throw

theorem newClause {expr : Term} {type : Option Term} (name : String) (hexpr : expr.Within R)
    (htype : ∀ t, type = some t → t.Within R) :
    Keeps I (Core.newClause name expr type) fun x => R.Binds x ∧ R.refers x.serial := by
  intro _ s hs
  have hbinds := (hI.good hs).binds_fresh _ (Nat.le_refl _)
  have hrefers := (hI.good hs).refers_fresh _ (Nat.le_refl _)
  exact ⟨hI.define hs ⟨hexpr, htype⟩, ⟨hbinds, fun _ => hrefers⟩, hrefers⟩

theorem readUnknown (v : Var) :
    Keeps I (Core.unknown v) fun u => ∀ t, u.type = some t → t.Within R := by
  refine Keeps.get.bind fun s hs => ?_
  obtain ⟨frame, hs⟩ := hs
  split
  next u hu => exact .pure fun t ht => (hI.good hs).unknown _ u t hu ht
  next => exact .throw

omit hI in
theorem takes_unknown (v : Var) :
    Takes I (Core.unknown v) (fun u st => I st ∧ st.store.unknowns.get? v.serial = some u) I := by
  refine Takes.bind (Q := fun s₁ st => I st ∧ s₁ = st.store) (fun _ s hs => ⟨hs, rfl⟩) fun s₁ => ?_
  split
  next u hu => exact .pure fun st hs => ⟨hs.1, hs.2 ▸ hu⟩
  next => exact fun _ s hs => hs.1

theorem removeBounds {v : Var} {u : Unknown} {xs : List Var} (hu : u.delaying = false)
    (hxs : ∀ x ∈ xs, R.Binds x) :
    Takes (fun st => I st ∧ st.store.unknowns.get? v.serial = some u)
      (Core.removeBounds v xs) (fun _ => I) I := by
  refine Takes.bind ((takes_unknown v).mono (fun _ hs => hs) (fun _ _ hs => hs) fun _ hs => hs.1)
    fun u' _ _ hs => ?_
  obtain rfl : u = u' := Option.some.inj (hs.1.2.symm.trans hs.2)
  exact hI.narrow hs.1.1 hs.2 hu hxs

theorem solution? (t : Term) :
    Keeps I (Core.solution? t) fun o => ∀ u, o = some u → u.Within R :=
  Keeps.get.bind fun _ hs => .pure fun u hu => (hI.good hs.choose_spec).solution _ u hu

theorem readMapping {r : MappingRef Term} (hr : R.Holds r.parts) :
    Keeps I (Core.mapping r) fun m => R.Holds m.parts := by
  refine Keeps.get.bind fun s hs => ?_
  obtain ⟨frame, hs⟩ := hs
  split
  next m hm =>
    refine .pure ?_
    cases r with
    | own m' =>
      rw [Store.mapping?, Option.some.injEq] at hm
      exact hm ▸ hr
    | shared number =>
      obtain ⟨shared, hshared, rfl⟩ := Option.map_eq_some_iff.mp hm
      exact (Shared.holds_iff.mp ((hI.good hs).mapping _ shared hshared)).1
  next => exact .throw

theorem newRecordType (r : RecordName) (sortArg sort : USort) (universes : UniverseKind) :
    Keeps I (Recheck.newRecordType r sortArg sort universes) fun copy =>
      copy.impls = [] ∧ R.Binds copy.this :=
  (hI.freshVar _ _).bind fun _ hx => .pure ⟨rfl, hx⟩

omit hI in
theorem componentAt {fields : List Term} (index : Int64) (h : ∀ t ∈ fields, t.Within R) :
    Keeps I (Recheck.componentAt fields index) fun o => ∀ t, o = some t → t.Within R := by
  rw [Recheck.componentAt]
  split
  · exact .throw
  · exact .pure fun t ht => h t (List.mem_of_getElem? ht)

theorem makeProj (index : Int64) (ht : t.Within R) :
    Keeps I (Recheck.makeProj t index) (Term.Within R) := by
  have hproj : (Node.proj t index).Within R := ht
  rw [Recheck.makeProj]
  split
  next fields type heq =>
    have hfields := ht.node heq
    refine (componentAt index hfields.1).bind fun o ho => ?_
    cases o with
    | none => exact hI.build hproj
    | some u => exact .pure (ho u rfl)
  next => exact hI.build hproj

theorem makeLam {body : Term} (sort : USort) (hps : R.Holds ps.parts)
    (hbody : body.Within R) : Keeps I (Recheck.makeLam sort ps body) (Term.Within R) := by
  rw [Recheck.makeLam]
  split
  · exact .pure hbody
  · exact hI.build (by exact ⟨hps, hbody⟩)

theorem makePi {codomain : Term} (sort : USort) (hps : R.Holds ps.parts)
    (hcodomain : codomain.Within R) :
    Keeps I (Recheck.makePi sort ps codomain) (Term.Within R) := by
  rw [Recheck.makePi]
  split
  · exact .pure hcodomain
  · exact hI.build (by exact ⟨hps, hcodomain⟩)

theorem onShared {s : Store} {q : Equations} {f : Shared → Shared}
    (hf : ∀ m, R.Holds m.parts → R.Holds (f m).parts) (hs : I ⟨s, q⟩) :
    I ⟨σ.onShared f s, q⟩ := by
  unfold Substitution.onShared Store.updateMapping
  split
  · exact hs
  split
  next m hm => exact hI.mapping hs (hf m ((hI.good hs).mapping _ m hm))
  next => exact hs

/-! ## Scopes -/

theorem enter (hσ : R.Holds σ.exprs.parts) (hx : R.Binds x) (ht : t.Within R) :
    Keeps I (Traversal.enter σ x t) fun σ => R.Holds σ.exprs.parts := by
  have hbind : R.Holds (σ.bind x t).exprs.parts := Mapping.holds_insert_var hσ hx ht
  have hx' : R.Holds (Variable.binderParts (T := Term) (.local x)) := by simpa using hx
  exact (Keeps.modify fun _ s hs => hI.onShared (fun _ hm => Shared.holds_bind hm hx' ht) hs).bind
    fun _ _ => .pure hbind

theorem inScope {A : Type} {x : Traversal A} {Q : A → Prop} (hx : Keeps I x Q) :
    Keeps I (Traversal.inScope σ x) Q := by
  intro done frame s hs
  have h := hx done frame s hs
  simp only [Traversal.inScope]
  cases hr : x done s with
  | ok a s' =>
    rw [hr] at h
    exact ⟨hI.onShared (fun _ hm => Shared.holds_release hm _) h.1, h.2⟩
  | error e s' =>
    rw [hr] at h
    exact hI.onShared (fun _ hm => Shared.holds_release hm _) h

end Invariant

/-! ## Stores that stay inside of the region -/

namespace Good

variable {R : Region} {s : Store}
variable {n : Nat}

theorem number (h : Good R s) : Good R { s with next := s.next + 1 } where
  clause := h.clause
  solution := h.solution
  unknown := h.unknown
  mapping := h.mapping
  refers_fresh n hn := h.refers_fresh n (Nat.le_of_succ_le hn)
  binds_fresh n hn := h.binds_fresh n (Nat.le_of_succ_le hn)

theorem setClause (h : Good R s) {c : LetClause} (hc : c.Within R) :
    Good R { s with clauses := s.clauses.insert n c } where
  clause k c' hk hget :=
    Table.forall_insert (P := fun k c => R.refers k → c.Within R)
      (fun k c hget hk => h.clause k c hk hget) (fun _ => hc) k c' hget hk
  solution := h.solution
  unknown := h.unknown
  mapping := h.mapping
  refers_fresh := h.refers_fresh
  binds_fresh := h.binds_fresh

theorem solve (h : Good R s) {t : Term} (ht : t.Within R) :
    Good R { s with solutions := s.solutions.insert n t } :=
  { h with solution := Table.forall_insert h.solution ht }

/-- Being good is itself an invariant. -/
theorem invariant (sig : Signature) (R : Region) : Invariant sig R fun st => Good R st.store where
  good h := h
  number h := h.number
  define h hc := h.number.setClause hc
  rewrite h₁ h hn hget he _ := h.setClause ⟨he, (h₁.clause _ _ hn hget).2⟩
  narrow {_ _ n u _} h hu _ _ :=
    { h with
      unknown := fun k u' t hget =>
        Table.forall_insert (P := fun _ u => ∀ t, u.type = some t → t.Within R)
          (fun k u hget t => h.unknown k u t hget) (fun t => h.unknown n u t hu) k u' hget t }
  mapping h hm := { h with mapping := Table.forall_insert h.mapping hm }

end Good

end Recheck
