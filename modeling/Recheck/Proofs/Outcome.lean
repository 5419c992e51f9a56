import Recheck.Proofs.Tracked

/-!
# Recheck — what operations return

`Takes` and `Keeps` are about properties of the store that one can name in advance. Here is
the other way to look at a run: from a store that is given, to what a success returns and
to the store it leaves, which is compared with the one from before. Failures are of no
interest.

`Yields x s Q` says that every success of the operation `x` in the store `s` satisfies `Q`.
-/

namespace Recheck

/-- Monads whose operations run on a store, and what they return. -/
class Returning (m : Type → Type) [Monad m] where
  /-- The operation, run in the first store, can return the value and leave the second
  store. -/
  returns {A : Type} (x : m A) (s : Store) (a : A) (s' : Store) : Prop
  of_pure {A : Type} {a b : A} {s s' : Store} (h : returns (pure a) s b s') : b = a ∧ s' = s
  of_bind {A B : Type} {x : m A} {f : A → m B} {b : B} {s s' : Store}
    (h : returns (x >>= f) s b s') : ∃ a s₁, returns x s a s₁ ∧ returns (f a) s₁ b s'

/-- Every success of the operation in the given store satisfies `Q`. -/
def Yields {m : Type → Type} [Monad m] [Returning m] {A : Type} (x : m A) (s : Store)
    (Q : A → Store → Prop) : Prop :=
  ∀ a s', Returning.returns x s a s' → Q a s'

instance {ε σ : Type} [HasStore σ] : Returning (EStateM ε σ) where
  returns x s a s' := ∃ r r', HasStore.store r = s ∧ HasStore.store r' = s' ∧ x r = .ok a r'
  of_pure h := by
    obtain ⟨r, r', rfl, rfl, h⟩ := h
    cases h
    exact ⟨rfl, rfl⟩
  of_bind {A B x f b s s'} h := by
    obtain ⟨r, r', hr, hr', h⟩ := h
    have h : EStateM.bind x f r = .ok b r' := h
    rw [EStateM.bind] at h
    cases hx : x r with
    | ok a r₁ =>
      rw [hx] at h
      exact ⟨a, HasStore.store r₁, ⟨r, r₁, hr, rfl, hx⟩, r₁, r', rfl, hr', h⟩
    | error e r₁ =>
      rw [hx] at h
      cases h

instance {ρ : Type} {m : Type → Type} [Monad m] [Returning m] : Returning (StateT ρ m) where
  returns x s a s' := ∃ r r', Returning.returns (x r) s (a, r') s'
  of_pure h := by
    obtain ⟨r, r', h⟩ := h
    obtain ⟨heq, hs⟩ := Returning.of_pure h
    cases heq
    exact ⟨rfl, hs⟩
  of_bind h := by
    obtain ⟨r, r', h⟩ := h
    obtain ⟨⟨a, r₁⟩, s₁, hx, hf⟩ := Returning.of_bind h
    exact ⟨a, s₁, ⟨r, r₁, hx⟩, r₁, r', hf⟩

namespace Yields

/-! ## The laws -/

section Laws

variable {m : Type → Type} [Monad m] [Returning m] {A B : Type} {s : Store}
variable {P : A → Store → Prop} {Q : B → Store → Prop} {x : m A} {f : A → m B}

protected theorem pure {a : A} {Q : A → Store → Prop} (h : Q a s) :
    Yields (pure a : m A) s Q := by
  intro b s' hb
  obtain ⟨rfl, rfl⟩ := Returning.of_pure hb
  exact h

protected theorem bind (hx : Yields x s P)
    (hf : ∀ a s₁, P a s₁ → Yields (f a) s₁ Q) : Yields (x >>= f) s Q := by
  intro b s' hb
  obtain ⟨a, s₁, ha, hb⟩ := Returning.of_bind hb
  exact hf a s₁ (hx a s₁ ha) b s' hb

/-- The first operation is followed by the second one, from whatever it returns. -/
theorem seq (h : Yields x s fun a s₁ => Yields (f a) s₁ Q) : Yields (x >>= f) s Q :=
  Yields.bind h fun _ _ h => h

/-- Nothing is needed of the first operation but that it returns. -/
theorem after (hf : ∀ a s₁, Yields (f a) s₁ Q) : Yields (x >>= f) s Q :=
  .seq fun a s₁ _ => hf a s₁

theorem mono {Q : A → Store → Prop} (hx : Yields x s P) (h : ∀ a s', P a s' → Q a s') :
    Yields x s Q :=
  fun a s' ha => h a s' (hx a s' ha)

protected theorem map [LawfulMonad m] {f : A → B} (hx : Yields x s fun a => Q (f a)) :
    Yields (f <$> x) s Q := by
  rw [map_eq_pure_bind]
  exact hx.bind fun a s' ha => .pure ha

end Laws

/-! ## The monads of the library -/

section Monads

variable {A : Type} {s : Store}
variable {Q : A → Store → Prop} {x : Core A} {I : Store → Prop}

protected theorem throw {ε σ : Type} [HasStore σ] {e : ε} {Q : A → Store → Prop} :
    Yields (throw e : EStateM ε σ A) s Q := by
  rintro a s' ⟨r, r', -, -, h⟩
  cases h

theorem throwT {e : Fault} : Yields (throw e : Traversal A) s Q := by
  rintro a s' ⟨r, r', r₁, r₂, -, -, h⟩
  cases h

theorem lift (h : Yields x s Q) : Yields (liftM x : Traversal A) s Q := by
  rintro a s' ⟨r, r', ha⟩
  obtain ⟨b, s₁, hb, hpure⟩ := Returning.of_bind ha
  obtain ⟨heq, rfl⟩ := Returning.of_pure hpure
  cases heq
  exact h a s' hb

theorem liftSolver (h : Yields x s Q) : Yields (liftM x : Solver A) s Q := by
  intro a s' ha
  obtain ⟨r, r', rfl, rfl, hr⟩ := ha
  have hr : Solver.ofCore x r = .ok a r' := hr
  rw [Solver.ofCore] at hr
  split at hr
  next b s₁ hx =>
    cases hr
    exact h a s₁ ⟨r.store, s₁, rfl, rfl, hx⟩
  next => cases hr

theorem liftCheck {x : Solver A} (h : Yields x s Q) : Yields (liftM x : Check A) s Q := by
  intro a s' ha
  obtain ⟨r, r', rfl, rfl, hr⟩ := ha
  have hr : Check.ofSolver x r = .ok a r' := hr
  rw [Check.ofSolver] at hr
  split at hr
  next b solver hx =>
    cases hr
    exact h a solver.store ⟨r.solver, solver, rfl, rfl, hx⟩
  next => cases hr

theorem liftCore (h : Yields x s Q) :
    Yields (liftM x : Check A) s Q := liftCheck (x := (liftM x : Solver A)) h.liftSolver

/-- What an operation keeps holds of the store that a success leaves. -/
theorem of_keeps {ε σ : Type} [HasStore σ] {x : EStateM ε σ A} {Q : A → Prop}
    (h : Keeps (OnStore I) x Q) (hs : I s) : Yields x s fun a s' => I s' ∧ Q a := by
  intro a s' hrun
  obtain ⟨r, r', rfl, rfl, hr⟩ := hrun
  have hstart : I (HasStore.solver HasStore.frame r).store := by
    rw [HasStore.store_solver]
    exact hs
  have hx := h HasStore.frame r hstart
  rw [hr] at hx
  rw [← HasStore.store_solver HasStore.frame r']
  exact hx

theorem of_keepsT {x : Traversal A} {Q : A → Prop} (h : Keeps (OnStore I) x Q) (hs : I s) :
    Yields x s fun a s' => I s' ∧ Q a := by
  intro a s' hrun
  obtain ⟨done, done', r, r', rfl, rfl, hr⟩ := hrun
  have hx := h done HasStore.frame r hs
  rw [hr] at hx
  exact hx

theorem start {x : Traversal A} (h : Yields x s Q) : Yields (Traversal.start x) s Q :=
  Yields.map fun p s' hp => h p.1 s' ⟨[], p.2, hp⟩

theorem getT {Q : List Var → Store → Prop} (h : ∀ done, Q done s) :
    Yields (get : Traversal (List Var)) s Q := by
  rintro done s' ⟨r, r', hr⟩
  obtain ⟨-, rfl⟩ := Returning.of_pure (a := (r, r)) hr
  exact h done

theorem modifyT {f : List Var → List Var} {Q : PUnit → Store → Prop} (h : Q ⟨⟩ s) :
    Yields (modify f : Traversal PUnit) s Q := by
  rintro a s' ⟨r, r', hr⟩
  obtain ⟨-, rfl⟩ := Returning.of_pure (a := (PUnit.unit, f r)) hr
  exact h

theorem modify {f : Store → Store} {Q : PUnit → Store → Prop} (h : Q ⟨⟩ (f s)) :
    Yields (modify f : Core PUnit) s Q := by
  rintro a s' ⟨r, r', rfl, rfl, hr⟩
  cases hr
  exact h

theorem fresh {Q : Nat → Store → Prop} (h : Q s.next { s with next := s.next + 1 }) :
    Yields Core.fresh s Q := by
  rintro a s' ⟨r, r', rfl, rfl, hr⟩
  cases hr
  exact h

theorem build {n : Node Term} {Q : Term → Store → Prop}
    (h : Q (.mk s.next n) { s with next := s.next + 1 }) : Yields (Core.build n) s Q :=
  .seq (fresh (.pure h))

theorem freshVar {kind : VarKind} {name : String} {Q : Var → Store → Prop}
    (h : Q ⟨s.next, kind, name⟩ { s with next := s.next + 1 }) :
    Yields (Core.freshVar kind name) s Q :=
  .seq (fresh (.pure h))

theorem get {Q : Store → Store → Prop} (h : Q s s) : Yields (get : Core Store) s Q := by
  rintro a s' ⟨r, r', rfl, rfl, hr⟩
  cases hr
  exact h

theorem clause {x : Var} {Q : LetClause → Store → Prop}
    (h : ∀ c, s.clauses.get? x.serial = some c → Q c s) : Yields (Core.clause x) s Q := by
  unfold Core.clause
  refine .seq (get ?_)
  split
  next c hc => exact .pure (h c hc)
  next => exact .throw

theorem clause_of {x : Var} {c : LetClause} {Q : LetClause → Store → Prop}
    (hc : s.clauses.get? x.serial = some c) (h : Q c s) : Yields (Core.clause x) s Q :=
  clause fun _ hc' => Option.some.inj (hc.symm.trans hc') ▸ h

theorem unknown {v : Var} {Q : Unknown → Store → Prop}
    (h : ∀ u, s.unknowns.get? v.serial = some u → Q u s) : Yields (Core.unknown v) s Q := by
  unfold Core.unknown
  refine .seq (get ?_)
  split
  next u hu => exact .pure (h u hu)
  next => exact .throw

theorem mapping {r : MappingRef Term} {Q : Mapping Term → Store → Prop}
    (h : ∀ m, s.mapping? r = some m → Q m s) : Yields (Core.mapping r) s Q := by
  unfold Core.mapping
  refine .seq (get ?_)
  split
  next m hm => exact .pure (h m hm)
  next => exact .throw

theorem solution? {t : Term} {Q : Option Term → Store → Prop}
    (h : Q (s.solutions.get? t.stamp) s) : Yields (Core.solution? t) s Q :=
  .seq (get (.pure h))

end Monads

end Yields

end Recheck
