import Recheck.Proofs.Renumbering.Pairing
import Recheck.Typing.Monad

/-!
# Recheck — two runs side by side

`Mirrors β x x' R` says that the operation `x'` does on the one side of the pairing `β` what
`x` does on the other: from states that correspond they come to states that correspond, and
either both succeed, with results that are related by `R`, or both end in the same fault.
Nothing is said if `x` runs out of fuel, so that `x'` may have more of it.

A check that fails takes texts of terms into its error. There only successes are compared.

Like `Takes`, the notion is defined for all monads of the library at once.
-/

namespace Recheck

/-- The fuel that is left to the second run. -/
theorem exists_fuel_of_succ_le {fuel fuel' : Nat} (hle : fuel + 1 ≤ fuel') :
    ∃ k, fuel' = k + 1 ∧ fuel ≤ k := ⟨fuel' - 1, by omega, by omega⟩

/-! ## States -/

/-- Both runs have taken as many numbers. -/
def Store.Paired (β : Pairing) (s s' : Store) : Prop :=
  ∃ k, s.next = β.left.store.next + k ∧ s'.next = β.right.store.next + k

/-- The flags are those under which the runs began. -/
structure Equations.Paired (β : Pairing) (e e' : Equations) : Prop where
  levelsOnly : e.levelsOnly = β.left.equations.levelsOnly ∧
    e'.levelsOnly = β.left.equations.levelsOnly
  deferLevels : e.deferLevels = β.left.equations.deferLevels ∧
    e'.deferLevels = β.left.equations.deferLevels

structure SolverState.Paired (β : Pairing) (s s' : SolverState) : Prop where
  store : s.store.Paired β s'.store
  equations : s.equations.Paired β s'.equations

/-- States of which it is known when they correspond. -/
class HasPairing (σ : Type) where
  paired : Pairing → σ → σ → Prop

instance : HasPairing Store := ⟨Store.Paired⟩

instance : HasPairing SolverState := ⟨SolverState.Paired⟩

instance : HasPairing CheckState := ⟨fun β s s' => s.solver.Paired β s'.solver⟩

/-- Failures after which nothing is compared. -/
class HasForgiven (ε : Type) where
  forgiven : ε → Prop

instance : HasForgiven Fault := ⟨fun f => f = .outOfFuel⟩

instance : HasForgiven Failure := ⟨fun _ => True⟩

/-! ## Operations -/

/-- Monads whose operations can be run side by side. -/
class Mirrored (m : Type → Type) [Monad m] where
  mirrors {A : Type} (β : Pairing) (x x' : m A) (R : A → A → Prop) : Prop
  mirrors_pure {A : Type} {β : Pairing} {a a' : A} {R : A → A → Prop} (h : R a a') :
    mirrors β (pure a) (pure a') R
  mirrors_bind {A B : Type} {β : Pairing} {x x' : m A} {f f' : A → m B} {R : A → A → Prop}
    {Q : B → B → Prop} (hx : mirrors β x x' R)
    (hf : ∀ a a', R a a' → mirrors β (f a) (f' a') Q) : mirrors β (x >>= f) (x' >>= f') Q
  mirrors_mono {A : Type} {β : Pairing} {x x' : m A} {R Q : A → A → Prop}
    (hx : mirrors β x x' R) (h : ∀ a a', R a a' → Q a a') : mirrors β x x' Q

/-- The second operation does what the first does, and the results are related. -/
def Mirrors {m : Type → Type} [Monad m] [Mirrored m] {A : Type} (β : Pairing) (x x' : m A)
    (R : A → A → Prop) : Prop :=
  Mirrored.mirrors β x x' R

/-- The outcome of an operation on the one side, given the one on the other. -/
def Reflects {ε σ A : Type} [HasPairing σ] [HasForgiven ε] (β : Pairing) (R : A → A → Prop)
    (r' : EStateM.Result ε σ A) : EStateM.Result ε σ A → Prop
  | .ok a s => ∃ a' s', r' = .ok a' s' ∧ R a a' ∧ HasPairing.paired β s s'
  | .error e s => HasForgiven.forgiven e ∨ ∃ s', r' = .error e s' ∧ HasPairing.paired β s s'

instance {ε σ : Type} [HasPairing σ] [HasForgiven ε] : Mirrored (EStateM ε σ) where
  mirrors β x x' R := ∀ s s', HasPairing.paired β s s' → Reflects β R (x' s') (x s)
  mirrors_pure h _ s' hs := ⟨_, s', rfl, h, hs⟩
  mirrors_bind {A B β x x' f f' R Q} hx hf s s' hs := by
    have h := hx s s' hs
    show Reflects β Q (EStateM.bind x' f' s') (EStateM.bind x f s)
    rw [EStateM.bind, EStateM.bind]
    cases hr : x s with
    | ok a s₁ =>
      rw [hr] at h
      obtain ⟨a', s₁', hr', ha, hs₁⟩ := h
      rw [hr']
      exact hf a a' ha s₁ s₁' hs₁
    | error e s₁ =>
      rw [hr] at h
      refine h.imp id ?_
      rintro ⟨s₁', hr', hs₁⟩
      exact ⟨s₁', by rw [hr'], hs₁⟩
  mirrors_mono {A β x x' R Q} hx hmono s s' hs := by
    have h := hx s s' hs
    cases hr : x s with
    | ok a s₁ =>
      rw [hr] at h
      obtain ⟨a', s₁', hr', ha, hs₁⟩ := h
      exact ⟨a', s₁', hr', hmono a a' ha, hs₁⟩
    | error e s₁ =>
      rw [hr] at h
      exact h

/-- Traversals and searches remember variables, which have to correspond as well. -/
instance {m : Type → Type} [Monad m] [Mirrored m] : Mirrored (StateT (List Var) m) where
  mirrors β x x' R := ∀ r r', List.Forall₂ (Var.Paired β) r r' →
    Mirrors β (x r) (x' r') fun p p' => R p.1 p'.1 ∧ List.Forall₂ (Var.Paired β) p.2 p'.2
  mirrors_pure h _ _ hr := Mirrored.mirrors_pure ⟨h, hr⟩
  mirrors_bind hx hf r r' hr := Mirrored.mirrors_bind (hx r r' hr) fun p p' hp =>
    hf p.1 p'.1 hp.1 p.2 p'.2 hp.2
  mirrors_mono hx h r r' hr := Mirrored.mirrors_mono (hx r r' hr) fun p p' hp =>
    ⟨h p.1 p'.1 hp.1, hp.2⟩

/-- The check does not succeed, whatever the state. -/
def Check.Fails {A : Type} (x : Check A) : Prop := ∀ s, ∃ e s₁, x s = .error e s₁

namespace Check.Fails

variable {A B : Type} {x : Check A} {f : A → Check B}

protected theorem throw (e : Failure) : Fails (throw e : Check A) := fun s => ⟨e, s, rfl⟩

protected theorem refuse (e : TypeError) : Fails (refuse e : Check A) := Fails.throw _

protected theorem bind (h : Fails x) : Fails (x >>= f) := by
  intro s
  obtain ⟨e, s₁, hx⟩ := h s
  refine ⟨e, s₁, ?_⟩
  show EStateM.bind x f s = _
  rw [EStateM.bind, hx]

theorem afterPure {a : A} (h : Fails (f a)) : Fails (pure a >>= f) := h

theorem after (h : ∀ a, Fails (f a)) : Fails (x >>= f) := by
  intro s
  show ∃ e s₁, EStateM.bind x f s = _
  rw [EStateM.bind]
  cases x s with
  | ok a s₁ => exact h a s₁
  | error e s₁ => exact ⟨e, s₁, rfl⟩

end Check.Fails

namespace Mirrors

section Laws

variable {m : Type → Type} [Monad m] [Mirrored m] {β : Pairing} {A B : Type}
variable {R : A → A → Prop} {Q : B → B → Prop} {c c' : Prop} {as as' : List A} {b b' : B}
  {f f' : A → m B} {x x' : m A}

protected theorem pure {a a' : A} {R : A → A → Prop} (h : R a a') :
    Mirrors β (pure a : m A) (pure a') R := Mirrored.mirrors_pure h

protected theorem bind (hx : Mirrors β x x' R) (hf : ∀ a a', R a a' → Mirrors β (f a) (f' a') Q) :
    Mirrors β (x >>= f) (x' >>= f') Q := Mirrored.mirrors_bind hx hf

theorem mono {Q : A → A → Prop} (hx : Mirrors β x x' R) (h : ∀ a a', R a a' → Q a a') :
    Mirrors β x x' Q := Mirrored.mirrors_mono hx h

/-- Both sides take the same branch. -/
theorem ite [Decidable c] [Decidable c'] {x x' y y' : m A} (h : c ↔ c') (hx : c → Mirrors β x x' R)
    (hy : ¬ c → Mirrors β y y' R) : Mirrors β (if c then x else y) (if c' then x' else y') R := by
  by_cases hc : c
  · rw [if_pos hc, if_pos (h.mp hc)]
    exact hx hc
  · rw [if_neg hc, if_neg fun hc' => hc (h.mpr hc')]
    exact hy hc

/-- Something that is done on the way, on both sides or on neither. -/
theorem when [Decidable c] [Decidable c'] {x x' : m PUnit} {y y' : PUnit → m A} (h : c ↔ c')
    (hx : c → Mirrors β x x' fun _ _ => True) (hy : Mirrors β (y ⟨⟩) (y' ⟨⟩) R) :
    Mirrors β (if c then x >>= y else y ⟨⟩) (if c' then x' >>= y' else y' ⟨⟩) R :=
  ite h (fun hc => (hx hc).bind fun _ _ _ => hy) fun _ => hy

theorem foldlM {f f' : B → A → m B} (has : List.Forall₂ R as as')
    (h : ∀ b b', Q b b' → ∀ a a', R a a' → Mirrors β (f b a) (f' b' a') Q) (hb : Q b b') :
    Mirrors β (as.foldlM f b) (as'.foldlM f' b') Q := by
  induction has generalizing b b' with
  | nil => exact .pure hb
  | cons ha _ ih =>
    rw [List.foldlM_cons, List.foldlM_cons]
    exact (h b b' hb _ _ ha).bind fun c c' hc => ih hc

theorem forM {f f' : A → m PUnit} (has : List.Forall₂ R as as')
    (h : ∀ a a', R a a' → Mirrors β (f a) (f' a') fun _ _ => True) :
    Mirrors β (as.forM f) (as'.forM f') fun _ _ => True := by
  induction has with
  | nil => exact .pure trivial
  | cons ha _ ih => exact (h _ _ ha).bind fun _ _ _ => ih

/-- A loop over the same elements on both sides. -/
theorem forIn {f f' : A → B → m (ForInStep B)}
    (h : ∀ a ∈ as, ∀ b b', Q b b' → Mirrors β (f a b) (f' a b') fun r r' =>
      (∃ c c', r = .yield c ∧ r' = .yield c' ∧ Q c c') ∨
        ∃ c c', r = .done c ∧ r' = .done c' ∧ Q c c')
    (hb : Q b b') : Mirrors β (ForIn.forIn as b f) (ForIn.forIn as b' f') Q := by
  induction as generalizing b b' with
  | nil => exact .pure hb
  | cons a as ih =>
    rw [List.forall_mem_cons] at h
    rw [List.forIn_cons, List.forIn_cons]
    refine (h.1 b b' hb).bind ?_
    rintro _ _ (⟨c, c', rfl, rfl, hc⟩ | ⟨c, c', rfl, rfl, hc⟩)
    · exact ih h.2 hc
    · exact .pure hc

/-- A loop over the same elements on both sides that only does something for each. -/
theorem forEach {f f' : A → PUnit → m (ForInStep PUnit)}
    (h : ∀ a ∈ as, Mirrors β (f a ⟨⟩) (f' a ⟨⟩) fun r r' => r = .yield ⟨⟩ ∧ r' = .yield ⟨⟩) :
    Mirrors β (ForIn.forIn as PUnit.unit f) (ForIn.forIn as PUnit.unit f') fun _ _ => True :=
  forIn (fun a ha _ _ _ => (h a ha).mono fun _ _ hr => .inl ⟨⟨⟩, ⟨⟩, hr.1, hr.2, trivial⟩) trivial

variable [LawfulMonad m]

protected theorem map {f f' : A → B}
    (hx : Mirrors β x x' fun a a' => Q (f a) (f' a')) : Mirrors β (f <$> x) (f' <$> x') Q := by
  rw [map_eq_pure_bind, map_eq_pure_bind]
  exact hx.bind fun a a' ha => .pure ha

theorem mapM (has : List.Forall₂ R as as') (h : ∀ a a', R a a' → Mirrors β (f a) (f' a') Q) :
    Mirrors β (as.mapM f) (as'.mapM f') (List.Forall₂ Q) := by
  induction has with
  | nil => exact .pure .nil
  | cons ha _ ih =>
    rw [List.mapM_cons, List.mapM_cons]
    exact (h _ _ ha).bind fun b b' hb => ih.bind fun bs bs' hbs => .pure (.cons hb hbs)

theorem filterMapM {f f' : A → m (Option B)} (has : List.Forall₂ R as as')
    (h : ∀ a a', R a a' → Mirrors β (f a) (f' a') (Option.Rel Q)) :
    Mirrors β (as.filterMapM f) (as'.filterMapM f') (List.Forall₂ Q) := by
  induction has with
  | nil => exact .pure .nil
  | cons ha _ ih =>
    rw [List.filterMapM_cons, List.filterMapM_cons]
    refine (h _ _ ha).bind fun o o' ho => ?_
    cases ho with
    | none => exact ih
    | some hb => exact ih.bind fun bs bs' hbs => .pure (.cons hb hbs)

theorem optionMapM {o o' : Option A} (ho : Option.Rel R o o')
    (h : ∀ a a', R a a' → Mirrors β (f a) (f' a') Q) :
    Mirrors β (o.mapM f) (o'.mapM f') (Option.Rel Q) := by
  cases ho with
  | none => exact .pure .none
  | some ha => exact Mirrors.map ((h _ _ ha).mono fun b b' hb => .some hb)

end Laws

/-! ## The monads of the library -/

section Monads

variable {β : Pairing} {A : Type} {R : A → A → Prop}
variable {x' x : Core A} {ε σ : Type}

protected theorem throw [HasPairing σ] [HasForgiven ε] {e : ε} :
    Mirrors β (throw e : EStateM ε σ A) (throw e) R := fun _ s' hs => .inr ⟨s', rfl, hs⟩

protected theorem get [HasPairing σ] [HasForgiven ε] :
    Mirrors β (get : EStateM ε σ σ) get (HasPairing.paired β) :=
  fun _ s' hs => ⟨s', s', rfl, hs, hs⟩

protected theorem modify [HasPairing σ] [HasForgiven ε] {f f' : σ → σ}
    (h : ∀ s s', HasPairing.paired β s s' → HasPairing.paired β (f s) (f' s')) :
    Mirrors β (modify f : EStateM ε σ PUnit) (modify f') fun _ _ => True :=
  fun s s' hs => ⟨(), f' s', rfl, trivial, h s s' hs⟩

/-- Running out of fuel is not compared with anything. -/
theorem outOfFuel {σ : Type} [HasPairing σ] {x' : EStateM Fault σ A} :
    Mirrors β (throw .outOfFuel) x' R := fun _ _ _ => .inl rfl

theorem outOfFuelT {x' : Traversal A} : Mirrors β (throw .outOfFuel) x' R :=
  fun _ _ _ _ _ _ => .inl rfl

/-- Neither is a check that fails. -/
theorem failing {x x' : Check A} (h : x.Fails) : Mirrors β x x' R := by
  intro s s' _
  obtain ⟨e, s₁, hx⟩ := h s
  rw [hx]
  exact .inl trivial

theorem lift (h : Mirrors β x x' R) : Mirrors β (liftM x : Traversal A) (liftM x') R := by
  intro r r' hr
  exact Mirrors.bind h fun a a' ha => .pure ⟨ha, hr⟩

theorem start {x x' : Traversal A} (h : Mirrors β x x' R) :
    Mirrors β (Traversal.start x) (Traversal.start x') R :=
  Mirrors.map ((h [] [] .nil).mono fun _ _ hp => hp.1)

theorem ofCore (h : Mirrors β x x' R) : Mirrors β (Solver.ofCore x) (Solver.ofCore x') R := by
  intro s s' hs
  have hx := h s.store s'.store hs.store
  rw [Solver.ofCore, Solver.ofCore]
  cases hr : x s.store with
  | ok a store =>
    rw [hr] at hx
    obtain ⟨a', store', hr', ha, hstore⟩ := hx
    rw [hr']
    exact ⟨a', _, rfl, ha, hstore, hs.equations⟩
  | error e store =>
    rw [hr] at hx
    refine hx.imp id ?_
    rintro ⟨store', hr', hstore⟩
    exact ⟨{ s' with store := store' }, by rw [hr'], hstore, hs.equations⟩

theorem ofSolver {x x' : Solver A} (h : Mirrors β x x' R) :
    Mirrors β (Check.ofSolver x) (Check.ofSolver x') R := by
  intro s s' hs
  have hx := h s.solver s'.solver hs
  rw [Check.ofSolver, Check.ofSolver]
  cases hr : x s.solver with
  | ok a solver =>
    rw [hr] at hx
    obtain ⟨a', solver', hr', ha, hsolver⟩ := hx
    rw [hr']
    exact ⟨a', _, rfl, ha, hsolver⟩
  | error e solver => exact .inl trivial

theorem liftSolver (h : Mirrors β x x' R) :
    Mirrors β (liftM x : Solver A) (liftM x') R := ofCore h

theorem liftCheck {x x' : Solver A} (h : Mirrors β x x' R) :
    Mirrors β (liftM x : Check A) (liftM x') R := ofSolver h

theorem liftCore (h : Mirrors β x x' R) :
    Mirrors β (liftM x : Check A) (liftM x') R := ofSolver (ofCore h)

/-- Goes on after an operation of the core. -/
theorem core {B : Type} {f f' : A → Check B} {P : B → B → Prop} (hx : Mirrors β x x' R)
    (hf : ∀ a a', R a a' → Mirrors β (f a) (f' a') P) :
    Mirrors β (liftM x >>= f) (liftM x' >>= f') P := hx.liftCore.bind hf

end Monads

end Mirrors

end Recheck
