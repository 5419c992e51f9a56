import Recheck.Typing.Monad

/-!
# Recheck — what operations do to the state

All operations run on a part of the solver's state, or on more than that, and what they do to
it on the way is kept even if they fail.

* `Takes P x Q E` says what the operation `x` makes of a state that satisfies `P`: a result
  and a state that satisfy `Q`, or a failure with a state that satisfies `E`.
* `Keeps I x Q` is the case of an invariant: `x` keeps the property `I` of the state,
  whether it succeeds or fails, and the result of a success satisfies `Q`.

Both are defined for every monad of the library at once, so that the laws for lists,
options and lifted operations are stated only once.
-/

namespace Recheck

/-! ## Monads with a store -/

/-- States with a store. -/
class HasStore (σ : Type) where
  store : σ → Store
  /-- What the state of a solver has beyond such a state. -/
  Frame : Type
  frame : Frame
  solver : Frame → σ → SolverState
  store_solver : ∀ frame s, (solver frame s).store = store s

instance : HasStore Store :=
  ⟨id, Equations, default, fun equations s => ⟨s, equations⟩, fun _ _ => rfl⟩

instance : HasStore SolverState := ⟨SolverState.store, Unit, (), fun _ s => s, fun _ _ => rfl⟩

instance : HasStore CheckState :=
  ⟨fun s => s.solver.store, Unit, (), fun _ s => s.solver, fun _ _ => rfl⟩

/-- Monads whose operations run on a part of the state of a solver, at least. -/
class Tracked (m : Type → Type) [Monad m] where
  /-- What an operation makes of a state. -/
  takes {A : Type} (P : SolverState → Prop) (x : m A) (Q : A → SolverState → Prop)
    (E : SolverState → Prop) : Prop
  takes_pure {A : Type} {P E : SolverState → Prop} {a : A} {Q : A → SolverState → Prop}
    (h : ∀ s, P s → Q a s) : takes P (pure a) Q E
  takes_bind {A B : Type} {P E : SolverState → Prop} {x : m A} {f : A → m B}
    {Q : A → SolverState → Prop} {Q' : B → SolverState → Prop} (hx : takes P x Q E)
    (hf : ∀ a, takes (Q a) (f a) Q' E) : takes P (x >>= f) Q' E
  takes_mono {A : Type} {P P' E E' : SolverState → Prop} {x : m A} {Q Q' : A → SolverState → Prop}
    (h : takes P x Q E) (hP : ∀ s, P' s → P s) (hQ : ∀ a s, Q a s → Q' a s)
    (hE : ∀ s, E s → E' s) : takes P' x Q' E'
  takes_and {A : Type} {P E : SolverState → Prop} {p : Prop} {x : m A} {Q : A → SolverState → Prop}
    (h : p → takes P x Q E) : takes (fun s => P s ∧ p) x Q E

/-- The operation takes a state that satisfies `P` to a result and a state that satisfy
`Q`, unless it fails with a state that satisfies `E`. -/
def Takes {m : Type → Type} [Monad m] [Tracked m] {A : Type} (P : SolverState → Prop) (x : m A)
    (Q : A → SolverState → Prop) (E : SolverState → Prop) : Prop :=
  Tracked.takes P x Q E

/-- The operation keeps `I`, and the result satisfies `Q`. -/
def Keeps {m : Type → Type} [Monad m] [Tracked m] {A : Type} (I : SolverState → Prop) (x : m A)
    (Q : A → Prop) : Prop :=
  Takes I x (fun a s => I s ∧ Q a) I

/-- The operation keeps `I`, whatever it returns. -/
abbrev Preserves {m : Type → Type} [Monad m] [Tracked m] {A : Type} (I : SolverState → Prop)
    (x : m A) : Prop :=
  Keeps I x fun _ => True

/-- A property of the store, as one of the state. -/
abbrev OnStore (I : Store → Prop) (st : SolverState) : Prop := I st.store

instance {ε σ : Type} [HasStore σ] : Tracked (EStateM ε σ) where
  takes P x Q E := ∀ frame s, P (HasStore.solver frame s) →
    match x s with
    | .ok a s' => Q a (HasStore.solver frame s')
    | .error _ s' => E (HasStore.solver frame s')
  takes_pure h _ s hs := h _ hs
  takes_bind {A B P E x f Q Q'} hx hf frame s hs := by
    have hxs := hx frame s hs
    show match EStateM.bind x f s with
      | .ok b s' => Q' b (HasStore.solver frame s')
      | .error _ s' => E (HasStore.solver frame s')
    rw [EStateM.bind]
    cases h : x s with
    | ok a s' => rw [h] at hxs; exact hf a frame s' hxs
    | error e s' => rw [h] at hxs; exact hxs
  takes_mono {A P P' E E' x Q Q'} h hP hQ hE frame s hs := by
    have hx := h frame s (hP _ hs)
    cases hr : x s with
    | ok a s' => rw [hr] at hx; exact hQ a _ hx
    | error e s' => rw [hr] at hx; exact hE _ hx
  takes_and h frame s hs := h hs.2 frame s hs.1

instance {ρ : Type} {m : Type → Type} [Monad m] [Tracked m] : Tracked (StateT ρ m) where
  takes P x Q E := ∀ r, Takes P (x r) (fun p s => Q p.1 s) E
  takes_pure h _ := Tracked.takes_pure h
  takes_bind hx hf r := Tracked.takes_bind (hx r) fun p => hf p.1 p.2
  takes_mono h hP hQ hE r := Tracked.takes_mono (h r) hP (fun p => hQ p.1) hE
  takes_and h r := Tracked.takes_and fun hp => h hp r

/-! ## The laws -/

section Takes

variable {m : Type → Type} [Monad m] [Tracked m] {A B : Type} {P E : SolverState → Prop}
variable {Q : A → SolverState → Prop} {Q' : B → SolverState → Prop} {x : Core A}

protected theorem Takes.pure {a : A} {Q : A → SolverState → Prop} (h : ∀ s, P s → Q a s) :
    Takes P (pure a : m A) Q E := Tracked.takes_pure h

protected theorem Takes.bind {x : m A} {f : A → m B} (hx : Takes P x Q E)
    (hf : ∀ a, Takes (Q a) (f a) Q' E) :
    Takes P (x >>= f) Q' E := Tracked.takes_bind hx hf

theorem Takes.mono {x : m A} {P' E' : SolverState → Prop} {Q' : A → SolverState → Prop}
    (h : Takes P x Q E) (hP : ∀ s, P' s → P s) (hQ : ∀ a s, Q a s → Q' a s) (hE : ∀ s, E s → E' s) :
    Takes P' x Q' E' := Tracked.takes_mono h hP hQ hE

theorem Takes.and {x : m A} {p : Prop} (h : p → Takes P x Q E) :
    Takes (fun s => P s ∧ p) x Q E := Tracked.takes_and h

/-- Runs an operation that keeps the property first. -/
theorem Keeps.bind_takes {x : m A} {f : A → m B} {Q : A → Prop} (hx : Keeps P x Q)
    (hE : ∀ s, P s → E s) (hf : ∀ a, Q a → Takes P (f a) Q' E) : Takes P (x >>= f) Q' E :=
  Takes.bind (Takes.mono hx (fun _ h => h) (fun _ _ h => h) hE) fun a => Takes.and (hf a)

theorem Takes.lift (h : Takes P x Q E) : Takes P (liftM x : Traversal A) Q E :=
  fun _ => Takes.bind h fun _ => Takes.pure fun _ hs => hs

theorem Takes.ofCore (h : Takes P x Q E) : Takes P (Solver.ofCore x) Q E := by
  intro _ s hs
  have hx := h s.equations s.store hs
  rw [Solver.ofCore]
  cases hr : x s.store with
  | ok a store => rw [hr] at hx; exact hx
  | error e store => rw [hr] at hx; exact hx

theorem Takes.ofSolver {x : Solver A} (h : Takes P x Q E) : Takes P (Check.ofSolver x) Q E := by
  intro _ s hs
  have hx := h () s.solver hs
  rw [Check.ofSolver]
  cases hr : x s.solver with
  | ok a solver => rw [hr] at hx; exact hx
  | error e solver => rw [hr] at hx; exact hx

theorem Takes.liftCore (h : Takes P x Q E) :
    Takes P (liftM x : Check A) Q E := Takes.ofSolver (Takes.ofCore h)

end Takes

namespace Keeps

section Laws

variable {m : Type → Type} [Monad m] [Tracked m] {I : SolverState → Prop} {A B : Type}
variable {P : A → Prop} {Q : B → Prop} {as : List A} {b : B}

protected theorem pure {a : A} {Q : A → Prop} (h : Q a) : Keeps I (pure a : m A) Q :=
  Takes.pure fun _ hs => ⟨hs, h⟩

protected theorem bind {x : m A} {f : A → m B} (hx : Keeps I x P)
    (hf : ∀ a, P a → Keeps I (f a) Q) : Keeps I (x >>= f) Q :=
  hx.bind_takes (fun _ h => h) hf

/-- Nothing is asked of what is made of the result. -/
theorem then_pure {x : m A} {f : A → B} (hx : Keeps I x P) : Preserves I (x >>= fun a => pure (f a)) :=
  hx.bind fun _ _ => .pure trivial

theorem mono {x : m A} {Q : A → Prop} (hx : Keeps I x P) (h : ∀ a, P a → Q a) : Keeps I x Q :=
  Takes.mono hx (fun _ h => h) (fun a _ hs => ⟨hs.1, h a hs.2⟩) fun _ h => h

theorem ite {c : Prop} [Decidable c] {x y : m A} {Q : A → Prop} (hx : Keeps I x Q)
    (hy : Keeps I y Q) : Keeps I (if c then x else y) Q := by
  split
  · exact hx
  · exact hy

theorem foldlM {f : B → A → m B} (h : ∀ b, Q b → ∀ a ∈ as, Keeps I (f b a) Q) (hb : Q b) :
    Keeps I (as.foldlM f b) Q := by
  induction as generalizing b with
  | nil => exact .pure hb
  | cons a as ih =>
    rw [List.foldlM_cons]
    refine (h b hb a (by simp)).bind fun b' hb' => ih (fun c hc a' ha' => ?_) hb'
    exact h c hc a' (.tail a ha')

theorem forM {f : A → m PUnit} (h : ∀ a ∈ as, Preserves I (f a)) :
    Preserves I (as.forM f) := by
  induction as with
  | nil => exact .pure trivial
  | cons a as ih =>
    rw [List.forall_mem_cons] at h
    exact h.1.bind fun _ _ => ih h.2

theorem forIn {f : A → B → m (ForInStep B)}
    (h : ∀ a ∈ as, ∀ b, Q b → Keeps I (f a b) fun r => Q r.value) (hb : Q b) :
    Keeps I (ForIn.forIn as b f) Q := by
  induction as generalizing b with
  | nil => exact .pure hb
  | cons a as ih =>
    rw [List.forall_mem_cons] at h
    rw [List.forIn_cons]
    refine (h.1 b hb).bind fun r hr => ?_
    cases r with
    | done b => exact .pure hr
    | yield b => exact ih h.2 hr

variable [LawfulMonad m]

protected theorem map {x : m A} {f : A → B} (hx : Keeps I x fun a => Q (f a)) :
    Keeps I (f <$> x) Q := by
  rw [map_eq_pure_bind]
  exact hx.bind fun a ha => .pure ha

theorem mapM {f : A → m B} (h : ∀ a ∈ as, Keeps I (f a) Q) :
    Keeps I (as.mapM f) fun bs => ∀ b ∈ bs, Q b := by
  induction as with
  | nil => exact .pure (by simp)
  | cons a as ih =>
    rw [List.forall_mem_cons] at h
    rw [List.mapM_cons]
    refine h.1.bind fun b hb => (ih h.2).bind fun bs hbs => .pure ?_
    exact List.forall_mem_cons.mpr ⟨hb, hbs⟩

theorem filterMapM {f : A → m (Option B)}
    (h : ∀ a ∈ as, Keeps I (f a) fun o => ∀ b, o = some b → Q b) :
    Keeps I (as.filterMapM f) fun bs => ∀ b ∈ bs, Q b := by
  induction as with
  | nil => exact .pure (by simp)
  | cons a as ih =>
    rw [List.forall_mem_cons] at h
    rw [List.filterMapM_cons]
    refine h.1.bind fun o ho => ?_
    cases o with
    | none => exact ih h.2
    | some b =>
      refine (ih h.2).bind fun bs hbs => .pure ?_
      exact List.forall_mem_cons.mpr ⟨ho b rfl, hbs⟩

theorem optionMapM {f : A → m B} {o : Option A} (h : ∀ a, o = some a → Keeps I (f a) Q) :
    Keeps I (o.mapM f) fun p => ∀ b, p = some b → Q b := by
  cases o with
  | none => exact .pure (by simp)
  | some a =>
    refine Keeps.map ((h a rfl).mono fun b hb => ?_)
    rintro _ ⟨rfl⟩
    exact hb

end Laws

/-! ## The monads of the library -/

section Monads

variable {I : SolverState → Prop} {A : Type} {Q : A → Prop}
variable {x : Core A} {ε σ : Type}

protected theorem throw [HasStore σ] {e : ε} :
    Keeps I (throw e : EStateM ε σ A) Q := fun _ _ hs => hs

theorem throwT {e : Fault} : Keeps I (throw e : Traversal A) Q := fun _ _ _ hs => hs

theorem lift (h : Keeps I x Q) : Keeps I (liftM x : Traversal A) Q := Takes.lift h

theorem getT : Preserves I (get : Traversal (List Var)) :=
  fun _ => Keeps.pure (Q := fun _ : List Var × List Var => True) trivial

theorem modifyT {f : List Var → List Var} :
    Preserves I (modify f : Traversal PUnit) :=
  fun _ => Keeps.pure (Q := fun _ : PUnit × List Var => True) trivial

theorem start {x : Traversal A} (h : Keeps I x Q) : Keeps I (Traversal.start x) Q :=
  Keeps.map (Q := Q) (h [])

theorem get [HasStore σ] :
    Keeps I (get : EStateM ε σ σ) fun s => ∃ frame, I (HasStore.solver frame s) :=
  fun frame _ hs => ⟨hs, frame, hs⟩

theorem modify [HasStore σ] {f : σ → σ}
    (h : ∀ frame s, I (HasStore.solver frame s) → I (HasStore.solver frame (f s))) :
    Preserves I (modify f : EStateM ε σ PUnit) :=
  fun frame s hs => ⟨h frame s hs, trivial⟩

theorem ofCore (h : Keeps I x Q) : Keeps I (Solver.ofCore x) Q := Takes.ofCore h

theorem ofSolver {x : Solver A} (h : Keeps I x Q) : Keeps I (Check.ofSolver x) Q :=
  Takes.ofSolver h

theorem liftSolver (h : Keeps I x Q) : Keeps I (liftM x : Solver A) Q :=
  ofCore h

theorem liftCheck {x : Solver A} (h : Keeps I x Q) : Keeps I (liftM x : Check A) Q :=
  ofSolver h

theorem liftCore (h : Keeps I x Q) : Keeps I (liftM x : Check A) Q :=
  ofSolver (ofCore h)

/-- Goes on after an operation of the core. -/
theorem core {B : Type} {f : A → Check B} {P : B → Prop} (hx : Keeps I x Q)
    (hf : ∀ a, Q a → Keeps I (f a) P) : Keeps I (liftM x >>= f) P := hx.liftCore.bind hf

/-- The result of an operation is one that it has. -/
theorem outcome [HasStore σ] {x : EStateM ε σ A} (h : Keeps I x Q) :
    Keeps I x fun a => Q a ∧ ∃ frame s s', I (HasStore.solver frame s) ∧ x s = .ok a s' := by
  intro frame s hs
  have hx := h frame s hs
  cases hr : x s with
  | ok a s' => rw [hr] at hx; exact ⟨hx.1, hx.2, frame, s, s', hs, hr⟩
  | error e s' => rw [hr] at hx; exact hx

end Monads

end Keeps

end Recheck
