import Recheck.Proofs.Workspace.State

/-!
# Recheck — following a check

An operation on the workspace and a check that is told the scope are run side by side.
`Tracks w₀ l x y Q` says that the operation `x`, begun with the ledger `l`, follows the check `y`:
it succeeds or fails as `y` does, with the same error and the same changes to terms and equations.
All workspaces on the way are over `w₀`, and if there is a failure, the last of them is one that
`w₀` may be abandoned in. `Opens` is the case of a rule that brings variables into scope, and
`Follows` that of a rule that restores the workspace.

There is a law for each way to put operations together, and one for each way to enter and to
leave a scope.
-/

namespace Recheck

/-- The outcome of an operation that began with the ledger `l` is that of the check. -/
def Matches {A B : Type} (w₀ : Workspace) (l : Ledger) (Q : A → B → Ledger → Prop)
    (r : EStateM.Result Failure WorkState A) : EStateM.Result Failure CheckState B → Prop
  | .ok b st => ∃ a l', r = .ok a ⟨st, l'⟩ ∧ Ledger.Since w₀ l l' ∧ Q a b l'
  | .error e st => ∃ l', r = .error e ⟨st, l'⟩ ∧ Ledger.Since w₀ l l' ∧ w₀.Abandoned l'.space

/-- The operation follows the check from the given ledger. -/
def Tracks {A B : Type} (w₀ : Workspace) (l : Ledger) (x : Work A) (y : Check B)
    (Q : A → B → Ledger → Prop) : Prop :=
  ∀ st, Matches w₀ l Q (x ⟨st, l⟩) (y st)

/-- From the workspace, if it is settled, the operation follows the check and brings variables into
scope. -/
def Opens {A B : Type} (w : Workspace) (x : Work A) (y : Check B)
    (R : A → B → Workspace → Prop) : Prop :=
  ∀ l : Ledger, l.space = w → w.Settled →
    Tracks w l x y fun a b l' => w.Opened l'.space ∧ R a b l'.space

/-- The operation follows the check and restores the workspace. -/
def Follows {A : Type} (w : Workspace) (x : Work A) (y : Check A) : Prop :=
  Opens w x y fun a b w' => a = b ∧ w' = w

/-! ## The laws -/

section Tracks

variable {A B C D : Type} {w₀ w₁ : Workspace} {l : Ledger}
variable {x : Work A} {y : Check B} {f : A → Work C} {Q Q' : A → B → Ledger → Prop}

protected theorem Tracks.pure {a : A} {b : B} {Q : A → B → Ledger → Prop} (h : Q a b l) :
    Tracks w₀ l (pure a) (pure b) Q :=
  fun _ => ⟨a, l, rfl, .refl _ _, h⟩

protected theorem Tracks.bind {g : B → Check D} {Q' : C → D → Ledger → Prop}
    (hx : Tracks w₀ l x y Q) (hf : ∀ a b l', Q a b l' → Tracks w₀ l' (f a) (g b) Q') :
    Tracks w₀ l (x >>= f) (y >>= g) Q' := by
  intro st
  have h := hx st
  show Matches w₀ l Q' (EStateM.bind x f ⟨st, l⟩) (EStateM.bind y g st)
  rw [EStateM.bind, EStateM.bind]
  cases hy : y st with
  | error e st₁ =>
    rw [hy] at h
    obtain ⟨l₁, hl₁, hsince, habandoned⟩ := h
    exact ⟨l₁, by rw [hl₁], hsince, habandoned⟩
  | ok b st₁ =>
    rw [hy] at h
    obtain ⟨a, l₁, hl₁, hsince, hQ⟩ := h
    have h' := hf a b l₁ hQ st₁
    dsimp only
    rw [hl₁]
    cases hg : g b st₁ with
    | error e st₂ =>
      rw [hg] at h'
      obtain ⟨l₂, hl₂, hsince', habandoned⟩ := h'
      exact ⟨l₂, hl₂, hsince.trans hsince', habandoned⟩
    | ok d st₂ =>
      rw [hg] at h'
      obtain ⟨c, l₂, hl₂, hsince', hQ'⟩ := h'
      exact ⟨c, l₂, hl₂, hsince.trans hsince', hQ'⟩

/-- An operation that goes on after the check is done. -/
theorem Tracks.bind_left {Q' : C → B → Ledger → Prop} (hx : Tracks w₀ l x y Q)
    (hf : ∀ a b l', Q a b l' → Tracks w₀ l' (f a) (pure b) Q') : Tracks w₀ l (x >>= f) y Q' := by
  rw [← bind_pure y]
  exact hx.bind hf

theorem Tracks.of_space {f : Workspace → Work A} (hf : Tracks w₀ l (f l.space) y Q) :
    Tracks w₀ l (Work.space >>= f) y Q :=
  hf

theorem Tracks.of_mark {f : Nat → Work A} (hf : Tracks w₀ l (f l.space.stack.length) y Q) :
    Tracks w₀ l (Work.mark >>= f) y Q :=
  hf

theorem Tracks.of_change {f : Workspace → Workspace} {x : Unit → Work A} (h : w₀.Over l.space)
    (hx : Tracks w₀ (l.change f) (x ()) y Q) : Tracks w₀ l (Work.change f >>= x) y Q := by
  rw [← pure_bind () fun _ => y]
  refine Tracks.bind (Q := fun _ _ l' => l' = l.change f) (fun st => ?_) ?_
  · exact ⟨(), l.change f, rfl, Ledger.since_change f h, rfl⟩
  · rintro _ _ _ rfl
    exact hx

/-- What happens over a workspace with more in scope happens over one with less. -/
theorem Tracks.rebase (hx : Tracks w₁ l x y Q) (hstack : w₀.stack <:+ w₁.stack)
    (habandoned : ∀ w, w₁.Abandoned w → w₀.Abandoned w) (h : ∀ a b l', Q a b l' → Q' a b l') :
    Tracks w₀ l x y Q' := by
  intro st
  have hst := hx st
  cases hy : y st with
  | error e st₁ =>
    rw [hy] at hst
    obtain ⟨l₁, hl₁, hsince, hl₁'⟩ := hst
    exact ⟨l₁, hl₁, hsince.mono hstack, habandoned _ hl₁'⟩
  | ok b st₁ =>
    rw [hy] at hst
    obtain ⟨a, l₁, hl₁, hsince, hQ⟩ := hst
    exact ⟨a, l₁, hl₁, hsince.mono hstack, h a b l₁ hQ⟩

theorem Tracks.mono (hx : Tracks w₀ l x y Q) (h : ∀ a b l', Q a b l' → Q' a b l') :
    Tracks w₀ l x y Q' :=
  hx.rebase (List.suffix_refl _) (fun _ h => h) h

/-- A check that does not touch the workspace. -/
theorem tracks_lift (y : Check A) (h : w₀.Abandoned l.space) :
    Tracks w₀ l (Work.ofCheck y) y fun a b l' => a = b ∧ l' = l := by
  intro st
  cases hy : y st with
  | error e st₁ => exact ⟨l, by simp only [Work.ofCheck, hy], .refl _ _, h⟩
  | ok b st₁ => exact ⟨b, l, by simp only [Work.ofCheck, hy], .refl _ _, rfl, rfl⟩

end Tracks

namespace Opens

variable {A B C D : Type} {w : Workspace} {R : A → B → Workspace → Prop}
variable {x : Work A} {y : Check B}

protected theorem pure {a : A} {b : B} (h : R a b w) : Opens w (pure a) (pure b) R := by
  rintro l rfl hw
  exact .pure ⟨hw.opened, h⟩

protected theorem bind {f : A → Work C} {g : B → Check D} {R' : C → D → Workspace → Prop}
    (hx : Opens w x y R) (hf : ∀ a b w', R a b w' → Opens w' (f a) (g b) R') :
    Opens w (x >>= f) (y >>= g) R' := by
  rintro l rfl hw
  refine (hx l rfl hw).bind fun a b l' h => ?_
  refine (hf a b l'.space h.2 l' rfl h.1.settled).rebase h.1.stack ?_ fun c d l'' h' => ?_
  · exact fun w' hw' => hw'.of_opened hw h.1
  · exact ⟨h.1.trans h'.1, h'.2⟩

theorem of_settled (h : w.Settled → Opens w x y R) : Opens w x y R := fun l hl hw => h hw l hl hw

theorem mono {R' : A → B → Workspace → Prop} (hx : Opens w x y R)
    (h : ∀ a b w', R a b w' → R' a b w') : Opens w x y R' := by
  rintro l rfl hw
  exact (hx l rfl hw).mono fun a b l' h' => ⟨h'.1, h a b l'.space h'.2⟩

/-- An operation that is done while the check still makes something of the result. -/
theorem then_return {g : B → D} {R' : A → D → Workspace → Prop}
    (hx : Opens w x y R) (h : ∀ a b w', R a b w' → R' a (g b) w') :
    Opens w x (y >>= fun b => Pure.pure (g b)) R' := by
  rw [← bind_pure x]
  exact Opens.bind hx fun a b w' hR => .pure (h a b w' hR)

/-- The first two steps of a check taken together. -/
theorem assoc {y₁ : Check C} {y₂ : C → Check D} {y₃ : D → Check B}
    (h : Opens w x (y₁ >>= y₂ >>= y₃) R) : Opens w x (y₁ >>= fun c => y₂ c >>= y₃) R := by
  rwa [bind_assoc] at h

theorem ite {c : Prop} [Decidable c] {x' : Work A} {y' : Check B} (hx : c → Opens w x y R)
    (hx' : ¬ c → Opens w x' y' R) : Opens w (if c then x else x') (if c then y else y') R := by
  by_cases h : c
  · rw [if_pos h, if_pos h]
    exact hx h
  · rw [if_neg h, if_neg h]
    exact hx' h

theorem of_space {f : Workspace → Work A} (hf : Opens w (f w) y R) :
    Opens w (Work.space >>= f) y R := by
  rintro l rfl hw
  exact (hf l rfl hw).of_space

/-- Both fail with the same error. -/
theorem failing (e : Failure) : Opens w (throw e : Work A) (throw e : Check B) R := by
  rintro l rfl hw st
  exact ⟨l, rfl, .refl _ _, hw.abandoned⟩

theorem refuse (e : TypeError) :
    Opens w (Work.ofCheck (Recheck.refuse e) : Work A) (Recheck.refuse e : Check B) R := by
  rintro l rfl hw st
  exact ⟨l, rfl, .refl _ _, hw.abandoned⟩

theorem refuse_bind {X : Type} {f : X → Work A} {g : X → Check B} (e : TypeError) :
    Opens w (Work.ofCheck (Recheck.refuse e) >>= f) (Recheck.refuse e >>= g) R :=
  Opens.bind (R := fun _ _ _ => False) (refuse e) fun _ _ _ h => h.elim

end Opens

namespace Follows

variable {A B C D : Type} {w : Workspace}
variable {x : Work A} {y : Check A} {f : A → Work C} {g : A → Check D}
  {R : C → D → Workspace → Prop} {as : List A}

protected theorem pure (a : A) : Follows w (pure a) (pure a) :=
  Opens.pure ⟨rfl, rfl⟩

protected theorem bind (hx : Follows w x y) (hf : ∀ a, Opens w (f a) (g a) R) :
    Opens w (x >>= f) (y >>= g) R := by
  refine Opens.bind hx ?_
  rintro a _ _ ⟨rfl, rfl⟩
  exact hf a

/-- A first step that is made only under a condition. -/
theorem when_bind {c : Prop} [Decidable c] {x' : Work C} {y' : Check D}
    (hx : c → Follows w x y) (hx' : Opens w x' y' R) :
    Opens w (if c then x >>= fun _ => x' else x') (if c then y >>= fun _ => y' else y') R :=
  .ite (fun h => (hx h).bind fun _ => hx') fun _ => hx'

theorem lift (y : Check A) : Follows w (Work.ofCheck y) y := by
  rintro l rfl hw
  refine (tracks_lift y hw.abandoned).mono ?_
  rintro a _ _ ⟨rfl, rfl⟩
  exact ⟨hw.opened, rfl, rfl⟩

theorem forM {f : A → Work PUnit} {g : A → Check PUnit}
    (h : ∀ a ∈ as, Follows w (f a) (g a)) : Follows w (as.forM f) (as.forM g) := by
  induction as with
  | nil => exact .pure _
  | cons a as ih =>
    rw [List.forall_mem_cons] at h
    exact h.1.bind fun _ => ih h.2

theorem mapM {f : A → Work B} {g : A → Check B}
    (h : ∀ a ∈ as, Follows w (f a) (g a)) : Follows w (as.mapM f) (as.mapM g) := by
  induction as with
  | nil => exact .pure _
  | cons a as ih =>
    rw [List.forall_mem_cons] at h
    rw [List.mapM_cons, List.mapM_cons]
    exact h.1.bind fun b => (ih h.2).bind fun bs => Follows.pure (b :: bs)

theorem forIn {f : A → B → Work (ForInStep B)} {g : A → B → Check (ForInStep B)} {b : B}
    (h : ∀ a ∈ as, ∀ b, Follows w (f a b) (g a b)) :
    Follows w (ForIn.forIn as b f) (ForIn.forIn as b g) := by
  induction as generalizing b with
  | nil => exact .pure _
  | cons a as ih =>
    rw [List.forall_mem_cons] at h
    rw [List.forIn_cons, List.forIn_cons]
    refine (h.1 b).bind fun r => ?_
    cases r with
    | done b => exact Follows.pure b
    | yield b => exact ih h.2

end Follows

/-- Goes on after a check that does not touch the workspace. -/
theorem Opens.lift_bind {A C D : Type} {w : Workspace} {y : Check A} {f : A → Work C}
    {g : A → Check D} {R : C → D → Workspace → Prop} (hf : ∀ a, Opens w (f a) (g a) R) :
    Opens w (Work.ofCheck y >>= f) (y >>= g) R :=
  (Follows.lift y).bind hf

/-- A last check, of which the other side returns a function of the result. -/
theorem Opens.lift_return {A B : Type} {w : Workspace} {y : Check A} {g : A → B}
    {R : A → B → Workspace → Prop} (h : ∀ a, R a (g a) w) :
    Opens w (Work.ofCheck y) (y >>= fun a => pure (g a)) R := by
  refine Opens.then_return (Follows.lift y) ?_
  rintro a _ _ ⟨rfl, rfl⟩
  exact h a

/-! ## Entering and leaving -/

section Scopes

variable {A B : Type} {w : Workspace}
variable {w' : Workspace} {l : Ledger} {x : Var} {y : Check B} {R : A → B → Prop} {k : Checker}
  {type t : Term} {f : Unit → Work A} {g : Scope → Check B} {text : Check String}

/-- Taking out of scope what was opened since gives the workspace from before. -/
theorem release_of_opened (hw : w.Settled) (h : w.Opened w') (hl : l.space = w') :
    (l.release w.stack.length).space = w ∧ Ledger.Since w l (l.release w.stack.length) := by
  subst hl
  obtain ⟨hspace, hsince⟩ := Ledger.release_space h.above hw.consistent
  refine ⟨?_, hsince⟩
  have hbullet := h.bullet hw
  calc (l.release w.stack.length).space
    _ = ⟨w.bound, w.stack, l.space.inferred, l.space.indent, l.space.bullet⟩ := hspace
    _ = w := by rw [h.inferred, h.indent, hbullet]

/-- Taking out of scope what is left after a failure is abandoned as well. -/
theorem release_of_abandoned (hw : w.Settled) (h : w.Abandoned l.space) :
    w.Abandoned (l.release w.stack.length).space ∧
      Ledger.Since w l (l.release w.stack.length) := by
  obtain ⟨hspace, hsince⟩ := Ledger.release_space h.above hw.consistent
  refine ⟨?_, hsince⟩
  rw [hspace]
  refine ⟨⟨⟨?_, ?_⟩, List.suffix_refl _⟩, h.inferred, h.indent, h.bullet⟩
  · exact hw.consistent.bound
  · exact hw.consistent.nodup

/-- An operation that cleans up behind it, on both ways out. -/
theorem Tracks.deferring {x : Work A} {w₁ : Workspace} {Q Q' : A → B → Ledger → Prop}
    {cleanup : Ledger → Ledger} (hx : Tracks w₁ l x y Q)
    (hok : ∀ a b l', Ledger.Since w₁ l l' → Q a b l' →
      Ledger.Since w l (cleanup l') ∧ Q' a b (cleanup l'))
    (herror : ∀ l', Ledger.Since w₁ l l' → w₁.Abandoned l'.space →
      Ledger.Since w l (cleanup l') ∧ w.Abandoned (cleanup l').space) :
    Tracks w l (Work.deferring cleanup x) y Q' := by
  intro st
  have h := hx st
  simp only [Work.deferring]
  cases hy : y st with
  | error e st₁ =>
    rw [hy] at h
    obtain ⟨l₁, hl₁, hsince, habandoned⟩ := h
    exact ⟨cleanup l₁, by rw [hl₁], herror l₁ hsince habandoned⟩
  | ok b st₁ =>
    rw [hy] at h
    obtain ⟨a, l₁, hl₁, hsince, hQ⟩ := h
    exact ⟨a, cleanup l₁, by rw [hl₁], hok a b l₁ hsince hQ⟩

theorem opens_enclosed {x : Work A} (hx : Opens w x y fun a b _ => R a b) :
    Opens w (Work.enclosed x) y fun a b w' => R a b ∧ w' = w := by
  rintro l rfl hw
  refine Tracks.of_mark ((hx l rfl hw).deferring (fun a b l' hsince h => ?_) fun l' hsince h => ?_)
  · obtain ⟨hspace, hsince'⟩ := release_of_opened hw h.1 rfl
    refine ⟨hsince.trans hsince', ?_, h.2, hspace⟩
    rw [hspace]
    exact hw.opened
  · obtain ⟨habandoned, hsince'⟩ := release_of_abandoned hw h
    exact ⟨hsince.trans hsince', habandoned⟩

/-- Leaving a scope that was opened in the workspace `w`. -/
theorem tracks_release (hw : w.Settled) (h : w.Opened w') (hl : l.space = w') :
    Tracks w l (Work.release w.stack.length) (pure ()) fun _ _ l' => l'.space = w := by
  intro st
  obtain ⟨hspace, hsince⟩ := release_of_opened hw h hl
  exact ⟨(), l.release w.stack.length, rfl, hsince, hspace⟩

theorem opens_released {x : Work A} (hx : Opens w x y fun a b _ => R a b) :
    Opens w (Work.released x) y fun a b w' => R a b ∧ w' = w := by
  rintro l rfl hw
  refine Tracks.of_mark ((hx l rfl hw).bind_left fun a b l' h => ?_)
  rw [← pure_bind () fun _ => (pure b : Check B)]
  refine (tracks_release hw h.1 rfl).bind fun _ _ l'' hspace => ?_
  refine .pure ⟨?_, h.2, hspace⟩
  rw [hspace]
  exact hw.opened

/-- The set and the stack give the same answer to whether a variable is in scope. -/
theorem contains_eq (h : w.Consistent) (x : Var) :
    w.scope.context.contains x = decide (x ∈ w.bound) := by
  rw [Context.contains]
  exact decide_eq_decide.mpr (Workspace.mem_bound_iff h).symm

theorem tracks_add {type : Option Term} (h : w.Abandoned l.space) :
    Tracks w l (Work.add k x type t) (k.addVar l.space.scope x type t) fun _ scope l' =>
      x ∉ l.space.bound ∧ l' = l.change (.push ⟨x, type⟩) ∧ l'.space.scope = scope := by
  intro st
  have hcontains := contains_eq h.above.consistent x
  rw [Checker.addVar, Context.add?, hcontains]
  by_cases hx : x ∈ l.space.bound
  · rw [if_pos (decide_eq_true hx)]
    have hwork : Work.add k x type t ⟨st, l⟩ =
        .error (.error ((k.about .alreadyBound t).note s!"{x.name} is already bound")) ⟨st, l⟩ := by
      show (if x ∈ l.space.bound then _ else _ : Work Unit) ⟨st, l⟩ = _
      rw [if_pos hx]
      rfl
    exact ⟨l, hwork, .refl _ _, h⟩
  · rw [if_neg (by simpa using hx)]
    have hwork : Work.add k x type t ⟨st, l⟩ = .ok () ⟨st, l.change (.push ⟨x, type⟩)⟩ := by
      show (if x ∈ l.space.bound then _ else _ : Work Unit) ⟨st, l⟩ = _
      rw [if_neg hx]
      rfl
    exact ⟨(), _, hwork, Ledger.since_change _ h.above, hx, rfl, rfl⟩

/-- Bringing a variable into scope and going on from there. -/
theorem opens_add_bind {R : A → B → Workspace → Prop} {type : Option Term}
    (hf : ∀ w', Opens w' (f ()) (g w'.scope) R) :
    Opens w (Work.add k x type t >>= f) (k.addVar w.scope x type t >>= g) R := by
  refine Opens.bind (R := fun _ scope w' => w'.scope = scope) ?_ ?_
  · rintro l rfl hw
    refine (tracks_add hw.abandoned).mono ?_
    rintro _ _ _ ⟨hx, rfl, hscope⟩
    exact ⟨hw.push hx, hscope⟩
  · rintro _ _ w' rfl
    exact hf w'

/-- Only what was noted before is left when the type of a let clause is forgotten. -/
theorem forget_inferred_subset (h : w'.inferred ⊆ (w.note x type).inferred) :
    (w'.forget x).inferred ⊆ w.inferred := by
  intro e he
  obtain ⟨hmem, hne⟩ := List.mem_filter.mp he
  have hne : e.1 ≠ x := by simpa using hne
  cases h hmem with
  | head => exact absurd rfl hne
  | tail _ hmem => exact (List.mem_filter.mp hmem).1

/-- Forgetting the type of a let clause restores what was noted when it came into scope. -/
theorem opened_forget (hw : w.Settled) (hx : x ∉ w.bound)
    (h : ((w.note x type).push ⟨x, none⟩).Opened w') : w.Opened (w'.forget x) := by
  have hinferred : (w'.forget x).inferred = w.inferred := by
    calc (w'.forget x).inferred
      _ = ((w.note x type).forget x).inferred := by
        rw [Workspace.forget, h.inferred]
        rfl
      _ = w.inferred := by rw [Workspace.forget_note, hw.forget_eq hx]
  refine ⟨⟨⟨h.settled.consistent.bound, h.settled.consistent.nodup⟩, ?_, h.settled.bullet⟩,
    (List.suffix_cons _ _).trans h.stack, hinferred, h.indent⟩
  intro e he
  exact h.settled.inferred e (List.mem_filter.mp he).1

theorem addVar_of_contains {scope : Scope} {type : Option Term}
    (h : scope.context.contains x = true) :
    k.addVar scope x type t =
      refuse ((k.about .alreadyBound t).note s!"{x.name} is already bound") := by
  rw [Checker.addVar, Context.add?, if_pos h]

/-- The let clause comes into a scope in which its type is noted, unless it is there already. -/
theorem addVar_note (hw : w.Settled) :
    k.addVar { w.scope with inferred := (x, type) :: w.scope.inferred } x none t =
      k.addVar (w.note x type).scope x none t := by
  by_cases hx : x ∈ w.bound
  · have hcontains : w.scope.context.contains x = true := by
      rw [contains_eq hw.consistent]
      exact decide_eq_true hx
    have hrefuse (scope : Scope) (h : scope.context = w.scope.context) :
        k.addVar scope x none t =
          refuse ((k.about .alreadyBound t).note s!"{x.name} is already bound") :=
      addVar_of_contains (h ▸ hcontains)
    refine (hrefuse _ ?_).trans (hrefuse _ ?_).symm
    · rfl
    · rfl
  · simp only [Workspace.note]
    rw [hw.forget_eq hx]
    rfl

/-- The note of a let clause is forgotten on every way out of its scope. -/
theorem opens_noted (hf : ∀ w', Opens w' (f ()) (g w'.scope) fun a b _ => R a b) :
    Opens w
      (Work.change (.note x type) >>= fun _ =>
        Work.deferring (Ledger.change (.forget x)) (Work.add k x none t >>= f))
      (k.addVar { w.scope with inferred := (x, type) :: w.scope.inferred } x none t >>= g)
      fun a b _ => R a b := by
  rintro l rfl hw
  rw [addVar_note hw]
  have hnoted : (l.space.note x type).Abandoned (l.change (.note x type)).space :=
    ⟨⟨⟨hw.consistent.bound, hw.consistent.nodup⟩, List.suffix_refl _⟩, List.Subset.refl _, rfl, rfl⟩
  have hinner : Tracks (l.space.note x type) (l.change (.note x type))
      (Work.add k x none t >>= f) (k.addVar (l.space.note x type).scope x none t >>= g)
      fun a b l' => x ∉ l.space.bound ∧
        ((l.space.note x type).push ⟨x, none⟩).Opened l'.space ∧ R a b := by
    refine (tracks_add hnoted).bind ?_
    rintro _ _ _ ⟨hx, rfl, rfl⟩
    have hpushed : ((l.space.note x type).push ⟨x, none⟩).Settled := by
      refine ⟨hnoted.above.consistent.push hx, fun e he => ?_, hw.bullet⟩
      cases he with
      | head => exact Finset.mem_insert_self _ _
      | tail _ he =>
        exact Finset.mem_insert_of_mem (hw.inferred e (List.mem_filter.mp he).1)
    refine (hf _ _ rfl hpushed).rebase (List.suffix_cons _ _) (fun w' hw' => ?_) ?_
    · exact ⟨hw'.above.trans (List.suffix_cons _ _), hw'.inferred, hw'.indent, hw'.bullet⟩
    · exact fun a b l' h => ⟨hx, h⟩
  refine .of_change hw.above (hinner.deferring ?_ ?_)
  · rintro a b l' hsince ⟨hx, ho, hR⟩
    have hopened := opened_forget hw hx ho
    have hover : l.space.Over l'.space :=
      ⟨ho.settled.consistent, (List.suffix_cons _ _).trans ho.stack⟩
    have hsince : Ledger.Since l.space _ l' := hsince.mono (List.suffix_refl _)
    exact ⟨hsince.trans (Ledger.since_change _ hover), hopened, hR⟩
  · intro l' hsince h
    have hover : l.space.Over l'.space := ⟨h.above.consistent, h.above.stack⟩
    have hsince : Ledger.Since l.space _ l' := hsince.mono (List.suffix_refl _)
    refine ⟨hsince.trans (Ledger.since_change _ hover), ?_⟩
    exact ⟨⟨⟨hover.consistent.bound, hover.consistent.nodup⟩, hover.stack⟩,
      forget_inferred_subset h.inferred, h.indent, h.bullet⟩

/-- The bullet of a line is that of its indentation. -/
theorem line_eq (hw : w.Settled) (text : String) :
    Work.line w text = Trace.line w.scope.depth text := by
  show _ = Trace.line w.indent text
  rw [Work.line, hw.bullet, Trace.line]

/-- Coming back from the level below. -/
theorem Workspace.Opened.lift (h : w.deepen.Opened w') : w.Opened w'.lift where
  settled :=
    { consistent := ⟨h.settled.consistent.bound, h.settled.consistent.nodup⟩
      inferred := h.settled.inferred
      bullet := congrArg (· - 1) h.settled.bullet }
  stack := h.stack
  inferred := h.inferred
  indent := congrArg (· - 1) h.indent

theorem Workspace.Abandoned.lift (h : w.deepen.Abandoned w') :
    w.Abandoned w'.lift where
  above := ⟨⟨h.above.consistent.bound, h.above.consistent.nodup⟩, h.above.stack⟩
  inferred := h.inferred
  indent := congrArg (· - 1) h.indent
  bullet := congrArg (· - 1) h.bullet

theorem tracks_deepened {x : Work A} {R : A → B → Workspace → Prop} (hw : l.space.Settled)
    (hx : Opens l.space.deepen x y R) :
    Tracks l.space l (Work.change .deepen >>= fun _ => Work.deferring (Ledger.change .lift) x) y
      fun a b l' => l.space.Opened l'.space ∧ ∃ w', R a b w' ∧ l'.space = w'.lift := by
  refine .of_change hw.above ((hx (l.change .deepen) rfl hw.deepen).deferring ?_ ?_)
  · rintro a b l' hsince ⟨ho, hR⟩
    have hover : l.space.Over l'.space := ⟨ho.settled.consistent, ho.stack⟩
    have hsince : Ledger.Since l.space (l.change .deepen) l' := hsince.mono (List.suffix_refl _)
    exact ⟨hsince.trans (Ledger.since_change _ hover), ho.lift, l'.space, hR, rfl⟩
  · intro l' hsince h
    have hover : l.space.Over l'.space := ⟨h.above.consistent, h.above.stack⟩
    have hsince : Ledger.Since l.space (l.change .deepen) l' := hsince.mono (List.suffix_refl _)
    exact ⟨hsince.trans (Ledger.since_change _ hover), h.lift⟩

theorem opens_item {x : Work A} {y : Scope → Check B} {R : A → B → Workspace → Prop}
    (hx : Opens w.deepen x (y w.deepen.scope) R) :
    Opens w (Work.item k text x) (traced k w.scope text y)
      fun a b w' => ∃ w₁, R a b w₁ ∧ w' = w₁.lift := by
  rintro l rfl hw
  refine Tracks.of_space ?_
  rw [traced]
  by_cases hreach : Trace.reaches k.traceDepth l.space.indent = true
  · rw [if_pos hreach, if_pos (show Trace.reaches k.traceDepth l.space.scope.depth = true from hreach)]
    refine (tracks_lift text hw.abandoned).bind ?_
    rintro s _ l' ⟨rfl, hl⟩
    rw [hl]
    refine Tracks.bind (Q := fun _ _ l' => l' = l) (fun st => ⟨(), l, ?_, .refl _ _, rfl⟩) ?_
    · rw [← line_eq hw]
      rfl
    · rintro _ _ _ rfl
      exact tracks_deepened hw hx
  · rw [if_neg hreach, if_neg (show ¬ Trace.reaches k.traceDepth l.space.scope.depth = true from hreach)]
    exact tracks_deepened hw hx

theorem follows_item {x : Work A} {y : Scope → Check A}
    (hx : Follows w.deepen x (y w.deepen.scope)) :
    Follows w (Work.item k text x) (traced k w.scope text y) := by
  refine Opens.mono (opens_item hx) ?_
  rintro a _ _ ⟨_, ⟨rfl, rfl⟩, rfl⟩
  exact ⟨rfl, w.lift_deepen⟩

end Scopes

end Recheck
