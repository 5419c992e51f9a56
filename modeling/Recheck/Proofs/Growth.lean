import Recheck.Proofs.Solutions
import Recheck.Proofs.Workspace.Rules

/-!
# Recheck — what a solver accumulates

One solver serves any number of calls: comparisons, equations that are handed to it, and
checks of terms and declarations. Whatever they are and however they end, the state of the
solver only grows (`calls_grow`):

* an occurrence of an unknown that is solved stays solved, and by the same term;
* comparisons are put off by being added at the end, and those before stay as they are;
* a solver that refuses equations between terms neither solves nor puts off any, and one
  that does not put off comparisons of levels has none of these added.

The way from one state to a later one is an invariant of the primitive changes, so it is
enough to look at these, and the guards in front of them are what the proof rests on.
-/

namespace Recheck

/-! ## Growing -/

/-- What may have become of the state of a solver. -/
structure SolverState.Grows (st st' : SolverState) : Prop where
  solutions : st.store.Extends st'.store
  deferred : st.equations.deferred <+: st'.equations.deferred
  levels : st.equations.levels <+: st'.equations.levels
  levelsOnly : st'.equations.levelsOnly = st.equations.levelsOnly
  deferLevels : st'.equations.deferLevels = st.equations.deferLevels
  /-- Nothing is solved or put off if equations between terms are refused. -/
  refusing : st.equations.levelsOnly = true →
    st'.store.solutions = st.store.solutions ∧ st'.equations.deferred = st.equations.deferred
  /-- No comparison of levels is put off if that is not wanted. -/
  deciding : st.equations.deferLevels = false → st'.equations.levels = st.equations.levels

namespace SolverState.Grows

theorem refl (st : SolverState) : st.Grows st :=
  ⟨.refl _, List.prefix_rfl, List.prefix_rfl, rfl, rfl, fun _ => ⟨rfl, rfl⟩, fun _ => rfl⟩

theorem trans {st₁ st₂ st₃ : SolverState} (h : st₁.Grows st₂) (h' : st₂.Grows st₃) :
    st₁.Grows st₃ where
  solutions := h.solutions.trans h'.solutions
  deferred := h.deferred.trans h'.deferred
  levels := h.levels.trans h'.levels
  levelsOnly := h'.levelsOnly.trans h.levelsOnly
  deferLevels := h'.deferLevels.trans h.deferLevels
  refusing hrefuses := by
    -- the state in between refuses equations as well, since the flag stays
    have hsame := h.refusing hrefuses
    have hsame' := h'.refusing (h.levelsOnly.trans hrefuses)
    exact ⟨hsame'.1.trans hsame.1, hsame'.2.trans hsame.2⟩
  deciding hdecides := (h'.deciding (h.deferLevels.trans hdecides)).trans (h.deciding hdecides)

variable {st₀ : SolverState} {s : Store} {q : Equations} {st : SolverState}

/-- A change of the store that is not one of the solutions. -/
theorem setStore (h : st₀.Grows ⟨s, q⟩) {s' : Store} (heq : s'.solutions = s.solutions) :
    st₀.Grows ⟨s', q⟩ :=
  { h with
    solutions := fun n u hu => by
      show s'.solutions.get? n = some u
      rw [heq]
      exact h.solutions n u hu
    refusing := fun hrefuses => ⟨heq.trans (h.refusing hrefuses).1, (h.refusing hrefuses).2⟩ }

/-- The state accepts equations between terms only if the first one did. -/
theorem accepting (h : st₀.Grows st)
    (haccepts : st.equations.levelsOnly = false) : ¬ st₀.equations.levelsOnly = true := by
  rw [← h.levelsOnly, haccepts]
  exact Bool.false_ne_true

theorem solve (h : st₀.Grows ⟨s, q⟩) {n : Nat} (t : Term) (haccepts : q.levelsOnly = false)
    (hnone : s.solutions.get? n = none) :
    st₀.Grows ⟨{ s with solutions := s.solutions.insert n t }, q⟩ :=
  { h with
    solutions := h.solutions.trans (.solve t hnone)
    refusing := fun hrefuses => absurd hrefuses (h.accepting haccepts) }

theorem defer (h : st₀.Grows st) (e : Equation) (haccepts : st.equations.levelsOnly = false) :
    st₀.Grows { st with equations.deferred := st.equations.deferred ++ [e] } :=
  { h with
    deferred := h.deferred.trans (List.prefix_append _ _)
    refusing := fun hrefuses => absurd hrefuses (h.accepting haccepts) }

theorem deferLevel (h : st₀.Grows st) (e : LevelEquation)
    (hdefers : st.equations.deferLevels = true) :
    st₀.Grows { st with equations.levels := st.equations.levels ++ [e] } :=
  { h with
    levels := h.levels.trans (List.prefix_append _ _)
    deciding := fun hdecides => by
      -- a comparison is added only by a solver that puts them off
      rw [h.deferLevels, hdecides] at hdefers
      cases hdefers }

/-- The primitive changes let a state grow. -/
theorem solverInvariant (sig : Signature) (st₀ : SolverState) :
    SolverInvariant sig .unrestricted st₀.Grows where
  good _ := Region.good_unrestricted _
  number h := h.setStore rfl
  define h _ := h.setStore rfl
  rewrite _ h _ _ _ _ := h.setStore rfl
  narrow h _ _ _ := h.setStore rfl
  mapping h _ := h.setStore rfl
  defer e h haccepts := h.defer e haccepts
  deferLevel e h hdefers := h.deferLevel e hdefers
  solve h haccepts hnone _ := h.solve _ haccepts hnone

end SolverState.Grows

/-! ## Calls -/

/-- A checker keeps every invariant of its solver, whatever it is called for. -/
theorem Task.keeps_answer {k : Checker} {I : SolverState → Prop}
    (hI : SolverInvariant k.sig .unrestricted I) (fuel : Nat) (Γ : Context) (task : Task) :
    Preserves I (task.answer k fuel Γ) := by
  have hsig := Region.signature_unrestricted k.sig
  have hself := Typing.respects_term hI hsig fuel
  have hscope : (Scope.ofContext Γ).Within .unrestricted :=
    ⟨fun _ _ u _ => Region.within_unrestricted u, by simp [Scope.ofContext]⟩
  -- every task is one call of the checker, of which only the result is turned into an answer
  cases task with
  | check t expected =>
    exact (hself _ t expected hscope (Region.within_unrestricted t)
      fun u _ => Region.within_unrestricted u).then_pure
  | checkType t =>
    exact (Typing.keeps_sortOf hI hsig hself fuel hscope (Region.within_unrestricted t)).bind
      fun _ _ => .pure trivial
  | checkData d =>
    exact (Typing.keeps_dataDecl hI hsig fuel d hscope).then_pure
  | checkFunc f =>
    exact (Typing.keeps_funcDecl hI hsig fuel f hscope).then_pure

/-- The solver that a check leaves behind, whether it succeeds or fails. -/
def Check.solverAfter {A : Type} (x : Check A) (st : CheckState) : SolverState :=
  match x st with
  | .ok _ st => st.solver
  | .error _ st => st.solver

theorem Keeps.solverAfter {A : Type} {I : SolverState → Prop} {x : Check A} {Q : A → Prop}
    (h : Keeps I x Q) {st : CheckState} (hst : I st.solver) : I (x.solverAfter st) := by
  have hx := h () st hst
  rw [Check.solverAfter]
  cases hr : x st with
  | ok a st' => rw [hr] at hx; exact hx.1
  | error e st' => rw [hr] at hx; exact hx

/-- What a solver is used for. Every call comes with declarations of its own, and between the
calls the store may change in every way that is not a solution. -/
inductive Call where
  | compare (sig : Signature) (fuel : Nat) (span : Span) (r : Relation) (a b : Term)
      (type : Option Term)
  | addEquation (e : Equation)
  | check (k : Checker) (fuel : Nat) (Γ : Context) (task : Task) (trace : Array String)
  | setStore (s : Store)

/-- The state that a call leaves behind, whatever its outcome. -/
def Call.after (st : SolverState) : Call → SolverState
  | .compare sig fuel span r a b type =>
    (Solver.compare sig fuel span r a b type).stateAfter st
  | .addEquation e => (Solver.addEquation e).stateAfter st
  | .check k fuel Γ task trace => (task.answer k fuel Γ).solverAfter ⟨st, trace⟩
  | .setStore s => { st with store := { s with solutions := st.store.solutions } }

theorem Call.grows_after (st : SolverState) (call : Call) : st.Grows (call.after st) := by
  have hstart := SolverState.Grows.refl st
  cases call with
  | compare sig fuel span r a b type =>
    exact ((SolverState.Grows.solverInvariant sig st).compare
      (Region.signature_unrestricted sig) fuel span r type (Region.within_unrestricted a)
      (Region.within_unrestricted b)).stateAfter hstart
  | addEquation e =>
    -- declarations play no part in this, so those of the prelude will do
    have hI := SolverState.Grows.solverInvariant Prelude.signature st
    exact (Solver.keeps_addEquation hI.toEquationInvariant e).stateAfter hstart
  | check k fuel Γ task trace =>
    have hstart : st.Grows (CheckState.mk st trace).solver := hstart
    exact (task.keeps_answer (SolverState.Grows.solverInvariant k.sig st) fuel Γ).solverAfter
      hstart
  | setStore s => exact hstart.setStore rfl

/-- The state of a solver only grows, over any sequence of calls. -/
theorem calls_grow (calls : List Call) (st : SolverState) :
    st.Grows (calls.foldl Call.after st) := by
  induction calls generalizing st with
  | nil => exact .refl st
  | cons call calls ih => exact (call.grows_after st).trans (ih (call.after st))

end Recheck
