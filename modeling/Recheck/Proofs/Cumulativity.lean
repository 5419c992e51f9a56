import Recheck.Proofs.Heads

/-!
# Recheck — data types at different sorts

A data type is used at a sort argument, and the universe that an instance lives in is the sort
of the declaration with the argument put in. The comparison of two instances looks at the
arguments and not at the sort arguments: `Conversion.run_data_sortArg`. So nothing in it
keeps a universe from being lowered (`UniversePolymorphic.instance_lowered`).

What is left is a matter of the sort arguments alone. If the levels that the sort of the
declaration mentions are not lowered, then neither is the universe
(`compare_data_universes`).
-/

namespace Recheck

/-! ## Raising the levels of a substitution -/

namespace Extent

theorem Below.add {e f : Extent} (h : e.Below f) (n : Int) : (e.add n).Below (f.add n) := by
  cases f with
  | infinity => trivial
  | closed d =>
    cases e with
    | infinity => exact h
    | closed c => exact Int.add_le_add_right h n
    | var v c low => exact h
  | var w d low' =>
    cases e with
    | infinity => exact h
    | closed c => exact Int.add_le_add_right h n
    | var v c low =>
      obtain ⟨hvar, hconst, hlow⟩ := h
      exact ⟨hvar, Int.add_le_add_right hconst n, Int.add_le_add_right hlow n⟩

theorem Below.atLeast {e f : Extent} (h : e.Below f) (k : Int) :
    (e.atLeast k).Below (f.atLeast k) :=
  (h.atLeast_right k).atLeast_left (closed_below_atLeast f (Int.le_refl k))

end Extent

namespace Level

/-- The variable of the level, if it is replaced, is replaced by a level that is not lower in
the second substitution than in the first. -/
def Rises (σ τ : LevelSubst) (l : Level) : Prop :=
  match l.replacement? σ, l.replacement? τ with
  | none, none => True
  | some r, some r' => r.le r' = .yes
  | _, _ => False

/-- Substitution is monotone in the levels that are put in. -/
theorem subst_le_subst {l : Level} {σ τ : LevelSubst} (hσ : l.CanSubst σ) (hτ : l.CanSubst τ)
    (h : l.Rises σ τ) : (l.subst σ).le (l.subst τ) = .yes := by
  rw [le_eq_yes_iff]
  cases l with
  | infinity => trivial
  | closed c => exact .refl _
  | var v c m =>
    unfold Rises replacement? at h
    split at h
    next hnone hnone' =>
      simp only [subst, hnone, hnone']
      exact .refl _
    next r r' hget hget' =>
      rw [extent_subst_var hget hσ, extent_subst_var hget' hτ]
      have hadd := (le_eq_yes_iff.mp h).add c.toInt
      split
      · exact hadd.atLeast m.toInt
      · exact hadd
    next => exact h.elim

end Level

namespace USort

/-- The levels that the sort mentions are not lower in the second substitution than in the
first. -/
def Rises (σ τ : LevelSubst) (s : USort) : Prop := s.p.Rises σ τ ∧ s.h.Rises σ τ

/-- A sort does not come down if the levels that it mentions do not. -/
theorem compare_subst_subst {s : USort} {σ τ : LevelSubst} (hσ : s.CanSubst σ) (hτ : s.CanSubst τ)
    (h : s.Rises σ τ) : compare .le (s.subst σ) (s.subst τ) = .ok true :=
  compare_le_iff.mpr
    (.inr ⟨Level.subst_le_subst hσ.1 hτ.1 h.1, Level.subst_le_subst hσ.2 hτ.2 h.2⟩)

end USort

/-! ## Comparing instances of data types -/

/-- The comparison of two instances of data types is the same at all sorts. -/
theorem Conversion.run_data_sortArg (sig : Signature) (span : Span) (fuel : Nat) (ρ : Renaming)
    (r : Relation) (i j : Nat) (d e : DataName) (s₁ s₂ t₁ t₂ : USort) (args args' : List Term)
    (type : Option Term) :
    run sig span fuel ρ r (.mk i (.data ⟨d, s₁, args⟩)) (.mk j (.data ⟨e, s₂, args'⟩)) type =
      run sig span fuel ρ r (.mk i (.data ⟨d, t₁, args⟩)) (.mk j (.data ⟨e, t₂, args'⟩)) type := by
  cases fuel with
  | zero => rfl
  | succ fuel =>
    by_cases hsame : (i == j) = true
    · have hfirst : Term.same (.mk i (.data ⟨d, s₁, args⟩)) (.mk j (.data ⟨e, s₂, args'⟩)) = true :=
        hsame
      have hsecond : Term.same (.mk i (.data ⟨d, t₁, args⟩)) (.mk j (.data ⟨e, t₂, args'⟩)) = true :=
        hsame
      rw [run_of_same hfirst, run_of_same hsecond]
    have hfirst : Term.same (.mk i (.data ⟨d, s₁, args⟩)) (.mk j (.data ⟨e, s₂, args'⟩)) = false :=
      Bool.eq_false_iff.mpr hsame
    have hsecond : Term.same (.mk i (.data ⟨d, t₁, args⟩)) (.mk j (.data ⟨e, t₂, args'⟩)) = false :=
      Bool.eq_false_iff.mpr hsame
    rw [run, run]
    cases fuel with
    | zero =>
      -- both sides end before the first term is reduced
      rw [step, step, hfirst, hsecond]
      rfl
    | succ fuel =>
      rw [step_of_isCanonical rfl rfl hfirst, step_of_isCanonical rfl rfl hsecond]
      rfl

/-- Instances of a data type that compare do so at all sorts. They live in universes that are
ordered alike if the sort arguments do not lower the levels that the sort of the data type
mentions. -/
theorem compare_data_universes (sig : Signature) (fuel : Nat) (span : Span) (i j : Nat)
    (d : DataName) (s₁ s₂ : USort) (args args' : List Term) (type : Option Term)
    (st st' : SolverState)
    (h : Solver.compare sig fuel span .le (.mk i (.data ⟨d, s₁, args⟩))
      (.mk j (.data ⟨d, s₂, args'⟩)) type st = .ok true st') :
    (∀ t₁ t₂, Solver.compare sig fuel span .le (.mk i (.data ⟨d, t₁, args⟩))
      (.mk j (.data ⟨d, t₂, args'⟩)) type st = .ok true st') ∧
    ((sig.data d).sort.CanSubst s₁.instantiation → (sig.data d).sort.CanSubst s₂.instantiation →
      (sig.data d).sort.Rises s₁.instantiation s₂.instantiation →
      USort.compare .le ((sig.data d).sort.subst s₁.instantiation)
        ((sig.data d).sort.subst s₂.instantiation) = .ok true) := by
  refine ⟨fun t₁ t₂ => ?_, USort.compare_subst_subst⟩
  rw [← h]
  exact congrFun (Conversion.run_data_sortArg ..) st

namespace UniversePolymorphic

def d : DataName := ⟨13, "D"⟩

/-- A data type of the given sort, without parameters. -/
def signature (sort : USort) : Signature :=
  { (default : Signature) with dataDefs := Table.empty.insert 13 ⟨[], sort, []⟩ }

def state : SolverState := .ofStore (.start 20)

/-- Whether the data type at one sort is below the data type at another. -/
def compares (sort s₁ s₂ : USort) : Bool :=
  match Solver.compare (signature sort) 2 default .le (.mk 14 (.data ⟨d, s₁, []⟩))
    (.mk 15 (.data ⟨d, s₂, []⟩)) none state with
  | .ok answer _ => answer
  | .error _ _ => false

/-- The sort `\\Type (\\max lp+1 3, lh)`. -/
def bounded : USort := ⟨.var .predicative 1 3, .ofVar .homotopy⟩

/-- From `\\Set0` to `\\Set5` the universe of the instance is raised from `\\Set3` to `\\Set6`. -/
theorem instance_raised :
    USort.compare .le (bounded.subst USort.set0.instantiation)
      (bounded.subst (USort.ofSet 5).instantiation) = .ok true := by
  have hadd {c n : Int64} (h : Level.Representable c n) (r : Level)
      (hr : some (Level.closed c) = some r) : r.CanAdd n := by
    cases hr
    exact h
  refine (compare_data_universes (signature bounded) 2 default 14 15 d .set0 (.ofSet 5) [] [] none
    state state rfl).2 ⟨?_, ?_⟩ ⟨?_, ?_⟩ ⟨rfl, rfl⟩
  · exact hadd (c := 0) (by decide)
  · exact hadd (c := 0) (by decide)
  · exact hadd (c := 5) (by decide)
  · exact hadd (c := 0) (by decide)

/-- An instance in `\\Set1` is below one in `\\Set0`. And the universe of an instance that compares
can be lower though its sort argument is higher, if the level overflows. -/
theorem instance_lowered :
    compares .std (.ofSet 1) .set0 = true ∧
      USort.compare .le (USort.std.subst (USort.ofSet 1).instantiation)
        (USort.std.subst USort.set0.instantiation) = .ok false ∧
      compares ⟨.var .predicative 1 1, .closed 0⟩ .set0 (.ofSet Int64.maxValue) = true ∧
      USort.compare .le
        (USort.subst ⟨.var .predicative 1 1, .closed 0⟩ USort.set0.instantiation)
        (USort.subst ⟨.var .predicative 1 1, .closed 0⟩ (USort.ofSet Int64.maxValue).instantiation) =
        .ok false := by
  refine ⟨?_, ?_, ?_, ?_⟩ <;> rfl

end UniversePolymorphic

end Recheck
