import Recheck.Proofs.Heads
import Recheck.Proofs.Hierarchy

/-!
# Recheck — level comparisons that are put off

A solver may accept a comparison of sorts that hangs on the values of level variables, and put
off what it could not decide. What it puts off is enough: at every valuation at which the
recorded comparisons hold, the sorts with the values put in for the variables compare without
any solver (`Solver.compareSorts_obligations`). It may be too much: an equation is put off even
if no values satisfy it, and then the order that it implies is refused
(`Solver.compareLevels_eq_orders`).

Some of the levels are decided on the spot and some are recorded, so the proof follows the
values: `USort.HoldsAt` is what the comparison asks of them, and it is read off the run on one
side (`Solver.ensures_compareSorts`) and carried to closed sorts on the other
(`USort.compare_of_holdsAt`).
-/

namespace Recheck

/-- The comparison that was put off holds of the values. -/
def LevelEquation.Holds (ρ : LevelVar → Nat) (e : LevelEquation) : Prop :=
  e.relation.Holds (e.a.value ρ) (e.b.value ρ)

/-! ## Recording -/

/-- From one state to the other, just these comparisons of levels were put off, and none if the
solver does not put them off. -/
structure SolverState.PutsOff (st : SolverState) (E : List LevelEquation) (st' : SolverState) :
    Prop where
  state : st' = { st with equations.levels := st.equations.levels ++ E }
  allowed : E ≠ [] → st.equations.deferLevels = true

namespace SolverState.PutsOff

variable {st st₁ st₂ : SolverState} {E E' : List LevelEquation}

theorem nil (st : SolverState) : st.PutsOff [] st := by
  refine ⟨?_, fun h => absurd rfl h⟩
  rw [List.append_nil]

theorem append (h : st.PutsOff E st₁) (h' : st₁.PutsOff E' st₂) : st.PutsOff (E ++ E') st₂ := by
  obtain ⟨rfl, hfirst⟩ := h
  obtain ⟨rfl, hsecond⟩ := h'
  refine ⟨by simp only [List.append_assoc], fun hne => ?_⟩
  by_cases hE : E = []
  · refine hsecond fun hE' => hne ?_
    rw [hE, hE', List.append_nil]
  · exact hfirst hE

end SolverState.PutsOff

namespace Solver

variable {span : Span} {r : Relation} {st st' : SolverState}

/-- An operation that answers `true` only by putting off comparisons that together imply the
proposition. -/
def Ensures (x : Solver Bool) (P : (LevelVar → Nat) → Prop) : Prop :=
  ∀ st st', x st = .ok true st' →
    ∃ E, st.PutsOff E st' ∧ ∀ ρ, (∀ e ∈ E, e.Holds ρ) → P ρ

variable {P Q : (LevelVar → Nat) → Prop}

theorem Ensures.mono {x : Solver Bool} (h : Ensures x P) (himp : ∀ ρ, P ρ → Q ρ) :
    Ensures x Q := by
  intro st st' hrun
  obtain ⟨E, hE, hP⟩ := h st st' hrun
  exact ⟨E, hE, fun ρ hρ => himp ρ (hP ρ hρ)⟩

theorem ensures_true (h : ∀ ρ, P ρ) : Ensures (pure true) P := by
  rintro st _ ⟨⟩
  exact ⟨[], .nil st, fun ρ _ => h ρ⟩

theorem ensures_false : Ensures (pure false) P := by
  rintro st st' ⟨⟩

/-- A comparison is put off by the solvers that put off, and it is recorded as it stands. -/
theorem addLevelEquation_accepts_iff {e : LevelEquation} :
    addLevelEquation e st = .ok true st' ↔ st.PutsOff [e] st' := by
  obtain ⟨store, ⟨deferred, levels, levelsOnly, deferLevels⟩⟩ := st
  constructor
  · intro hrun
    cases deferLevels with
    | false => cases hrun
    | true =>
      cases hrun
      exact ⟨rfl, fun _ => rfl⟩
  · rintro ⟨rfl, hallowed⟩
    cases deferLevels with
    | false => cases hallowed (List.cons_ne_nil e [])
    | true => rfl

theorem ensures_addLevelEquation (e : LevelEquation) :
    Ensures (addLevelEquation e) fun ρ => e.Holds ρ := by
  intro st st' hrun
  exact ⟨[e], addLevelEquation_accepts_iff.mp hrun, fun ρ h => h e (List.mem_singleton.mpr rfl)⟩

theorem Ensures.both {x y : Solver Bool} (hx : Ensures x P) (hy : Ensures y Q) :
    Ensures (do if ← x then y else return false) fun ρ => P ρ ∧ Q ρ := by
  intro st st' hrun
  obtain ⟨answer, st₁, hrun₁, hrun₂⟩ := bind_eq_ok_iff.mp hrun
  cases answer with
  | false => cases hrun₂
  | true =>
    obtain ⟨E, hE, hP⟩ := hx st st₁ hrun₁
    obtain ⟨E', hE', hQ⟩ := hy st₁ st' hrun₂
    refine ⟨E ++ E', hE.append hE', fun ρ h => ⟨hP ρ fun e he => ?_, hQ ρ fun e he => ?_⟩⟩
    · exact h e (List.mem_append_left E' he)
    · exact h e (List.mem_append_right E he)

/-! ## What an accepted comparison ensures -/

theorem ensures_compareLevels (span : Span) (r : Relation) (a b : Level) :
    Ensures (compareLevels span r a b) fun ρ => r.Holds (a.value ρ) (b.value ρ) := by
  -- for any two levels, since `ge` exchanges the sides
  have hle (a b : Level) : Ensures (compareLevels span .le a b) fun ρ => a.value ρ ≤ b.value ρ := by
    rw [compareLevels, Level.compareWith, Level.compareWith.leWith]
    split
    next hyes => exact ensures_true (Level.le_eq_yes_iff_value.mp hyes)
    next => exact ensures_false
    next => exact ensures_addLevelEquation ⟨a, b, .le, span⟩
  cases r with
  | eq =>
    rw [compareLevels, Level.compareWith]
    split
    next hequal => exact ensures_true (Level.equal_iff_value.mp hequal)
    next => exact ensures_addLevelEquation ⟨a, b, .eq, span⟩
  | le => exact hle a b
  | ge => exact hle b a
  | other code => rintro st st' ⟨⟩

/-- An accepted comparison of sorts holds of the values wherever the comparisons do that were
put off. -/
theorem ensures_compareSorts (span : Span) (r : Relation) (a b : USort) :
    Ensures (compareSorts span r a b) fun ρ => USort.HoldsAt ρ r a b := by
  have hlevels (r : Relation) (a b : USort) :
      Ensures (USort.compareWith.levelsWith (fun r a b => addLevelEquation ⟨a, b, r, span⟩) r a b)
        fun ρ => USort.LevelsHoldAt ρ r a b :=
    (ensures_compareLevels span r a.p b.p).both (ensures_compareLevels span r a.h b.h)
  have hle (a b : USort) : Ensures (compareSorts span .le a b) fun ρ => USort.HoldsAt ρ .le a b := by
    rw [compareSorts, USort.compareWith, USort.compareWith.leWith]
    split
    next hprop => exact ensures_true fun _ => .inl hprop
    next => exact (hlevels .le a b).mono fun _ => .inr
  cases r with
  | eq =>
    rw [compareSorts, USort.compareWith]
    split
    next hprop => exact ensures_true fun _ => .inl (Bool.and_eq_true_iff.mp hprop)
    next => exact (hlevels .eq a b).mono fun _ => .inr
  | le => exact hle a b
  | ge => exact hle b a
  | other code => exact hlevels (.other code) a b

/-- An operation that always answers. -/
def Answers (x : Solver Bool) : Prop := ∀ st, ∃ answer st', x st = .ok answer st'

theorem answers_pure (answer : Bool) : Answers (pure answer) := fun _ => ⟨_, _, rfl⟩

theorem answers_addLevelEquation (e : LevelEquation) : Answers (addLevelEquation e) := by
  intro st
  obtain ⟨store, ⟨deferred, levels, levelsOnly, deferLevels⟩⟩ := st
  cases deferLevels <;> exact ⟨_, _, rfl⟩

theorem Answers.both {x y : Solver Bool} (hx : Answers x) (hy : Answers y) :
    Answers (do if ← x then y else return false) := by
  intro st
  obtain ⟨answer, st₁, hrun⟩ := hx st
  rw [run_bind hrun]
  cases answer with
  | false => exact ⟨_, _, rfl⟩
  | true => exact hy st₁

/-- An inequality of sorts is always answered. -/
theorem answers_compareSorts_le (span : Span) (a b : USort) :
    Answers (compareSorts span .le a b) := by
  have hlevels (a b : Level) : Answers (compareLevels span .le a b) := by
    rw [compareLevels, Level.compareWith, Level.compareWith.leWith]
    split
    · exact answers_pure true
    · exact answers_pure false
    · exact answers_addLevelEquation _
  rw [compareSorts, USort.compareWith, USort.compareWith.leWith]
  split
  · exact answers_pure true
  · exact (hlevels a.p b.p).both (hlevels a.h b.h)

end Solver

/-! ## Closed sorts -/

/-- The variable of the level, if it has one, is replaced by its value. -/
def Level.ClosedBy (σ : LevelSubst) (ρ : LevelVar → Nat) : Level → Prop
  | .var v _ _ => ∃ k : Int64, σ.get? v = some (.closed k) ∧ k.toInt = ρ v
  | _ => True

/-- The variables of the sort are replaced by their values, and nothing overflows. -/
structure USort.ClosedBy (σ : LevelSubst) (ρ : LevelVar → Nat) (s : USort) : Prop where
  p : s.p.ClosedBy σ ρ
  h : s.h.ClosedBy σ ρ
  canSubst : s.CanSubst σ

section Closed

variable {σ : LevelSubst} {ρ : LevelVar → Nat} {a b : USort} {r : Relation}

/-- A closed level has the value of the level that it comes from. -/
theorem Level.value_subst_of_closedBy {l : Level} (hclosed : l.ClosedBy σ ρ) (h : l.CanSubst σ)
    (ρ' : LevelVar → Nat) : (l.subst σ).value ρ' = l.value ρ := by
  cases l with
  | infinity | closed => rfl
  | var v c m =>
    obtain ⟨k, hget, hk⟩ := hclosed
    have hact : σ.act ρ' v = (ρ v : Int) := by
      rw [LevelSubst.act_of_get?_some hget, value, hk]
    have hv : 0 ≤ σ.act ρ' v := by
      rw [hact]
      exact WithTop.coe_le_coe.mpr (Int.natCast_nonneg _)
    rw [value_subst_var h hv, valueAt, hact]
    exact (WithTop.coe_max ..).symm

namespace USort

theorem isProp_subst (σ : LevelSubst) (h : a.isProp = true) : (a.subst σ).isProp = true := by
  obtain ⟨p, l⟩ := a
  cases l with
  | closed => exact h
  | infinity | var => cases h

theorem LevelsHoldAt.subst (h : LevelsHoldAt ρ r a b) (ha : a.ClosedBy σ ρ) (hb : b.ClosedBy σ ρ)
    (ρ' : LevelVar → Nat) : LevelsHoldAt ρ' r (a.subst σ) (b.subst σ) := by
  obtain ⟨hp, hh⟩ := h
  rw [← Level.value_subst_of_closedBy ha.p ha.canSubst.1 ρ',
    ← Level.value_subst_of_closedBy hb.p hb.canSubst.1 ρ'] at hp
  rw [← Level.value_subst_of_closedBy ha.h ha.canSubst.2 ρ',
    ← Level.value_subst_of_closedBy hb.h hb.canSubst.2 ρ'] at hh
  exact ⟨hp, hh⟩

/-- What holds of the values holds of the closed sorts, and a solver is not needed for them. -/
theorem compare_of_holdsAt (h : HoldsAt ρ r a b) (ha : a.ClosedBy σ ρ) (hb : b.ClosedBy σ ρ) :
    compare r (a.subst σ) (b.subst σ) = .ok true := by
  refine (compare_iff_holdsAt r).mpr fun ρ' => ?_
  cases r with
  | eq => exact h.imp (.imp (isProp_subst σ) (isProp_subst σ)) (·.subst ha hb ρ')
  | le => exact h.imp (isProp_subst σ) (·.subst ha hb ρ')
  | ge => exact h.imp (isProp_subst σ) (·.subst hb ha ρ')
  | other code => exact h.subst ha hb ρ'

end USort

end Closed

namespace Solver

/-- What a solver puts off when it accepts a comparison of sorts is enough for the comparison to
hold of the sorts with their variables replaced by values. -/
theorem compareSorts_obligations {span : Span} {r : Relation} {a b : USort} {st st' : SolverState}
    (h : compareSorts span r a b st = .ok true st') :
    ∃ E, st' = { st with equations.levels := st.equations.levels ++ E } ∧
      ∀ (ρ : LevelVar → Nat) (σ : LevelSubst), (∀ e ∈ E, e.Holds ρ) →
        a.ClosedBy σ ρ → b.ClosedBy σ ρ →
        USort.compare r (a.subst σ) (b.subst σ) = .ok true := by
  obtain ⟨E, hE, hholds⟩ := ensures_compareSorts span r a b st st' h
  exact ⟨E, hE.state, fun ρ σ hρ => USort.compare_of_holdsAt (hholds ρ hρ)⟩

end Solver

/-! ## Equations and the order -/

/-- Different constants, or infinity and a level that is not infinite. -/
def Level.Apart : Level → Level → Prop
  | .infinity, .infinity => False
  | .infinity, _ | _, .infinity => True
  | .closed c, .closed d => c ≠ d
  | _, _ => False

/-- Levels are apart if their order is refused, one way or the other, by every solver. -/
theorem Level.apart_iff_le {a b : Level} : a.Apart b ↔ a.le b = .no ∨ b.le a = .no := by
  cases a <;> cases b <;> simp only [Apart, le] <;> grind

/-- No values make levels equal that are apart. -/
theorem Level.Apart.value_ne {a b : Level} (h : a.Apart b) (ρ : LevelVar → Nat) :
    a.value ρ ≠ b.value ρ := by
  cases a with
  | infinity =>
    cases b with
    | infinity => cases h
    | closed | var => exact WithTop.top_ne_coe
  | closed c =>
    cases b with
    | infinity => exact WithTop.coe_ne_top
    | closed d => exact fun heq => h (Int64.toInt_inj.mp (WithTop.coe_inj.mp heq))
    | var => cases h
  | var =>
    cases b with
    | infinity => exact WithTop.coe_ne_top
    | closed | var => cases h

namespace Solver

variable {span : Span} {a b : Level} {st st' : SolverState}

/-- A comparison that is accepted from the state. -/
def AcceptsLevels (span : Span) (r : Relation) (a b : Level) (st : SolverState) : Prop :=
  ∃ st', compareLevels span r a b st = .ok true st'

/-- A solver that puts comparisons off accepts the order of levels unless it is refused. -/
theorem acceptsLevels_le_iff : AcceptsLevels span .le a b st ↔
    a.le b = .yes ∨ a.le b = .maybe ∧ st.equations.deferLevels = true := by
  rw [AcceptsLevels, compareLevels, Level.compareWith, Level.compareWith.leWith]
  cases a.le b with
  | yes => exact iff_of_true ⟨st, rfl⟩ (.inl rfl)
  | no =>
    refine iff_of_false ?_ (by simp)
    rintro ⟨st', hrun⟩
    cases hrun
  | maybe =>
    simp only [addLevelEquation_accepts_iff, reduceCtorEq, true_and, false_or]
    constructor
    · rintro ⟨st', hputs⟩
      exact hputs.allowed (List.cons_ne_nil _ _)
    · exact fun hdefers => ⟨_, rfl, fun _ => hdefers⟩

/-- An equation is accepted if the levels are equal, and otherwise only by being put off. -/
theorem compareLevels_eq_accepts (h : compareLevels span .eq a b st = .ok true st') :
    a.equal b = true ∨ st.PutsOff [⟨a, b, .eq, span⟩] st' := by
  rw [compareLevels, Level.compareWith] at h
  split at h
  next hequal => exact .inl hequal
  next => exact .inr (addLevelEquation_accepts_iff.mp h)

/-- Levels that are equal without a solver are in order both ways. An equation that a solver
accepts is in order both ways for it unless the levels are apart. The equation is then put off,
and no values satisfy it. -/
theorem compareLevels_eq_orders (span : Span) (a b : Level) :
    (Level.compare .eq a b = .ok true →
      Level.compare .le a b = .ok true ∧ Level.compare .ge a b = .ok true) ∧
    ∀ st st', compareLevels span .eq a b st = .ok true st' →
      (∀ st₁, st₁.equations.deferLevels = st.equations.deferLevels →
        (AcceptsLevels span .le a b st₁ ∧ AcceptsLevels span .ge a b st₁ ↔ ¬ a.Apart b)) ∧
      (a.Apart b → st.equations.deferLevels = true ∧
        st' = { st with equations.levels := st.equations.levels ++ [⟨a, b, .eq, span⟩] } ∧
        ∀ ρ, ¬ (⟨a, b, .eq, span⟩ : LevelEquation).Holds ρ) := by
  refine ⟨fun h => ?_, fun st st' h => ?_⟩
  · rw [Level.compare_eq, Except.ok.injEq, Level.equal_iff_le_le] at h
    rw [Level.compare, Level.compareWith, Level.compareWith, Level.leWith_strict,
      Level.leWith_strict, h.1, h.2]
    exact ⟨rfl, rfl⟩
  · have hge (st₁ : SolverState) :
        AcceptsLevels span .ge a b st₁ ↔ AcceptsLevels span .le b a st₁ := Iff.rfl
    rw [Level.apart_iff_le]
    rcases compareLevels_eq_accepts h with hequal | hputs
    · obtain ⟨hab, hba⟩ := Level.equal_iff_le_le.mp hequal
      refine ⟨fun st₁ _ => ?_, fun hno => ?_⟩
      · rw [hge, acceptsLevels_le_iff, acceptsLevels_le_iff, hab, hba]
        simp
      · rw [hab, hba] at hno
        simp at hno
    · have hdefers := hputs.allowed (List.cons_ne_nil _ _)
      refine ⟨fun st₁ hst₁ => ?_, fun hno => ⟨hdefers, hputs.state, ?_⟩⟩
      · rw [hge, acceptsLevels_le_iff, acceptsLevels_le_iff, hst₁, hdefers]
        cases a.le b <;> cases b.le a <;> simp
      · exact (Level.apart_iff_le.mpr hno).value_ne

end Solver

namespace PutOff

/-- The sort `\\Type (\\max k+1 2, 5)`. -/
def bounded : USort := ⟨.var ⟨"k"⟩ 1 2, .closed 5⟩

def state (levels : List LevelEquation) : SolverState :=
  ⟨.start 0, { Equations.new false true with levels }⟩

/-- Both comparisons, with the sides exchanged. -/
def recorded : List LevelEquation :=
  [⟨.ofVar .predicative, bounded.p, .le, default⟩, ⟨.ofVar .homotopy, bounded.h, .le, default⟩]

/-- The valuation with `lp` and `lh` at `4` and `k` at `3`. -/
def valuation (v : LevelVar) : Nat := if v = ⟨"k"⟩ then 3 else 4

def values : LevelSubst :=
  ⟨[(⟨"k"⟩, .closed 3), (.predicative, .closed 4), (.homotopy, .closed 4)]⟩

/-- The standard sort is below the one given, if the comparisons hold that are put off. -/
theorem std_below_bounded :
    Solver.compareSorts default .ge bounded .std (state []) = .ok true (state recorded) ∧
      USort.compare .ge (bounded.subst values) (USort.std.subst values) = .ok true := by
  have hrun : Solver.compareSorts default .ge bounded .std (state []) =
      .ok true (state recorded) := rfl
  obtain ⟨E, hE, hclosed⟩ := Solver.compareSorts_obligations hrun
  have hrecorded : recorded = E := congrArg (·.equations.levels) hE
  subst hrecorded
  refine ⟨hrun, hclosed valuation values ?_ ?_ ?_⟩
  · intro e he
    rcases List.mem_cons.mp he with rfl | he
    · exact WithTop.coe_le_coe.mpr (by decide)
    · obtain rfl := List.mem_singleton.mp he
      exact WithTop.coe_le_coe.mpr (by decide)
  · exact ⟨⟨3, rfl, rfl⟩, trivial, by decide, by decide⟩
  · exact ⟨⟨4, rfl, rfl⟩, ⟨4, rfl, rfl⟩, by decide, by decide⟩

/-- The equation `lp = 3` is put off, and so are both inequalities. -/
theorem variable_in_order : ∃ st',
    Solver.compareLevels default .eq (.ofVar .predicative) (.closed 3) (state []) = .ok true st' ∧
      Solver.AcceptsLevels default .le (.ofVar .predicative) (.closed 3) (state []) ∧
      Solver.AcceptsLevels default .ge (.ofVar .predicative) (.closed 3) (state []) := by
  obtain ⟨st', hrun⟩ : ∃ st', Solver.compareLevels default .eq (.ofVar .predicative) (.closed 3)
      (state []) = .ok true st' := ⟨_, rfl⟩
  have horders := ((Solver.compareLevels_eq_orders default _ _).2 _ st' hrun).1 (state []) rfl
  exact ⟨st', hrun, horders.mpr id⟩

/-- Different constants pass for equal, but only one inequality does. -/
theorem constants_equated :
    Solver.AcceptsLevels default .eq (.closed 1) (.closed 2) (state []) ∧
      Solver.AcceptsLevels default .le (.closed 1) (.closed 2) (state []) ∧
      ¬ Solver.AcceptsLevels default .ge (.closed 1) (.closed 2) (state []) := by
  refine ⟨⟨_, rfl⟩, ⟨_, rfl⟩, ?_⟩
  rintro ⟨st', hrun⟩
  cases hrun

end PutOff

end Recheck
