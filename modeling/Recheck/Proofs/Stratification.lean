import Recheck.Proofs.Obligations

/-!
# Recheck — universes are not in themselves

The universe of a sort lives in the universe of the successor, so it is an element of itself only
if the successor is not above the sort. It is, in the strict order of sorts (`Hierarchy`), and
the checker refuses.

A solver that puts off comparisons of levels has to be told apart from the others. It accepts
`\\Type (lp,lh)` as an element of itself (`UniverseInItself.std_put_off`), and what it then has put
off is that `lp+1` is at most `lp`. In general it is left with comparisons that no valuation
makes true together (`USort.strict_hierarchy`).
-/

namespace Recheck

section

variable {k : Checker} {fuel : Nat} {t u : Term} {sort sort' : USort} {s : CheckState}

theorem Term.print_univ (ht : t.node = .univ sort) (sig : Signature) (fuel : Nat) :
    t.print sig (fuel + 1) = pure sort.text := by
  rw [Term.print, Printer.step, ht]

/-- A new node takes the next number. -/
theorem Check.build_ok (node : Node Term) (s : CheckState) :
    ∃ t s', (liftM (Core.build node) : Check Term) s = .ok t s' ∧ t.node = node ∧
      t.stamp = s.solver.store.next ∧ s'.solver.equations = s.solver.equations :=
  ⟨_, _, rfl, rfl, rfl, rfl⟩

namespace Typing

/-- The trace of a universe is a line at most. -/
theorem term_univ (ht : t.node = .univ sort) (k : Checker) (fuel : Nat) (scope : Scope)
    (expected : Option Term) (s : CheckState) :
    ∃ trace, term k (fuel + 2) scope t expected s =
      step k (fuel + 1) (term k (fuel + 1)) { scope with depth := scope.depth + 1 } t expected
        { s with trace } := by
  have hquote : (liftM (t.quote k.sig (fuel + 1)) : Check String) s = .ok sort.text s := by
    show Check.ofSolver (Solver.ofCore (t.quote k.sig (fuel + 1))) s = _
    rw [Check.ofSolver, Solver.ofCore, Term.quote, Term.print_univ ht]
    rfl
  rw [term, traced]
  split
  · rw [run_bind hquote]
    exact ⟨_, rfl⟩
  · exact ⟨s.trace, rfl⟩

/-- Two universes are compared by their sorts. -/
theorem compareTypes_univ (ht : t.node = .univ sort) (hu : u.node = .univ sort')
    (hne : t.same u = false) (homega : sort'.isOmega = false) (k : Checker) (fuel : Nat)
    (s : CheckState) :
    ∃ s₁ : CheckState, s₁.solver.equations = s.solver.equations ∧
      k.compareTypes (fuel + 2) .le t u s =
        (liftM (Solver.compareSorts k.span .le sort sort') : Check Bool) s₁ := by
  obtain ⟨omega, s₁, hbuild, -, -, hequations⟩ := Check.build_ok (.univ .omega) s
  refine ⟨s₁, hequations, ?_⟩
  rw [Checker.compareTypes, run_bind hbuild, Solver.compare,
    Conversion.run_univ_of_not_same ht hu hne, homega]
  rfl

/-- A universe is checked against another one by comparing its successor. -/
theorem term_univ_against (ht : t.node = .univ sort) (hu : u.node = .univ sort')
    (hbuilt : u.stamp < s.solver.store.next) (hfinite : sort.isOmega = false)
    (homega : sort'.isOmega = false) (k : Checker) (fuel : Nat) (scope : Scope) :
    ∃ (actual : Term) (s₁ : CheckState), s₁.solver.equations = s.solver.equations ∧
      ∀ answer solver, Solver.compareSorts k.span .le sort.succ sort' s₁.solver = .ok answer solver →
        term k (fuel + 3) scope t (some u) s =
          if answer then .ok u { s₁ with solver }
          else .error (.error (k.mismatch t sort'.text actual)) { s₁ with solver } := by
  obtain ⟨trace, hterm⟩ := term_univ ht k (fuel + 1) scope (some u) s
  obtain ⟨actual, s₁, hbuild, hactual, hstamp, hequations⟩ :=
    Check.build_ok (.univ sort.succ) { s with trace }
  -- the inferred type is new, so it is not the expected one by identity
  have hne : actual.same u = false := by
    rw [Term.same, hstamp]
    exact beq_false_of_ne (Nat.ne_of_gt hbuilt)
  obtain ⟨s₂, hequations', hcompare⟩ := compareTypes_univ hactual hu hne homega k fuel s₁
  refine ⟨actual, s₂, hequations'.trans hequations, fun answer solver hanswer => ?_⟩
  have hlift := hcompare.trans (liftCheck_of_ok hanswer)
  rw [hterm, step, ht]
  dsimp only
  rw [if_neg (by rw [hfinite]; exact Bool.false_ne_true)]
  rw [run_bind hbuild, conclude, run_bind hlift]
  cases answer with
  | false =>
    rw [Term.print_univ hu]
    rfl
  | true => rfl

end Typing

/-- A universe is refused as an element of itself, or the solver has put off comparisons of levels
that no valuation makes true together. -/
theorem Checker.check_univ_itself {Γ : Context} (ht : t.node = .univ sort) (hu : u.node = .univ sort)
    (hbuilt : u.stamp < s.solver.store.next) (hsucc : sort.CanSucc) :
    (∃ e s', k.check (fuel + 3) Γ t (some u) s = .error (.error e) s') ∨
      s.solver.equations.deferLevels = true ∧
        ∃ s' E, k.check (fuel + 3) Γ t (some u) s = .ok u s' ∧
          s'.solver.equations.levels = s.solver.equations.levels ++ E ∧
          ∀ ρ, ∃ e ∈ E, ¬ e.Holds ρ := by
  cases hfinite : sort.isOmega with
  | true =>
    obtain ⟨trace, hterm⟩ := Typing.term_univ ht k (fuel + 1) (.ofContext Γ) (some u) s
    refine .inl ⟨k.about .sortOverflow t, { s with trace }, ?_⟩
    rw [check, hterm, Typing.step, ht]
    dsimp only
    rw [if_pos hfinite]
    rfl
  | false =>
    obtain ⟨actual, s₁, hequations, hrun⟩ :=
      Typing.term_univ_against ht hu hbuilt hfinite hfinite k fuel (.ofContext Γ)
    obtain ⟨answer, solver, hanswer⟩ := Solver.answers_compareSorts_le k.span sort.succ sort s₁.solver
    have hcheck := hrun answer solver hanswer
    cases answer with
    | false => exact .inl ⟨_, _, hcheck⟩
    | true =>
      obtain ⟨E, hE, hholds⟩ := Solver.ensures_compareSorts k.span .le sort.succ sort _ _ hanswer
      -- if all held at a valuation, so would the successor's being below the sort
      have hunsatisfied (ρ : LevelVar → Nat) : ∃ e ∈ E, ¬ e.Holds ρ := by
        by_contra hall
        refine USort.not_holdsAt_succ hsucc hfinite ρ (hholds ρ fun e he => ?_)
        exact not_not.mp fun hnot => hall ⟨e, he, hnot⟩
      have hne : E ≠ [] := by
        rintro rfl
        obtain ⟨e, he, -⟩ := hunsatisfied fun _ => 0
        cases he
      refine .inr ⟨?_, { s₁ with solver }, E, hcheck, ?_, hunsatisfied⟩
      · rw [← hequations]
        exact hE.allowed hne
      · rw [← hequations, hE.state]

end

/-- Comparison of sorts is an order, in which a sort is strictly below its successor if its
predicative level is finite. So a universe is not accepted as an element of itself, unless by
putting off comparisons of levels that cannot hold together. -/
theorem USort.strict_hierarchy :
    (∀ a : USort, compare .le a a = .ok true) ∧
    (∀ a b c : USort, compare .le a b = .ok true → compare .le b c = .ok true →
      compare .le a c = .ok true) ∧
    (∀ a b : USort, compare .eq a b = .ok true ↔
      compare .le a b = .ok true ∧ compare .ge a b = .ok true) ∧
    (∀ s : USort, s.CanSucc → compare .le s s.succ = .ok true ∧
      (s.isOmega = false → compare .le s.succ s = .ok false)) ∧
    ∀ (k : Checker) (fuel : Nat) (Γ : Context) (t u : Term) (s : USort) (st : CheckState),
      t.node = .univ s → u.node = .univ s → u.stamp < st.solver.store.next → s.CanSucc →
      (∃ e st', k.check (fuel + 3) Γ t (some u) st = .error (.error e) st') ∨
        st.solver.equations.deferLevels = true ∧
          ∃ st' E, k.check (fuel + 3) Γ t (some u) st = .ok u st' ∧
            st'.solver.equations.levels = st.solver.equations.levels ++ E ∧
            ∀ ρ, ∃ e ∈ E, ¬ e.Holds ρ := by
  refine ⟨compare_le_refl, fun a b c => compare_le_trans, fun a b => compare_eq_iff_le_ge,
    fun s h => ⟨compare_le_succ h, compare_succ_le h⟩, ?_⟩
  intro k fuel Γ t u s st ht hu hbuilt hsucc
  exact Checker.check_univ_itself ht hu hbuilt hsucc

namespace UniverseInItself

def checker : Checker := .untraced default

/-- The state of a solver that has put nothing off. -/
def state (deferLevels : Bool) : CheckState :=
  ⟨⟨.start 2, .new false deferLevels⟩, #[]⟩

def element : Term := .mk 0 (.univ .std)

def type : Term := .mk 1 (.univ .std)

/-- The sort `\\Type (\\max lp 3, \\oo)`. -/
def unbounded : USort := ⟨.var .predicative 0 3, .infinity⟩

/-- Propositions at any predicative level are below the sort. It is strictly below its
successor, and the universe of the standard sort is not an element of itself. -/
theorem std_refused :
    USort.compare .le ⟨.closed 7, .closed (-1)⟩ unbounded = .ok true ∧
      USort.compare .le unbounded.succ unbounded = .ok false ∧
      ∃ e st', checker.check 3 ⟨[]⟩ element (some type) (state false) = .error (.error e) st' := by
  obtain ⟨-, htrans, -, hsucc, hcheck⟩ := USort.strict_hierarchy
  refine ⟨htrans _ ⟨.closed 2, .closed 0⟩ _ rfl rfl, (hsucc unbounded (by decide)).2 rfl, ?_⟩
  refine (hcheck checker 0 ⟨[]⟩ element type .std (state false) rfl rfl (by decide)
    (by decide)).resolve_right ?_
  rintro ⟨hdefers, -⟩
  cases hdefers

/-- A solver that puts off comparisons of levels accepts the universe of the standard sort as an
element of itself. -/
theorem std_put_off : USort.std.CanSucc ∧
    ∃ st', checker.check 3 ⟨[]⟩ element (some type) (state true) = .ok type st' :=
  ⟨by decide, _, rfl⟩

end UniverseInItself

end Recheck
