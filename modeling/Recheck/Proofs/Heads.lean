import Recheck.Proofs.Acceptance
import Recheck.Proofs.Instantiation
import Recheck.Typing.Monad

/-!
# Recheck — comparing by heads

Two terms whose heads are fixed, whatever becomes of unknowns, are compared by these heads at
once: nothing is reduced, no number is taken and no unknown is looked at on the way. So one
can follow the comparison from a state to the next.
-/

namespace Recheck

/-! ## Runs that succeed -/

section Runs

variable {ε σ A B : Type} {x : EStateM ε σ A} {f : A → EStateM ε σ B} {s s₁ s₂ : σ} {a : A} {b : B}

theorem bind_eq_ok_iff : (x >>= f) s = .ok b s₂ ↔ ∃ a s₁, x s = .ok a s₁ ∧ f a s₁ = .ok b s₂ := by
  constructor
  · intro h
    cases hx : x s with
    | ok a s₁ =>
      rw [run_bind hx] at h
      exact ⟨a, s₁, rfl, h⟩
    | error e s₁ =>
      have hbind : (x >>= f) s = .error e s₁ := by
        show EStateM.bind x f s = _
        rw [EStateM.bind, hx]
      rw [hbind] at h
      cases h
  · rintro ⟨a, s₁, hx, hf⟩
    rw [run_bind hx, hf]

end Runs

theorem liftSolver_of_ok {A : Type} {x : Core A} {s : SolverState} {a : A} {store : Store}
    (h : x s.store = .ok a store) : (liftM x : Solver A) s = .ok a { s with store } := by
  show Solver.ofCore x s = _
  rw [Solver.ofCore, h]

theorem liftCheck_of_ok {A : Type} {x : Solver A} {s : CheckState} {a : A} {solver : SolverState}
    (h : x s.solver = .ok a solver) : (liftM x : Check A) s = .ok a { s with solver } := by
  show Check.ofSolver x s = _
  rw [Check.ofSolver, h]

/-! ## Comparisons -/

namespace Conversion

variable {sig : Signature} {fuel : Nat} {span : Span} {ρ : Renaming} {r : Relation} {a b : Term}
  {type : Option Term} {self : Renaming → Relation → Term → Term → Option Term → Solver Bool}

/-- A node compared with itself. -/
theorem run_of_same (h : a.same b) : run sig span (fuel + 1) ρ r a b type = pure true :=
  if_pos h

theorem isHole_of_isCanonical {t : Term} (h : t.node.isCanonical) : isHole t = false := by
  obtain ⟨stamp, node⟩ := t
  cases node with
  | con | data | record | lam | pi | sigma | tuple | univ | new | int => rfl
  | _ => cases h

/-- Terms with fixed heads that are not one node. -/
theorem step_of_isCanonical (ha : a.node.isCanonical) (hb : b.node.isCanonical)
    (hne : a.same b = false) :
    step sig (fuel + 1) span self ρ r a b type = heads sig (fuel + 1) span self ρ r a b type := by
  funext s
  have hwhnf {t : Term} (h : t.node.isCanonical) :
      (liftM (t.whnf sig (fuel + 1)) : Solver Term) s = .ok t s :=
    liftSolver_of_ok (whnf_of_isCanonical h sig fuel s.store)
  have hisWhnf {t : Term} (h : t.node.isCanonical) :
      (liftM (t.isWhnf sig (fuel + 1)) : Solver Decision) s = .ok .yes s :=
    liftSolver_of_ok (isWhnf_of_isCanonical h sig fuel s.store)
  have hunknowns : unknowns sig (fuel + 1) span ρ r a b type s = .ok none s := by
    rw [unknowns, run_bind (hisWhnf ha), run_bind (hisWhnf hb)]
    rfl
  rw [step, if_neg (by rw [hne]; simp), run_bind (hwhnf ha), run_bind (hwhnf hb), if_neg,
    run_bind hunknowns]
  rw [hne, isHole_of_isCanonical ha, isHole_of_isCanonical hb]
  simp

/-- Sorts that compare without a question left are never put off. -/
theorem compareSorts_of_le {s t : USort} (h : USort.compare .le s t = .ok true) :
    Solver.compareSorts span .le s t = pure true := by
  have hle {l l' : Level} (h : l.le l' = .yes) (undecided : Relation → Level → Level → Solver Bool) :
      Level.compareWith undecided .le l l' = pure true := by
    rw [Level.compareWith, Level.compareWith.leWith, h]
  show USort.compareWith.leWith (m := Solver) _ s t = _
  rw [USort.compareWith.leWith]
  rcases USort.compare_le_iff.mp h with hprop | ⟨hp, hh⟩
  · rw [if_pos hprop]
  · rw [USort.compareWith.levelsWith, hle hp, hle hh]
    exact ite_self _

/-- Two universes that are not one node are compared by their sorts. -/
theorem run_univ_of_not_same {sort sort' : USort} (ha : a.node = .univ sort)
    (hb : b.node = .univ sort') (hne : a.same b = false) :
    run sig span (fuel + 2) ρ r a b type =
      if sort'.isOmega && r = .le then pure true else Solver.compareSorts span r sort sort' := by
  show step sig (fuel + 1) span (run sig span (fuel + 1)) ρ r a b type = _
  rw [step_of_isCanonical (by rw [ha]; rfl) (by rw [hb]; rfl) hne, heads, ha, hb]

/-- A universe is below every universe of a sort that is not smaller, and below the unbounded
ones. -/
theorem run_univ {sort sort' : USort} (ha : a.node = .univ sort) (hb : b.node = .univ sort')
    (h : sort'.isOmega = true ∨ USort.compare .le sort sort' = .ok true) :
    run sig span (fuel + 2) ρ .le a b type = pure true := by
  cases hsame : a.same b with
  | true => exact run_of_same hsame
  | false =>
    rw [run_univ_of_not_same ha hb hsame]
    rcases h with homega | hle
    · rw [homega]
      rfl
    · rw [compareSorts_of_le hle, ite_self]

end Conversion

end Recheck
