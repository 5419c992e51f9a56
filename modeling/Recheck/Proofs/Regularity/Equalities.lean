import Recheck.Proofs.Regularity.Inference

/-!
# Recheck — equalities at propositions

The equality of two elements at `\Prop` is meant for elements of sets. The rule checks the type
of the elements against the universe with the predicative level infinity and the homotopy level
0. Every universe is found to be below one with the predicative level infinity, though, and the
homotopy level is not looked at. So the equality is accepted for types of every sort.
-/

namespace Recheck

/-- What an equality at a proposition takes: a type in the universe of sets, and two elements of
the type. -/
def Typing.propEquality (self : Scope → Term → Option Term → Check Term) (scope : Scope)
    (A a b : Term) : Check Unit := do
  let sets ← Core.build (.univ ⟨.infinity, .closed 0⟩)
  let _ ← self scope A (some sets)
  let _ ← self scope a (some A)
  let _ ← self scope b (some A)

section Equalities

variable {k : Checker} {fuel n : Nat} {Γ : Context} {A a b T u : Term} {sortArg τ : USort}
  {s s₁ : CheckState} {scope : Scope}

theorem Typing.call_equality {self : Scope → Term → Option Term → Check Term} (t : Term)
    (hdecl : k.sig.func Prelude.equality = Prelude.signature.func Prelude.equality)
    (hprop : sortArg.isProp) :
    call k (fuel + 1) self scope t Prelude.equality sortArg [A, a, b] = (do
      propEquality self scope A a b
      (Prelude.signature.func Prelude.equality).resultType.subst k.sig (fuel + 1)
        (.of .empty sortArg.instantiation)) := by
  have hdomain : propEqualityDomain Prelude.equality sortArg =
      (liftM (Core.build (.univ ⟨.infinity, .closed 0⟩)) : Check Term) >>= fun u => pure (some u) :=
    if_pos (by rw [hprop]; rfl)
  rw [call, hdomain, hdecl]
  simp only [propEquality, bind_assoc, pure_bind]
  -- each of the arguments is checked by one step
  refine congrArg (_ >>= ·) (funext fun u => ?_)
  show (self scope A (some u) >>= fun _ => argsFrom k (fuel + 1) self scope none _ _ [a, b]) >>=
    _ = _
  rw [bind_assoc]
  refine congrArg (_ >>= ·) (funext fun _ => ?_)
  show (self scope a (some A) >>= fun _ => argsFrom k (fuel + 1) self scope none _ _ [b]) >>=
    _ = _
  rw [bind_assoc]
  refine congrArg (_ >>= ·) (funext fun _ => ?_)
  show (self scope b (some A) >>= fun _ => _) >>= _ = _
  rw [bind_assoc]
  rfl

/-- A type of any sort passes against an unbounded universe. -/
theorem Typing.term_of_universe (hk : k.traceDepth = 0) (hinward : A.node.leadsOut = false)
    (hu : u.node = .univ ⟨.infinity, .closed 0⟩) (hT : T.node = .univ τ)
    (h : term k (fuel + 3) scope A none s = .ok T s₁) :
    ∃ s₂, term k (fuel + 3) scope A (some u) s = .ok u s₂ := by
  have hhole := node_ne_hole hk h
  rw [term_succ hk] at h ⊢
  rw [step_eq_conclude hinward (some u) hhole, run_bind h]
  have hs₁ : s₁.solver.After s₁.solver.store.next s₁.solver.equations := ⟨le_rfl, rfl, rfl⟩
  obtain ⟨s₂, hrun, -⟩ := conclude_univ hs₁ hT hu (.inl rfl)
  exact ⟨s₂, hrun⟩

/-- An equality at a proposition is accepted if and only if its type passes against the universe
of sets and its elements pass against the type. But whatever the sort of the type is, it passes
against that universe. -/
theorem Checker.check_equality_at_prop (hk : k.traceDepth = 0)
    (hdecl : k.sig.func Prelude.equality = Prelude.signature.func Prelude.equality)
    (hprop : sortArg.isProp) :
    ((∃ T s', k.check (fuel + 4) Γ (.mk n (.call Prelude.equality sortArg [A, a, b])) none s =
      .ok T s') ↔
      ∃ s', Typing.propEquality (Typing.term k (fuel + 3)) ⟨Γ, [], 1⟩ A a b s = .ok ⟨⟩ s') ∧
    (A.node.leadsOut = false → ∀ T τ u s s₁, T.node = .univ τ →
      u.node = .univ ⟨.infinity, .closed 0⟩ →
      Typing.term k (fuel + 3) ⟨Γ, [], 1⟩ A none s = .ok T s₁ →
      ∃ s₂, Typing.term k (fuel + 3) ⟨Γ, [], 1⟩ A (some u) s = .ok u s₂) := by
  refine ⟨?_, fun hinward T τ u s s₁ hT hu h => Typing.term_of_universe hk hinward hu hT h⟩
  have hcheck : k.check (fuel + 4) Γ (.mk n (.call Prelude.equality sortArg [A, a, b])) none = _ :=
    (Typing.term_succ hk none).trans
      (congrArg (· >>= _) (Typing.call_equality _ hdecl hprop))
  rw [hcheck]
  constructor
  · rintro ⟨T, s', hrun⟩
    obtain ⟨_, s₂, hrun, -⟩ := bind_eq_ok_iff.mp hrun
    obtain ⟨⟨⟩, s₁, hrun, -⟩ := bind_eq_ok_iff.mp hrun
    exact ⟨s₁, hrun⟩
  · rintro ⟨s', hrun⟩
    rw [bind_assoc]
    exact ⟨_, _, (run_bind hrun).trans rfl⟩

end Equalities

namespace EqualityOfSets

open Prelude (checker)

/-- The universe of sets. It is not a set. -/
def sets : Term := .mk 13 (.univ .set0)

def nat : Term := .mk 14 .nat

/-- The equality `Nat = Nat` at a proposition. -/
def equality : Term := .mk 15 (.call Prelude.equality .prop [sets, nat, nat])

def state : CheckState := .ofStore (.start 16)

theorem equality_passes : ∃ T s', checker.check 5 ⟨[]⟩ equality none state = .ok T s' := by
  have hsucceeds : (Typing.propEquality (Typing.term checker 4) ⟨⟨[]⟩, [], 1⟩ sets nat nat).succeeds
      state := by decide +kernel
  obtain ⟨⟨⟩, s', hrun⟩ := Check.exists_ok hsucceeds
  exact (Checker.check_equality_at_prop rfl rfl rfl).1.mpr ⟨s', hrun⟩

/-- The equality is accepted although its type is neither a set nor a proposition. -/
theorem type_not_bounded : (∃ T st, checker.check 5 ⟨[]⟩ equality none state = .ok T st) ∧
    ∃ τ st, checker.checkType 5 ⟨[]⟩ sets state = .ok τ st ∧ τ.isProp = false ∧
      Level.compare .le τ.h (.closed 0) = .ok false :=
  ⟨Check.exists_ok (by decide +kernel), .ofConstants 1 1, _, rfl, by decide, by decide⟩

end EqualityOfSets

end Recheck
