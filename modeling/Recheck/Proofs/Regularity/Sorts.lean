import Recheck.Proofs.Heads
import Recheck.Proofs.Renumbering.Repetition

/-!
# Recheck — types that are accepted

A type is accepted with a sort if the checker finds a universe for it, whenever it is asked.
One run that does so is enough: it can be repeated later, under more variables, and against
the universe of every sort that is not smaller.

There is no trace here, so that what is done hangs on the rules alone.
-/

namespace Recheck

open Pairing (nothing)

/-! ## Contexts that stay -/

namespace Context

/-- The type that a variable is declared with. -/
def type? (Γ : Context) (x : Var) : Option Term := (Γ.entry? x).bind ContextEntry.type

/-- The context with one more variable. -/
def add (Γ : Context) (x : Var) (type : Term) : Context := ⟨⟨x, some type⟩ :: Γ.entries⟩

/-- All variables have numbers below `N`, and all types are made of such ones that are not left
out. -/
structure Plain (N : Nat) (X : Nat → Prop) (Γ : Context) : Prop where
  serial : ∀ e ∈ Γ.entries, e.var.serial < N
  type : ∀ e ∈ Γ.entries, ∀ A, e.type = some A → A.Plain (Var.Old N X) (· < N)

variable {Γ Γ' : Context} {x : Var} {A : Term} {N : Nat} {X : Nat → Prop}

theorem entry?_eq_some {e : ContextEntry} (h : Γ.entry? x = some e) : e ∈ Γ.entries ∧ e.var = x := by
  refine ⟨List.mem_of_find?_eq_some h, ?_⟩
  have hvar := List.find?_some h
  exact of_decide_eq_true hvar

theorem type?_add_self : (Γ.add x A).type? x = some A := by
  rw [type?, add, entry?_cons, if_pos rfl]
  rfl

theorem type?_add_of_ne {y : Var} (h : x ≠ y) : (Γ.add x A).type? y = Γ.type? y := by
  rw [type?, add, entry?_cons, if_neg h]
  rfl

namespace Plain

variable (h : Γ.Plain N X)

include h

theorem of_type? (hx : Γ.type? x = some A) : A.Plain (Var.Old N X) (· < N) := by
  obtain ⟨e, he, htype⟩ := Option.bind_eq_some_iff.mp hx
  exact h.type e (Context.entry?_eq_some he).1 A htype

theorem entry?_eq_none (hx : N ≤ x.serial) : Γ.entry? x = none := by
  refine List.find?_eq_none.mpr fun e he hvar => ?_
  have hlt := h.serial e he
  rw [of_decide_eq_true hvar] at hlt
  omega

theorem add (hx : x.serial < N) (hA : A.Plain (Var.Old N X) (· < N)) : (Γ.add x A).Plain N X := by
  constructor
  · intro e he
    rcases List.mem_cons.mp he with rfl | he
    · exact hx
    · exact h.serial e he
  · intro e he B hB
    rcases List.mem_cons.mp he with rfl | he
    · cases hB
      exact hA
    · exact h.type e he B hB

theorem mono {N' : Nat} {X' : Nat → Prop} (hN : N ≤ N') (hX : ∀ n, X' n → X n) : Γ.Plain N' X' := by
  refine ⟨fun e he => Nat.lt_of_lt_of_le (h.serial e he) hN, fun e he A hA => ?_⟩
  exact (h.type e he A hA).mono (fun x hx => hx.mono hN hX) fun n hn => Nat.lt_of_lt_of_le hn hN

/-- Contexts that agree on what is not left out correspond to each other. -/
theorem paired {s s' : SolverState} {hs : N ≤ s.store.next} {hs' : N ≤ s'.store.next}
    (h' : Γ'.Plain N nothing)
    (hagree : ∀ x : Var, x.Old N X → Γ'.entry? x = Γ.entry? x) :
    Γ.Paired (.again X hs hs') Γ' := by
  intro x x' hx
  have hpair := hx
  obtain @⟨n, n', kind, name, hkind, ⟨rfl, hn, hkept⟩ | ⟨j, rfl, rfl⟩⟩ := hx
  · rw [hagree _ ⟨hkind, hn, hkept⟩]
    cases hentry : Γ.entry? ⟨n, kind, name⟩ with
    | none => exact .none
    | some e =>
      obtain ⟨he, hvar⟩ := entry?_eq_some hentry
      obtain ⟨y, type⟩ := e
      cases hvar
      refine .some ⟨hpair, ?_⟩
      cases type with
      | none => exact .none
      | some A =>
        exact .some ((h.type _ he A rfl).like (fun _ hx => hx.paired) fun _ hn =>
          Pairing.again_stamp hn)
  · rw [h.entry?_eq_none (Nat.le_add_right_of_le hs), h'.entry?_eq_none (Nat.le_add_right_of_le hs')]
    exact .none

end Plain

/-- A variable that comes into scope does not hide the others. -/
theorem entry?_add_of_old {N : Nat} {Γ : Context} {x y : Var} {A : Term}
    (hy : y.Old N (· = x.serial)) : Context.entry? (Γ.add x A) y = Γ.entry? y := by
  rw [add, entry?_cons, if_neg]
  rintro rfl
  exact hy.kept rfl

end Context

/-! ## Repeated checks -/

section Again

variable {k : Checker} {N : Nat} {e : Equations} {X : Nat → Prop} {fuel fuel' : Nat}
  {scope scope' : Scope} {t : Term} {s s' s₁ : CheckState}

/-- Scopes correspond if their contexts do. -/
theorem Scope.paired_again {hs : N ≤ s.solver.store.next} {hs' : N ≤ s'.solver.store.next}
    (hΓ : scope.context.Plain N X) (hΓ' : scope'.context.Plain N nothing)
    (hagree : ∀ x : Var, x.Old N X → scope'.context.entry? x = scope.context.entry? x) :
    scope.Paired (.again X hs hs') scope' :=
  hΓ.paired hΓ' hagree

/-- Scopes with one context correspond, however deep they are. -/
theorem Scope.paired_deeper {hs : N ≤ s.solver.store.next} {hs' : N ≤ s'.solver.store.next}
    (hΓ : scope.context.Plain N nothing) (heq : scope'.context = scope.context) (depth : Nat) :
    scope.Paired (.again nothing hs hs') { scope' with depth } := by
  refine Scope.paired_again hΓ ?_ fun _ _ => ?_
  · rw [heq]
    exact hΓ
  · rw [heq]

/-- Without a trace, the check of a term is the step. -/
theorem Typing.term_succ (hk : k.traceDepth = 0) (expected : Option Term) :
    term k (fuel + 1) scope t expected =
      step k fuel (term k fuel) { scope with depth := scope.depth + 1 } t expected := by
  rw [term, traced, hk]
  rfl

/-- A term that has a type of its own is inferred first, and then compared. -/
theorem Typing.step_eq_conclude {self} (h : t.node.leadsOut = false) (expected : Option Term)
    (hhole : ∀ goal part, t.node ≠ .hole goal part) :
    step k fuel self scope t expected =
      step k fuel self scope t none >>= conclude k fuel t expected := by
  obtain ⟨stamp, node⟩ := t
  have hnone : conclude k fuel (.mk stamp node) none = pure := rfl
  unfold step
  dsimp only
  rw [hnone]
  generalize conclude k fuel (.mk stamp node) expected = rest
  cases node with
  | unknown | delayed | letIn => cases h
  | hole goal part => exact absurd rfl (hhole goal part)
  | univ sort =>
    dsimp only [Term.node]
    split <;> simp only [bind_assoc, bind_pure]
  | _ =>
    dsimp only [Term.node]
    simp only [bind_assoc, bind_pure, pure_bind]

/-- A hole has no type of its own. -/
theorem Typing.node_ne_hole {type : Term} (hk : k.traceDepth = 0)
    (h : term k fuel scope t none s = .ok type s₁) (goal : Bool) (part : Option Term) :
    t.node ≠ .hole goal part := by
  intro hnode
  obtain ⟨stamp, node⟩ := t
  cases hnode
  cases fuel with
  | zero => cases h
  | succ fuel =>
    rw [term_succ hk] at h
    cases goal <;> cases h

theorem SolverState.After.build (h : s.solver.After N e) (node : Node Term) :
    ∃ u s', (liftM (Core.build node) : Check Term) s = .ok u s' ∧ u.node = node ∧
      s'.solver.After N e :=
  ⟨_, _, rfl, rfl, Nat.le_succ_of_le h.next, h.levelsOnly, h.deferLevels⟩

/-- A universe is found to be below another one. -/
theorem Typing.conclude_univ {type u : Term} {τ sort : USort} (hs : s.solver.After N e)
    (htype : type.node = .univ τ) (hu : u.node = .univ sort)
    (hle : sort.isOmega = true ∨ USort.compare .le τ sort = .ok true) :
    ∃ s', conclude k (fuel + 2) t (some u) type s = .ok u s' ∧ s'.solver.After N e := by
  obtain ⟨omega, s₁, hbuild, -, hs₁⟩ := hs.build (.univ .omega)
  have hcompare : k.compareTypes (fuel + 2) .le type u s = .ok true s₁ := by
    rw [Checker.compareTypes, run_bind hbuild, Solver.compare, Conversion.run_univ htype hu hle]
    rfl
  refine ⟨s₁, ?_, hs₁⟩
  rw [conclude, run_bind hcompare]
  rfl

theorem Signature.Plain.steady_again (hsig : k.sig.Plain (Var.Old N X) (· < N))
    (hs : N ≤ s.solver.store.next) (hs' : N ≤ s'.solver.store.next) :
    k.sig.Steady (.again X hs hs') :=
  hsig.steady (fun _ hx => hx.paired) fun _ hn => Pairing.again_stamp hn

theorem Term.Plain.like_again (ht : t.Plain (Var.Old N X) (· < N))
    (hs : N ≤ s.solver.store.next) (hs' : N ≤ s'.solver.store.next) : t.Like (.again X hs hs') t :=
  ht.like (fun _ hx => hx.paired) fun _ hn => Pairing.again_stamp hn

theorem Typing.alike_again (hk : k.traceDepth = 0) (hsig : k.sig.Plain (Var.Old N X) (· < N))
    (hs : N ≤ s.solver.store.next) (hs' : N ≤ s'.solver.store.next) (hle : fuel ≤ fuel') :
    Alike (.again X hs hs') (term k fuel) (term k fuel') :=
  alike_term (hsig.steady_again hs hs') (by rw [hk]; decide) hle

/-- The checks of a term, from one state and from another. -/
theorem Typing.term_again {expected : Option Term} {type : Term} (hk : k.traceDepth = 0)
    (hsig : k.sig.Plain (Var.Old N X) (· < N)) (hΓ : scope.context.Plain N X)
    (hΓ' : scope'.context.Plain N nothing)
    (hagree : ∀ x : Var, x.Old N X → scope'.context.entry? x = scope.context.entry? x)
    (ht : t.Plain (Var.Old N X) (· < N))
    (hexpected : ∀ u ∈ expected, u.Plain (Var.Old N X) (· < N)) (hle : fuel ≤ fuel')
    (hs : s.solver.After N e) (hs' : s'.solver.After N e)
    (h : term k fuel scope t expected s = .ok type s₁) :
    ∃ type' s₁', term k fuel' scope' t expected s' = .ok type' s₁' ∧
      type.Like (.again X hs.next hs'.next) type' ∧ s₁.solver.After N e ∧
      s₁'.solver.After N e := by
  have hrel : Option.Rel (Term.Like (.again X hs.next hs'.next)) expected expected := by
    cases expected with
    | none => exact .none
    | some u => exact .some ((hexpected u rfl).like_again hs.next hs'.next)
  have hmirrors := alike_again hk hsig hs.next hs'.next hle
    (Scope.paired_again hΓ hΓ' hagree) (ht.like_again hs.next hs'.next) hrel
  exact hmirrors.again hs hs' h

end Again

/-! ## Acceptance -/

/-- With enough fuel, in every later state, the type of `A` comes out as the universe of `τ`. -/
structure Checker.Accepts (k : Checker) (N : Nat) (e : Equations) (Γ : Context) (A : Term)
    (τ : USort) : Prop where
  inward : A.node.leadsOut = false
  runs : ∃ least, ∀ fuel ≥ least, ∀ scope s, scope.context = Γ → s.solver.After N e →
    ∃ type s', Typing.term k fuel scope A none s = .ok type s' ∧
      type.node = .univ τ ∧ s'.solver.After N e

theorem Term.Plain.inward {V : Var → Prop} {S : Nat → Prop} {t : Term} (h : t.Plain V S) :
    t.node.leadsOut = false := by
  obtain ⟨hout, -⟩ := h
  exact hout

theorem Term.Plain.refs {N : Nat} {X S : Nat → Prop} {t : Term} (h : t.Plain (Var.Old N X) S)
    (x : Var) (hx : x ∈ t.node.refs) : x.kind = .param ∨ x.kind = .given := by
  obtain ⟨-, -, -, hrefs, -⟩ := h
  exact (hrefs x hx).kind

theorem Term.Like.univ {β : Pairing} {t t' : Term} {sort : USort} (h : t.Like β t')
    (ht : t.node = .univ sort) : t'.node = .univ sort := by
  obtain ⟨-, hnode⟩ := h.destruct
  cases ht
  cases hnode
  rfl

namespace Checker

variable {k : Checker} {N : Nat} {e : Equations} {Γ : Context} {A type : Term} {τ : USort}
  {scope : Scope} {fuel : Nat} {s s₁ : CheckState}

/-- One run that finds a universe is enough. -/
theorem accepts_of_run (hk : k.traceDepth = 0)
    (hsig : k.sig.Plain (Var.Old N nothing) (· < N)) (hΓ : Γ.Plain N nothing)
    (hA : A.Plain (Var.Old N nothing) (· < N))
    (h : Typing.term k fuel scope A none s = .ok type s₁) (htype : type.node = .univ τ)
    (hscope : scope.context = Γ) (hs : s.solver.After N e) :
    k.Accepts N e Γ A τ := by
  refine ⟨hA.inward, fuel, fun fuel' hle scope' s' hscope' hs' => ?_⟩
  subst hscope
  obtain ⟨type', s₁', hrun, hlike, -, hs₁'⟩ := Typing.term_again hk hsig hΓ (hscope' ▸ hΓ)
    (fun _ _ => by rw [hscope']) hA (by simp) hle hs hs' h
  exact ⟨type', s₁', hrun, hlike.univ htype, hs₁'⟩

/-- A variable that nothing mentions may come into scope. -/
theorem Accepts.add {x : Var} {B : Term} (hk : k.traceDepth = 0)
    (hsig : k.sig.Plain (Var.Old N (· = x.serial)) (· < N)) (hΓ : Γ.Plain N (· = x.serial))
    (hA : A.Plain (Var.Old N (· = x.serial)) (· < N)) (hΔ : (Γ.add x B).Plain N nothing)
    (h : k.Accepts N e Γ A τ) : k.Accepts N e (Γ.add x B) A τ := by
  obtain ⟨hinward, least, hruns⟩ := h
  refine ⟨hinward, least, fun fuel hle scope s hscope hs => ?_⟩
  obtain ⟨type, s₁, hrun, htype, -⟩ := hruns fuel hle { scope with context := Γ } s rfl hs
  have hagree (y : Var) (hy : y.Old N (· = x.serial)) :
      scope.context.entry? y = Γ.entry? y := by
    rw [hscope, Context.entry?_add_of_old hy]
  obtain ⟨type', s₁', hrun', hlike, -, hs₁'⟩ := Typing.term_again hk hsig hΓ (hscope ▸ hΔ) hagree
    hA (by simp) (Nat.le_refl fuel) hs hs hrun
  exact ⟨type', s₁', hrun', hlike.univ htype, hs₁'⟩

/-- A type of sort `τ` passes against the universe of every sort that is not smaller or is
unbounded. -/
theorem Accepts.against {sort : USort} (hk : k.traceDepth = 0) (h : k.Accepts N e Γ A τ)
    (hle : sort.isOmega = true ∨ USort.compare .le τ sort = .ok true) :
    ∃ least, ∀ fuel ≥ least, ∀ scope s u, scope.context = Γ → s.solver.After N e →
      u.node = .univ sort →
        ∃ s', Typing.term k fuel scope A (some u) s = .ok u s' ∧ s'.solver.After N e := by
  obtain ⟨hinward, least, hruns⟩ := h
  refine ⟨least + 3, fun fuel hfuel scope s u hscope hs hu => ?_⟩
  obtain ⟨type, s₁, hrun, htype, hs₁⟩ := hruns fuel (by omega) scope s hscope hs
  have hhole := Typing.node_ne_hole hk hrun
  obtain ⟨fuel, rfl⟩ : ∃ j, fuel = j + 3 := ⟨fuel - 3, by omega⟩
  rw [Typing.term_succ hk] at hrun ⊢
  rw [Typing.step_eq_conclude hinward (some u) hhole, run_bind hrun]
  exact Typing.conclude_univ hs₁ htype hu hle

end Checker

end Recheck
