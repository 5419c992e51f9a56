import Recheck.Proofs.LetClauses
import Recheck.Proofs.Regularity.Sorts

/-!
# Recheck — inferred types

Whether what the checker infers is a type. `Checker.checkType_of_check` says so of
variables and of terms that show the sort of their type (`Annotated`): tuples, record values,
constructors without patterns, and functions that return such terms. `UncheckedType` has types that
are not checked on the way, and a term that passes until an unknown in it is solved.
-/

namespace Recheck

open Pairing (nothing)

/-! ## Sorts that a type shows -/

/-- The sort of a universe. -/
def Term.universe? (t : Term) : Option USort :=
  match t.node with
  | .univ sort => some sort
  | _ => none

/-- The sort of a type, as far as its form or the type of a variable shows it. -/
def Term.shownSort? (sig : Signature) (Γ : Context) (A : Term) : Option USort :=
  match A.node with
  | .ref x => (Γ.type? x).bind Term.universe?
  | .call f sortArg _ => ((sig.func f).resultType.universe?).map (·.subst sortArg.instantiation)
  | .data d => some ((sig.data d.data).sort.subst d.sortArg.instantiation)
  | .record r => some r.sort
  | .pi sort _ _ => some sort
  | .sigma s => some s.sort
  | .univ sort => some sort.succ
  | _ => none

variable {sort : USort}

theorem Term.universe?_eq_some {t : Term} (h : t.universe? = some sort) : t.node = .univ sort := by
  obtain ⟨stamp, node⟩ := t
  cases node with
  | univ sort' =>
    cases h
    rfl
  | _ => cases h

/-- What the check returns, if it succeeds, has the property. -/
def Check.Returns {A : Type} (x : Check A) (P : A → Prop) : Prop :=
  ∀ s a s', x s = .ok a s' → P a

namespace Check.Returns

variable {A B : Type} {P : B → Prop}

theorem pure {b : B} (h : P b) : Returns (pure b) P := by
  rintro s _ s' ⟨⟩
  exact h

theorem refuse_bind {e : TypeError} {f : A → Check B} : Returns (refuse e >>= f) P := by
  rintro s _ s' ⟨⟩

theorem bind {x : Check A} {f : A → Check B} (h : ∀ a, Returns (f a) P) : Returns (x >>= f) P := by
  intro s b s' hrun
  obtain ⟨a, s₁, -, hf⟩ := bind_eq_ok_iff.mp hrun
  exact h a s₁ b s' hf

theorem when {c : Prop} [Decidable c] {x : Check A} {y : Check B} (h : Returns y P) :
    Returns (if c then x >>= fun _ => y else y) P := by
  split
  · exact .bind fun _ => h
  · exact h

theorem build {node : Node Term} :
    Returns (liftM (Core.build node) : Check Term) fun t => t.node = node := by
  rintro s _ s' ⟨⟩
  rfl

end Check.Returns

namespace Typing

open Check (Returns)

variable {k : Checker} {fuel : Nat} {scope : Scope} {t : Term}
  {self : Scope → Term → Option Term → Check Term}
variable {σ : Substitution}

theorem returns_conclude {x : Check Term} {P : Term → Prop} (h : Returns x P) :
    Returns (x >>= conclude k fuel t none) P := by
  have hnone : conclude k fuel t none = pure := rfl
  rw [hnone, bind_pure]
  exact h

theorem returns_recordType (r : RecordType Term) :
    Returns (recordType k fuel self scope t r) fun type => type.node = .univ r.sort := by
  unfold recordType
  refine .bind fun _ => ?_
  dsimp only
  split
  · exact .refuse_bind
  refine .bind fun _ => .bind fun _ => .when ?_
  split
  · split
    · exact .refuse_bind
    · exact .build
  · exact .build

theorem returns_typeOf {x : Var} (hx : x.kind = .param ∨ x.kind = .given) :
    Returns (scope.typeOf x) fun type => type = scope.context.type? x := by
  unfold Scope.typeOf
  rcases hx with hx | hx
  · rw [hx]
    dsimp only
    split
    next type h => exact .pure h.symm
    next => rintro s _ s' ⟨⟩
  · rw [hx]
    exact .pure rfl

theorem returns_variableType {x : Var} (hx : x.kind = .param ∨ x.kind = .given) :
    Returns (variableType k scope t x) fun type => scope.context.type? x = some type := by
  unfold variableType
  dsimp only
  split
  · exact .refuse_bind
  intro s type s' hrun
  obtain ⟨o, s₁, htype, hrun⟩ := bind_eq_ok_iff.mp hrun
  have ho := returns_typeOf hx s o s₁ htype
  cases o with
  | none => cases hrun
  | some type' =>
    cases hrun
    exact ho.symm

/-- The arguments of a call leave the levels alone. -/
theorem returns_callArgs {first : Option Term} {columns : List (Column Term)} {args : List Term} :
    Returns (callArgs k fuel self scope t first σ columns args)
      fun σ' => σ'.levels = σ.levels := by
  have hargs (first : Option Term) (σ : Substitution) (args : List Term) :
      Returns (argsFrom k fuel self scope first σ columns args)
        fun σ' => σ'.levels = σ.levels := by
    induction columns generalizing first σ args with
    | nil => exact .pure rfl
    | cons c columns ih =>
      cases args with
      | nil => exact .pure rfl
      | cons a args =>
        simp only [argsFrom]
        cases first with
        | none => exact .bind fun _ => .bind fun _ => .bind fun _ => ih none (σ.bind c.var a) args
        | some type => exact .bind fun _ => .bind fun _ => ih none (σ.bind c.var a) args
  unfold callArgs
  dsimp only
  split
  · exact .refuse_bind
  · exact hargs first σ args

/-- A universe is a universe under every instantiation. -/
theorem returns_subst_univ {u : Term} (hu : u.node = .univ sort) (hσ : σ.levels.isEmpty = false) :
    Returns (liftM (u.subst k.sig fuel σ) : Check Term)
      fun type => type.node = .univ (sort.subst σ.levels) := by
  have hidentity : σ.isIdentity = false := by rw [Substitution.isIdentity, hσ, Bool.and_false]
  obtain ⟨stamp, node⟩ := u
  cases hu
  intro s type s' hrun
  rw [Term.subst, Traversal.applyFrom, hidentity] at hrun
  cases fuel with
  | zero => cases hrun
  | succ fuel =>
    have hstep : Traversal.traverse k.sig (fuel + 1) σ (.mk stamp (.univ sort)) =
        (liftM (Core.build (.univ (sort.subst σ.levels))) : Traversal Term) := by
      show (if σ.levels.isEmpty then _ else _) = _
      rw [hσ]
      rfl
    rw [hstep] at hrun
    cases hrun
    rfl

/-- A type is in the universe that it shows. -/
theorem returns_shownSort {τ : USort} (hx : ∀ x ∈ t.node.refs, x.kind = .param ∨ x.kind = .given)
    (ht : t.shownSort? k.sig scope.context = some τ) :
    Returns (step k fuel self scope t none) fun type => type.node = .univ τ := by
  obtain ⟨stamp, node⟩ := t
  unfold step
  cases node with
  | ref x =>
    refine returns_conclude fun s type s' hrun => ?_
    have htype := returns_variableType (hx x (List.mem_singleton_self x)) s type s' hrun
    replace ht : (scope.context.type? x).bind Term.universe? = some τ := ht
    rw [htype] at ht
    exact Term.universe?_eq_some ht
  | call f sortArg args =>
    obtain ⟨sort, hsort, rfl⟩ := Option.map_eq_some_iff.mp ht
    refine returns_conclude fun s type s' hrun => ?_
    obtain ⟨first, s₁, -, hrun⟩ := bind_eq_ok_iff.mp hrun
    obtain ⟨σ, s₂, hargs, hrun⟩ := bind_eq_ok_iff.mp hrun
    have hσ : σ.levels = sortArg.instantiation := returns_callArgs s₁ σ s₂ hargs
    rw [← hσ]
    exact returns_subst_univ (Term.universe?_eq_some hsort) (by rw [hσ]; rfl) s₂ type s' hrun
  | data d =>
    cases ht
    exact returns_conclude (.bind fun _ => .build)
  | record r =>
    cases ht
    exact returns_conclude (returns_recordType r)
  | pi sort ps codomain =>
    cases ht
    exact .bind fun _ => .bind fun _ => returns_conclude .build
  | sigma s =>
    cases ht
    exact .bind fun _ => returns_conclude .build
  | univ sort =>
    cases ht
    dsimp only [Term.node]
    split
    · exact .refuse_bind
    · exact returns_conclude .build
  | _ => cases ht

end Typing

section Shown

variable {k : Checker} {N : Nat} {e : Equations} {Γ : Context} {A type : Term} {τ : USort}
  {scope : Scope} {fuel : Nat} {s s₁ : CheckState}

/-- A type that was checked, against whatever, is accepted with the sort that it shows. -/
theorem Checker.accepts_of_shown {expected : Option Term} (hk : k.traceDepth = 0)
    (hsig : k.sig.Plain (Var.Old N nothing) (· < N)) (hΓ : Γ.Plain N nothing)
    (hA : A.Plain (Var.Old N nothing) (· < N))
    (h : Typing.term k fuel scope A expected s = .ok type s₁)
    (hshown : A.shownSort? k.sig Γ = some τ) (hscope : scope.context = Γ)
    (hs : s.solver.After N e) : k.Accepts N e Γ A τ := by
  have hhole (goal : Bool) (part : Option Term) : A.node ≠ .hole goal part := by
    intro hnode
    rw [Term.shownSort?, hnode] at hshown
    cases hshown
  cases fuel with
  | zero => cases h
  | succ fuel =>
    rw [Typing.term_succ hk, Typing.step_eq_conclude hA.inward expected hhole] at h
    obtain ⟨type', s₂, hrun, -⟩ := bind_eq_ok_iff.mp h
    have hnode := Typing.returns_shownSort hA.refs (by rw [hscope]; exact hshown) s type' s₂ hrun
    rw [← Typing.term_succ hk] at hrun
    exact k.accepts_of_run hk hsig hΓ hA hrun hnode hscope hs

end Shown

/-! ## Parameters -/

/-- Variables whose types are known to be accepted, with the sorts of these. -/
abbrev Sorts := List (Var × USort)

/-- The types of the listed variables are accepted. -/
def Checker.Knows (k : Checker) (N : Nat) (e : Equations) (Γ : Context) (K : Sorts) : Prop :=
  ∀ x τ, (x, τ) ∈ K → ∃ A, Γ.type? x = some A ∧ k.Accepts N e Γ A τ

/-- The variable may come into scope: it has an old number, and nothing that is there, its own
type included, mentions it. -/
structure Context.Admits (sig : Signature) (N : Nat) (Γ : Context) (x : Var) (A : Term) : Prop where
  serial : x.serial < N
  sig : sig.Plain (Var.Old N (· = x.serial)) (· < N)
  context : Γ.Plain N (· = x.serial)
  type : A.Plain (Var.Old N (· = x.serial)) (· < N)

/-- The parameters come into scope one after the other. With a type that shows its sort, some of
the variables which are declared with this type come to be known. -/
inductive Context.Opens (sig : Signature) (N : Nat) :
    Context → Sorts → Telescope Term → Context → Sorts → Prop where
  | nil {Γ : Context} {K : Sorts} : Context.Opens sig N Γ K [] Γ K
  /-- The parameter shares the type of a later one, which is not checked yet. -/
  | untyped {Γ Δ : Context} {K L : Sorts} {p : Param Term} {ps : Telescope Term} {A : Term}
      (hp : p.type = none) (hA : Telescope.headType ps = some A) (hadmits : Γ.Admits sig N p.var A)
      (h : Context.Opens sig N (Γ.add p.var A) K ps Δ L) : Context.Opens sig N Γ K (p :: ps) Δ L
  | typed {Γ Δ : Context} {K L : Sorts} {p : Param Term} {ps : Telescope Term} {A : Term}
      {τ : USort} {xs : List Var} (hp : p.type = some A) (hadmits : Γ.Admits sig N p.var A)
      (hxs : ∀ x ∈ xs, A.shownSort? sig Γ = some τ ∧ (Γ.add p.var A).type? x = some A)
      (h : Context.Opens sig N (Γ.add p.var A) (xs.map (·, τ) ++ K) ps Δ L) :
      Context.Opens sig N Γ K (p :: ps) Δ L

section Params

variable {k : Checker} {N : Nat} {e : Equations} {Γ Δ : Context} {K L : Sorts} {x : Var} {A : Term}
  {fuel : Nat} {scope inner : Scope} {s s' : CheckState}
variable {u : Term} {ps : Telescope Term} {sort : USort}

theorem Context.Admits.plain (h : Γ.Admits k.sig N x A) : (Γ.add x A).Plain N nothing :=
  (h.context.add h.serial h.type).mono le_rfl fun _ h => h.elim

theorem Context.type?_eq_none (h : Γ.contains x = false) : Γ.type? x = none := by
  rw [Context.contains_eq_isSome, Option.isSome_eq_false_iff, Option.isNone_iff_eq_none] at h
  rw [Context.type?, h]
  rfl

/-- What is known stays known under one more variable. -/
theorem Checker.Knows.add (hk : k.traceDepth = 0) (h : k.Knows N e Γ K)
    (hadmits : Γ.Admits k.sig N x A) (hx : Γ.contains x = false) : k.Knows N e (Γ.add x A) K := by
  intro y τ hy
  obtain ⟨B, hB, haccepts⟩ := h y τ hy
  have hne : x ≠ y := by
    rintro rfl
    rw [Context.type?_eq_none hx] at hB
    cases hB
  refine ⟨B, (Context.type?_add_of_ne hne).trans hB, ?_⟩
  exact haccepts.add hk hadmits.sig hadmits.context (hadmits.context.of_type? hB) hadmits.plain

theorem Checker.addVar_ok {t : Term} (h : k.addVar scope x (some A) t s = .ok inner s') :
    scope.context.contains x = false ∧ inner = { scope with context := scope.context.add x A } ∧
      s' = s := by
  rw [Checker.addVar, Context.add?] at h
  cases hcontains : scope.context.contains x with
  | true =>
    rw [hcontains] at h
    cases h
  | false =>
    rw [hcontains] at h
    cases h
    exact ⟨rfl, rfl, rfl⟩

/-- The first parameter of a telescope that passes. -/
theorem Typing.params_cons {self} {p : Param Term}
    (h : params k self u scope (p :: ps) s = .ok inner s') :
    ∃ A s₁, Telescope.headType (p :: ps) = some A ∧ scope.context.contains p.var = false ∧
      params k self u { scope with context := scope.context.add p.var A } ps s₁ = .ok inner s' ∧
      (p.type = none ∧ s₁ = s ∨
        ∃ type T, p.type = some type ∧ self scope type (some u) s = .ok T s₁) := by
  have htail {s₁ : CheckState} (h : (do
      let type ← Telescope.headTypeM (p :: ps)
      let scope ← k.addVar scope p.var type type
      params k self u scope ps : Check Scope) s₁ = .ok inner s') :
      ∃ A, Telescope.headType (p :: ps) = some A ∧ scope.context.contains p.var = false ∧
        params k self u { scope with context := scope.context.add p.var A } ps s₁ =
          .ok inner s' := by
    rw [Telescope.headTypeM, Column.typeM] at h
    dsimp only at h
    cases hA : Telescope.headType (p :: ps) with
    | none =>
      rw [hA] at h
      cases h
    | some A =>
      rw [hA] at h
      obtain ⟨_, _, htype, h⟩ := bind_eq_ok_iff.mp h
      cases htype
      obtain ⟨_, _, hadd, h⟩ := bind_eq_ok_iff.mp h
      obtain ⟨hcontains, rfl, rfl⟩ := k.addVar_ok hadd
      exact ⟨A, rfl, hcontains, h⟩
  rw [params] at h
  cases hp : p.type with
  | none =>
    rw [hp] at h
    obtain ⟨A, hA, hcontains, hrest⟩ := htail h
    exact ⟨A, s, hA, hcontains, hrest, .inl ⟨rfl, rfl⟩⟩
  | some type =>
    rw [hp] at h
    obtain ⟨T, s₁, hrun, h⟩ := bind_eq_ok_iff.mp h
    obtain ⟨A, hA, hcontains, hrest⟩ := htail h
    exact ⟨A, s₁, hA, hcontains, hrest, .inr ⟨type, T, rfl, hrun⟩⟩

theorem SolverState.After.of_le {N' : Nat} {solver : SolverState} (h : solver.After N' e)
    (hN : N ≤ N') : solver.After N e :=
  ⟨hN.trans h.next, h.levelsOnly, h.deferLevels⟩

variable (hk : k.traceDepth = 0) (hsig : k.sig.Plain (Var.Old N nothing) (· < N))

include hk hsig

/-- A check against a universe goes on from where it started. -/
theorem Typing.after_term {T : Term} (hΓ : scope.context.Plain N nothing)
    (hA : A.Plain (Var.Old N nothing) (· < N))
    (hs : s.solver.After N e) (hu : u.node = .univ sort) (hstamp : u.stamp < s.solver.store.next)
    (h : term k fuel scope A (some u) s = .ok T s') : s'.solver.After s.solver.store.next e := by
  have hN := hs.next
  have hV (x : Var) (hx : x.Old N nothing) : x.Old s.solver.store.next nothing :=
    hx.later hN
  have hS (n : Nat) (hn : n < N) : n < s.solver.store.next := hn.trans_le hN
  have hu' : u.Plain (Var.Old s.solver.store.next nothing) (· < s.solver.store.next) := by
    obtain ⟨stamp, node⟩ := u
    cases hu
    exact Term.plain_mk.mpr ⟨rfl, hstamp, by simp, by simp,
      by simp, by simp⟩
  have hs' : s.solver.After s.solver.store.next e := ⟨le_rfl, hs.levelsOnly, hs.deferLevels⟩
  have hΓ' := hΓ.mono hN fun _ h => h
  obtain ⟨_, _, -, -, h, -⟩ := term_again hk (hsig.mono hV hS) hΓ' hΓ' (fun _ _ => rfl)
    (hA.mono hV hS) (by rintro _ ⟨⟩; exact hu') le_rfl hs' hs' h
  exact h

variable (h : Context.Opens k.sig N Γ K ps Δ L) (hΓ : Γ.Plain N nothing) (hK : k.Knows N e Γ K)
  (hps : Part.Plain (Var.Old N nothing) (· < N) (Telescope.parts ps))

include h hΓ hK hps

/-- Parameters that pass are in scope, and what is known of them is. -/
theorem Context.Opens.params
    (hrun : Typing.params k (Typing.term k fuel) u scope ps s = .ok inner s')
    (hscope : scope.context = Γ) (hs : s.solver.After N e)
    (hu : u.node = .univ sort) (hstamp : u.stamp < s.solver.store.next) :
    inner.context = Δ ∧ Δ.Plain N nothing ∧ k.Knows N e Δ L ∧
      s'.solver.After N e := by
  induction h generalizing scope s with
  | nil =>
    cases hrun
    exact ⟨hscope, hΓ, hK, hs⟩
  | @untyped Γ Δ K L p ps A hp hA hadmits h ih =>
    obtain ⟨A', s₁, hA', hcontains, hrun, ⟨-, rfl⟩ | ⟨type, _, hp', -⟩⟩ := Typing.params_cons hrun
    · have hhead : Telescope.headType (p :: ps) = ps.headType := by
        simp [Telescope.headType, hp]
      obtain rfl : A = A' := Option.some.inj (hA.symm.trans (hhead.symm.trans hA'))
      subst hscope
      refine ih hadmits.plain (hK.add hk hadmits hcontains) (hps.subset ?_) hrun rfl hs
        hstamp
      simp
    · rw [hp] at hp'
      cases hp'
  | @typed Γ Δ K L p ps A τ xs hp hadmits hxs h ih =>
    obtain ⟨A', s₁, hA', hcontains, hrun, ⟨hp', -⟩ | ⟨type, T, hp', hcheck⟩⟩ := Typing.params_cons hrun
    · rw [hp] at hp'
      cases hp'
    have hhead : Telescope.headType (p :: ps) = some A := by simp [Telescope.headType, hp]
    obtain rfl : A = A' := Option.some.inj (hhead.symm.trans hA')
    obtain rfl : A = type := Option.some.inj (hp.symm.trans hp')
    subst hscope
    have hA := hps.terms A (by simp [hp])
    have hs₁ := Typing.after_term hk hsig hΓ hA hs hu hstamp hcheck
    have hknows : k.Knows N e (scope.context.add p.var A) (xs.map (·, τ) ++ K) := by
      intro x σ hx
      rcases List.mem_append.mp hx with hx | hx
      · obtain ⟨y, hy, heq⟩ := List.mem_map.mp hx
        cases heq
        obtain ⟨hshown, htype⟩ := hxs x hy
        refine ⟨A, htype, ?_⟩
        exact (k.accepts_of_shown hk hsig hΓ hA hcheck hshown rfl hs).add hk hadmits.sig
          hadmits.context hadmits.type hadmits.plain
      · exact hK.add hk hadmits hcontains x σ hx
    refine ih hadmits.plain hknows (hps.subset ?_) hrun rfl (hs₁.of_le hs.next)
      (hstamp.trans_le hs₁.next)
    simp

/-- The same for the parameters of a function, checked against a universe that is built first. -/
theorem Context.Opens.paramsIn
    (hrun : Typing.paramsIn k (Typing.term k fuel) scope ps sort s = .ok inner s')
    (hscope : scope.context = Γ) (hs : s.solver.After N e) :
    inner.context = Δ ∧ Δ.Plain N nothing ∧ k.Knows N e Δ L ∧
      s'.solver.After N e := by
  obtain ⟨u, s₁, hbuild, hrun⟩ := bind_eq_ok_iff.mp hrun
  cases hbuild
  refine h.params hk hsig hΓ hK hps hrun hscope ?_ rfl (Nat.lt_succ_self _)
  exact ⟨Nat.le_succ_of_le hs.next, hs.levelsOnly, hs.deferLevels⟩

end Params

/-! ## The types that are inferred -/

/-- The term is a function, or several, around a variable with a known type, a type, or a value that
carries its type along, and no function claims to be in a smaller universe than the type of its
result. The sort is that of the type of the term. -/
inductive Annotated (sig : Signature) (N : Nat) : Context → Sorts → Term → USort → Prop where
  | var {Γ : Context} {K : Sorts} {n : Nat} {x : Var} {τ : USort} (hx : (x, τ) ∈ K) :
      Annotated sig N Γ K (.mk n (.ref x)) τ
  | type {Γ : Context} {K : Sorts} {t : Term} {τ : USort} (ht : t.shownSort? sig Γ = some τ)
      (hτ : τ.isOmega = false) : Annotated sig N Γ K t τ.succ
  | tuple {Γ : Context} {K : Sorts} {n : Nat} {fields : List Term}
      {type : Stamped (SigmaType Term)} : Annotated sig N Γ K (.mk n (.tuple fields type)) type.val.sort
  | new {Γ : Context} {K : Sorts} {n : Nat} {renewed : Option Term}
      {type : Stamped (RecordType Term)} : Annotated sig N Γ K (.mk n (.new renewed type)) type.val.sort
  | con {Γ : Context} {K : Sorts} {n : Nat} {c : ConApp Term}
      (hc : (sig.con c.con).patterns = none) : Annotated sig N Γ K (.mk n (.con c))
        ((sig.data (sig.con c.con).data).sort.subst c.sortArg.instantiation)
  | int {Γ : Context} {K : Sorts} {n : Nat} {i : Int} (hnat : (sig.data Prelude.nat).params = []) :
      Annotated sig N Γ K (.mk n (.int i))
        ((sig.data Prelude.nat).sort.subst USort.set0.instantiation)
  | ofType {Γ : Context} {K : Sorts} {n : Nat} {t A : Term} {τ : USort}
      (hA : A.shownSort? sig Γ = some τ) : Annotated sig N Γ K (.mk n (.ofType t A)) τ
  | lam {Γ Δ : Context} {K L : Sorts} {n : Nat} {sort τ : USort} {ps : Telescope Term} {body : Term}
      (hps : Context.Opens sig N Γ K ps Δ L) (hbody : Annotated sig N Δ L body τ)
      (hle : USort.compare .le τ sort = .ok true) : Annotated sig N Γ K (.mk n (.lam sort ps body)) sort

section Inference

variable {k : Checker} {N : Nat} {e : Equations} {Γ Δ : Context} {K L : Sorts}
  {fuel : Nat} {scope : Scope} {s s₁ : CheckState}
variable {T t : Term} {τ : USort} {n : Nat}

/-- A universe that is not the last one is a type. -/
theorem Checker.accepts_univ (hk : k.traceDepth = 0) (hT : T.node = .univ τ)
    (hτ : τ.isOmega = false) : k.Accepts N e Γ T τ.succ := by
  obtain ⟨stamp, node⟩ := T
  cases hT
  refine ⟨rfl, 1, fun fuel hle scope s _ hs => ?_⟩
  obtain ⟨fuel, rfl, -⟩ := exists_fuel_of_succ_le hle
  obtain ⟨u, s', hbuild, hu, hs'⟩ := hs.build (.univ τ.succ)
  refine ⟨u, s', ?_, hu, hs'⟩
  rw [Typing.term_succ hk]
  unfold Typing.step
  dsimp only [Term.node]
  rw [if_neg (by rw [hτ]; simp), run_bind hbuild]
  rfl

theorem Typing.step_of_term (hk : k.traceDepth = 0) (h : term k fuel scope t none s = .ok T s₁) :
    ∃ j, fuel = j + 1 ∧
      step k j (term k j) { scope with depth := scope.depth + 1 } t none s = .ok T s₁ := by
  cases fuel with
  | zero => cases h
  | succ fuel =>
    rw [term_succ hk] at h
    exact ⟨fuel, rfl, h⟩

theorem Typing.returns_recordValue {self} (renewed : Option Term)
    (type : Stamped (RecordType Term)) :
    Check.Returns (recordValue k self scope t renewed type) fun T => T = type.record := by
  unfold recordValue
  refine .bind fun _ => ?_
  dsimp only
  split
  · exact .refuse_bind
  split
  · exact .bind fun _ => .bind fun _ => .bind fun _ => .pure rfl
  · exact .pure rfl

variable (hk : k.traceDepth = 0) (hsig : k.sig.Plain (Var.Old N nothing) (· < N))
  (hΓ : Γ.Plain N nothing) (hs : s.solver.After N e)

include hk hsig hΓ hs

/-- A data type with arguments that were checked is a type. -/
theorem Checker.accepts_data {d : DataName} {sortArg : USort} {args : List Term} {σ : Substitution}
    (hargs : ∀ a ∈ args, a.Plain (Var.Old N nothing) (· < N))
    (hrun : Typing.callArgs k fuel (Typing.term k fuel) scope t none
      (.of .empty sortArg.instantiation) (k.sig.data d).params.columns args s = .ok σ s₁)
    (hscope : scope.context = Γ) :
    k.Accepts N e Γ (.mk n (.data ⟨d, sortArg, args⟩))
      ((k.sig.data d).sort.subst sortArg.instantiation) := by
  refine ⟨rfl, fuel + 1, fun fuel' hle scope' s' hscope' hs' => ?_⟩
  obtain ⟨fuel', rfl, hrest⟩ := exists_fuel_of_succ_le hle
  subst hscope
  have hpaired : scope.Paired (.again nothing hs.next hs'.next)
      { scope' with depth := scope'.depth + 1 } :=
    Scope.paired_deeper hΓ hscope' _
  have hlike : List.Forall₂ (Term.Like (.again nothing hs.next hs'.next)) args args :=
    List.forall₂_same.mpr fun a ha => (hargs a ha).like_again hs.next hs'.next
  have hmirrors : Mirrors (.again nothing hs.next hs'.next)
      (Typing.callArgs k fuel (Typing.term k fuel) scope t none
        (.of .empty sortArg.instantiation) (k.sig.data d).params.columns args)
      (Typing.callArgs k fuel' (Typing.term k fuel') { scope' with depth := scope'.depth + 1 }
        (.mk n (.data ⟨d, sortArg, args⟩)) none
        (.of .empty sortArg.instantiation) (k.sig.data d).params.columns args)
      (Substitution.Paired (.again nothing hs.next hs'.next)) :=
    Typing.mirrors_callArgs hrest (Typing.alike_again hk hsig hs.next hs'.next hrest) hpaired .none
      (.of .empty sortArg.instantiation)
      (Telescope.Paired.columns ((hsig.steady_again hs.next hs'.next).data d)) hlike
  obtain ⟨σ', s₂, hrun', -, -, hs₂⟩ := hmirrors.again hs hs' hrun
  obtain ⟨u, s₃, hbuild, hu, hs₃⟩ :=
    hs₂.build (.univ ((k.sig.data d).sort.subst sortArg.instantiation))
  have hdata : Typing.dataType k fuel' (Typing.term k fuel') { scope' with depth := scope'.depth + 1 }
      (.mk n (.data ⟨d, sortArg, args⟩)) ⟨d, sortArg, args⟩ s' = .ok u s₃ := by
    rw [Typing.dataType, run_bind hrun', hbuild]
  refine ⟨u, s₃, ?_, hu, hs₃⟩
  rw [Typing.term_succ hk]
  unfold Typing.step
  dsimp only [Term.node]
  rw [run_bind hdata]
  rfl

/-- A function type is a type if its parameters were checked and its codomain is accepted. -/
theorem Checker.accepts_pi {ps : Telescope Term} {C : Term} {inner : Scope}
    (hK : k.Knows N e Γ K) (hps : Part.Plain (Var.Old N nothing) (· < N) ps.parts)
    (hopens : Context.Opens k.sig N Γ K ps Δ L) (hC : k.Accepts N e Δ C τ)
    (hle : USort.compare .le τ sort = .ok true)
    (hrun : Typing.paramsIn k (Typing.term k fuel) scope ps ⟨sort.p, .infinity⟩ s = .ok inner s₁)
    (hscope : scope.context = Γ) :
    k.Accepts N e Γ (.mk n (.pi sort ps C)) sort := by
  obtain ⟨least, hagainst⟩ := hC.against hk (.inr hle)
  refine ⟨rfl, max fuel least + 1, fun fuel' hle scope' s' hscope' hs' => ?_⟩
  obtain ⟨fuel', rfl, hrest⟩ := exists_fuel_of_succ_le hle
  subst hscope
  have hpaired : scope.Paired (.again nothing hs.next hs'.next)
      { scope' with depth := scope'.depth + 1 } :=
    Scope.paired_deeper hΓ hscope' _
  have htelescope : Telescope.Paired (.again nothing hs.next hs'.next) (Term.Like _) ps ps :=
    (hps.fixed (fun _ hx => hx.paired) fun _ hn => Pairing.again_stamp hn).telescope
  have hmirrors := Typing.mirrors_paramsIn (k := k)
    (Typing.alike_again hk hsig hs.next hs'.next (by omega : fuel ≤ fuel')) hpaired
    ⟨sort.p, .infinity⟩ htelescope
  obtain ⟨inner', s₂, hrun', -, -, hs₂⟩ := hmirrors.again hs hs' hrun
  obtain ⟨hΔ, -, -, -⟩ := hopens.paramsIn hk hsig hΓ hK hps hrun' hscope' hs'
  obtain ⟨u, s₃, hu, hunode, hs₃⟩ := hs₂.build (.univ sort)
  obtain ⟨s₄, hcodomain, hs₄⟩ := hagainst fuel' (by omega) inner' s₃ u hΔ hs₃ hunode
  obtain ⟨v, s₅, hv, hvnode, hs₅⟩ := hs₄.build (.univ sort)
  have htypeIn : Typing.typeIn (Typing.term k fuel') inner' C sort s₂ = .ok () s₄ := by
    rw [Typing.typeIn, run_bind hu, run_bind hcodomain]
    rfl
  refine ⟨v, s₅, ?_, hvnode, hs₅⟩
  rw [Typing.term_succ hk]
  unfold Typing.step
  dsimp only [Term.node]
  rw [run_bind hrun', run_bind htypeIn, run_bind hv]
  rfl

/-- The type that is inferred for an annotated term is accepted with the sort of the
annotation. -/
theorem Annotated.accepts (h : Annotated k.sig N Γ K t τ) (hK : k.Knows N e Γ K)
    (ht : t.Plain (Var.Old N nothing) (· < N)) (hrun : Typing.term k fuel scope t none s = .ok T s₁)
    (hscope : scope.context = Γ) : k.Accepts N e Γ T τ := by
  obtain ⟨fuel, rfl, hstep⟩ := Typing.step_of_term hk hrun
  clear hrun
  induction h generalizing fuel scope s s₁ T with
  | @var Γ K n x τ hx =>
    obtain ⟨A, hA, haccepts⟩ := hK x τ hx
    have hkind := ht.refs x (List.mem_singleton_self x)
    have htype := Typing.returns_conclude (Typing.returns_variableType hkind) s T s₁ hstep
    subst hscope
    obtain rfl : A = T := Option.some.inj (hA.symm.trans htype)
    exact haccepts
  | @type Γ K t τ hshown hτ =>
    subst hscope
    refine k.accepts_univ hk (Typing.returns_shownSort ht.refs ?_ s T s₁ hstep) hτ
    exact hshown
  | @tuple Γ K n fields type =>
    obtain ⟨U, s₂, hsigma, hstep⟩ := bind_eq_ok_iff.mp hstep
    obtain ⟨σ, s₃, -, hstep⟩ := bind_eq_ok_iff.mp hstep
    cases hstep
    exact k.accepts_of_shown hk hsig hΓ ht.sigma hsigma rfl hscope hs
  | @new Γ K n renewed type =>
    obtain rfl := Typing.returns_conclude (Typing.returns_recordValue renewed type) s T s₁ hstep
    obtain ⟨_, _, hvalue, -⟩ := bind_eq_ok_iff.mp hstep
    obtain ⟨U, s₂, hrecord, -⟩ := bind_eq_ok_iff.mp hvalue
    exact k.accepts_of_shown hk hsig hΓ ht.record hrecord rfl hscope hs
  | @con Γ K n c hc =>
    obtain ⟨T', s₂, hcon, hstep⟩ := bind_eq_ok_iff.mp hstep
    cases hstep
    obtain ⟨σ, s₃, hargs, hcon⟩ := bind_eq_ok_iff.mp hcon
    obtain ⟨_, s₄, -, hcon⟩ := bind_eq_ok_iff.mp hcon
    have hcolumns : k.sig.dataColumns c.con = (k.sig.data (k.sig.con c.con).data).params.columns := by
      rw [Signature.dataColumns, hc]
    rw [hcolumns] at hargs
    have hdata : c.dataType k.sig fuel = pure ⟨(k.sig.con c.con).data, c.sortArg, c.dataArgs⟩ := by
      rw [ConApp.dataType, hc]
    rw [hdata] at hcon
    cases hcon
    obtain ⟨-, -, -, -, hparts⟩ := Term.plain_mk.mp ht
    refine k.accepts_data hk hsig hΓ hs (fun a ha => hparts.terms a ?_) hargs hscope
    simp [ha]
  | @int Γ K n i hnat =>
    cases hstep
    have hargs : Typing.callArgs k fuel (Typing.term k fuel) scope (.mk n (.int i)) none
        (.of .empty USort.set0.instantiation) (k.sig.data Prelude.nat).params.columns [] s =
          .ok (.of .empty USort.set0.instantiation) s := by
      rw [hnat]
      rfl
    exact k.accepts_data hk hsig hΓ hs (by simp) hargs hscope
  | @ofType Γ K n t A τ hA =>
    obtain ⟨_, s₂, htypeIn, hstep⟩ := bind_eq_ok_iff.mp hstep
    obtain ⟨_, s₃, -, hstep⟩ := bind_eq_ok_iff.mp hstep
    cases hstep
    obtain ⟨u, s₄, hbuild, htypeIn⟩ := bind_eq_ok_iff.mp htypeIn
    obtain ⟨U, s₅, hcheck, -⟩ := bind_eq_ok_iff.mp htypeIn
    cases hbuild
    obtain ⟨-, -, -, -, hparts⟩ := Term.plain_mk.mp ht
    refine k.accepts_of_shown hk hsig hΓ (hparts.terms A ?_) hcheck hA hscope ?_
    · simp
    · exact ⟨Nat.le_succ_of_le hs.next, hs.levelsOnly, hs.deferLevels⟩
  | @lam Γ Δ K L n sort τ ps body hopens hbody hle ih =>
    obtain ⟨inner, s₂, hparams, hstep⟩ := bind_eq_ok_iff.mp hstep
    obtain ⟨C, s₃, hbody, hstep⟩ := bind_eq_ok_iff.mp hstep
    obtain ⟨_, _, hbuild, hstep⟩ := bind_eq_ok_iff.mp hstep
    cases hbuild
    cases hstep
    obtain ⟨-, -, -, -, hparts⟩ := Term.plain_mk.mp ht
    have hps := hparts.subset (List.subset_append_left _ _)
    have hbodyPlain := hparts.terms body (by simp)
    obtain ⟨hΔ, hplain, hL, hs₂⟩ := hopens.paramsIn hk hsig hΓ hK hps hparams hscope hs
    obtain ⟨_, rfl, hrest⟩ := Typing.step_of_term hk hbody
    have hC := ih hplain hs₂ hL hbodyPlain hΔ _ hrest
    exact k.accepts_pi hk hsig hΓ hs hK hps hopens hC hle hparams hscope

end Inference

/-! ## Checks that begin -/

/-- The variables of the context whose types show their sorts. -/
def Context.sorts (sig : Signature) (Γ : Context) : Sorts :=
  Γ.entries.filterMap fun e => ((Γ.type? e.var).bind (Term.shownSort? sig Γ)).map (e.var, ·)

/-- Every type in the context passes. -/
def Checker.AcceptsContext (k : Checker) (Γ : Context) (st : CheckState) : Prop :=
  ∀ x A, Γ.type? x = some A → ∃ fuel τ st', k.checkType fuel Γ A st = .ok τ st'

section Checks

variable {k : Checker} {N : Nat} {Γ : Context} {st : CheckState}

theorem Checker.AcceptsContext.knows (hk : k.traceDepth = 0)
    (hsig : k.sig.Plain (Var.Old N nothing) (· < N)) (hΓ : Γ.Plain N nothing)
    (hnext : N ≤ st.solver.store.next) (h : k.AcceptsContext Γ st) :
    k.Knows N st.solver.equations Γ (Γ.sorts k.sig) := by
  intro x τ hx
  obtain ⟨entry, -, hentry⟩ := List.mem_filterMap.mp hx
  obtain ⟨σ, hσ, heq⟩ := Option.map_eq_some_iff.mp hentry
  cases heq
  obtain ⟨A, hA, hshown⟩ := Option.bind_eq_some_iff.mp hσ
  obtain ⟨fuel, _, _, hcheck⟩ := h _ A hA
  obtain ⟨_, _, hrun, -⟩ := bind_eq_ok_iff.mp hcheck
  exact ⟨A, hA, k.accepts_of_shown hk hsig hΓ (hΓ.of_type? hA) hrun hshown rfl ⟨hnext, rfl, rfl⟩⟩

/-- A type that is accepted passes from now on. -/
theorem Checker.Accepts.checkType {A : Term} {τ : USort} {e : Equations} (h : k.Accepts N e Γ A τ)
    (hs : st.solver.After N e) :
    ∃ least, ∀ fuel ≥ least, ∃ st', k.checkType fuel Γ A st = .ok τ st' := by
  obtain ⟨-, least, hruns⟩ := h
  refine ⟨least + 1, fun fuel hle => ?_⟩
  obtain ⟨type, st', hrun, htype, -⟩ := hruns fuel (by omega) (.ofContext Γ) st rfl hs
  obtain ⟨fuel, rfl, -⟩ := exists_fuel_of_succ_le hle
  have hcanonical : type.node.isCanonical := by rw [htype]; rfl
  have hwhnf : (liftM (type.whnf k.sig (fuel + 1)) : Check Term) st' = .ok type st' :=
    liftCheck_of_ok (liftSolver_of_ok (whnf_of_isCanonical hcanonical k.sig fuel _))
  refine ⟨st', ?_⟩
  rw [Checker.checkType, Typing.sortOf, run_bind hrun, run_bind hwhnf, htype]
  rfl

/-- The type of a variable passes again, after the variable was looked up. -/
theorem Checker.AcceptsContext.again {x : Var} {t T : Term} {fuel : Nat} {st₁ : CheckState}
    (hk : k.traceDepth = 0) (hsig : k.sig.Plain (Var.Old N nothing) (· < N)) (hΓ : Γ.Plain N nothing)
    (hnext : N ≤ st.solver.store.next) (h : k.AcceptsContext Γ st)
    (ht : t.Plain (Var.Old N nothing) (· < N)) (hx : t.node = .ref x)
    (hcheck : k.check fuel Γ t none st = .ok T st₁) :
    ∃ least τ, ∀ fuel' ≥ least, ∃ st₂, k.checkType fuel' Γ T st₁ = .ok τ st₂ := by
  have hs : st.solver.After N st.solver.equations := ⟨hnext, rfl, rfl⟩
  obtain ⟨_, _, -, -, hs₁, -⟩ := Typing.term_again hk hsig hΓ hΓ (fun _ _ => rfl) ht (by simp)
    le_rfl hs hs hcheck
  have hT : Γ.type? x = some T := by
    obtain ⟨_, rfl, hstep⟩ := Typing.step_of_term hk hcheck
    have hkind := ht.refs x (by rw [hx]; exact List.mem_singleton_self x)
    obtain ⟨n, _⟩ := t
    cases hx
    exact Typing.returns_conclude (Typing.returns_variableType hkind) st T st₁ hstep
  obtain ⟨least, τ, st', hrun⟩ := h x T hT
  refine ⟨least, τ, fun fuel' hle => ?_⟩
  have hmirrors := Typing.mirrors_sortOf (hsig.steady_again hs.next hs₁.next) hle
    (Typing.alike_again hk hsig hs.next hs₁.next hle)
    (Scope.paired_deeper hΓ rfl 0 : (Scope.ofContext Γ).Paired _ (.ofContext Γ))
    ((hΓ.of_type? hT).like_again hs.next hs₁.next)
  obtain ⟨_, st₂, hrun', rfl, -, -⟩ := hmirrors.again hs hs₁ hrun
  exact ⟨st₂, hrun'⟩

/-- What is inferred is a type: if the types of the context pass, the type that is inferred for a
variable or for an annotated term passes in the same context, in the state after. -/
theorem Checker.checkType_of_check {t T : Term} {fuel : Nat} {st₁ : CheckState}
    (hk : k.traceDepth = 0) (hsig : k.sig.Plain (Var.Old N nothing) (· < N))
    (hΓ : Γ.Plain N nothing) (hnext : N ≤ st.solver.store.next) (htypes : k.AcceptsContext Γ st)
    (ht : t.Plain (Var.Old N nothing) (· < N))
    (hform : (∃ x, t.node = .ref x) ∨ ∃ τ, Annotated k.sig N Γ (Γ.sorts k.sig) t τ)
    (hcheck : k.check fuel Γ t none st = .ok T st₁) :
    ∃ least τ, ∀ fuel' ≥ least, ∃ st₂, k.checkType fuel' Γ T st₁ = .ok τ st₂ := by
  obtain ⟨x, hx⟩ | ⟨τ, hannotated⟩ := hform
  · exact htypes.again hk hsig hΓ hnext ht hx hcheck
  · have hs : st.solver.After N st.solver.equations := ⟨hnext, rfl, rfl⟩
    obtain ⟨_, _, -, -, hs₁, -⟩ := Typing.term_again hk hsig hΓ hΓ (fun _ _ => rfl) ht
      (by simp) (Nat.le_refl fuel) hs hs hcheck
    have haccepts := hannotated.accepts hk hsig hΓ hs (htypes.knows hk hsig hΓ hnext) ht hcheck rfl
    obtain ⟨least, hruns⟩ := haccepts.checkType hs₁
    exact ⟨least, τ, hruns⟩

end Checks

namespace PolymorphicConstant

open Prelude (checker)

def z : Var := ⟨14, .param, "z"⟩

def A : Var := ⟨15, .param, "A"⟩

def x : Var := ⟨16, .param, "x"⟩

def y : Var := ⟨17, .param, "y"⟩

def sets : Term := .mk 18 (.univ .set0)

/-- The type of both `x` and `y`. -/
def type : Term := .mk 19 (.ref A)

def params : Telescope Term := [⟨A, some sets, true⟩, ⟨x, none, true⟩, ⟨y, some type, true⟩]

/-- The function `\lam (A : \Set) (x y : A) => x`. -/
def term : Term := .mk 21 (.lam (.ofSet 1) params (.mk 20 (.ref x)))

def context : Context := ⟨[⟨z, some (.mk 13 .nat)⟩]⟩

def state : CheckState := .ofStore (.start 22)

theorem signature_plain : Prelude.signature.Plain (Var.Old 13 nothing) (· < 13) := by
  refine Signature.plain_of_entries ⟨.inl rfl, by decide, id⟩ ?_ ?_ ?_ ?_ ?_ ?_
  · exact Term.plain_mk.mpr (by simp)
  · simp [Prelude.signature]
  · simp [Prelude.conDefs_entries]
  · simp [Prelude.signature, Table.empty]
  · simp [Prelude.signature, Table.empty]
  · simp [Prelude.funcDefs_entries]

theorem signature_plain_without (j : Nat) (hj : 13 ≤ j) :
    checker.sig.Plain (Var.Old 22 (· = j)) (· < 22) := by
  refine signature_plain.mono (fun v hv => ?_) fun n hn => by omega
  have hserial := hv.serial
  exact ⟨hv.kind, by omega, by omega⟩

theorem context_plain (X : Nat → Prop) : context.Plain 22 X := by
  constructor
  · simp [context, z]
  · simp [context]

theorem sets_plain (X : Nat → Prop) : sets.Plain (Var.Old 22 X) (· < 22) := by
  simp [sets]

theorem type_plain {X : Nat → Prop} (hX : ¬ X 15) : type.Plain (Var.Old 22 X) (· < 22) := by
  simp [type, A, hX]

theorem opens : Context.Opens checker.sig 22 context (context.sorts checker.sig) params
    (((context.add A sets).add x type).add y type) ([(x, .set0)] ++ context.sorts checker.sig) := by
  have hA : (context.add A sets).Plain 22 (· = x.serial) :=
    (context_plain _).add (by decide) (sets_plain _)
  have hx : ((context.add A sets).add x type).Plain 22 (· = y.serial) :=
    ((context_plain _).add (by decide) (sets_plain _)).add (by decide) (type_plain (by decide))
  have hnone : ∀ v ∈ ([] : List Var), sets.shownSort? checker.sig context = some .set0 ∧
      (context.add A sets).type? v = some sets := by simp
  have hshown : ∀ v ∈ [x], type.shownSort? checker.sig ((context.add A sets).add x type) =
      some .set0 ∧ (((context.add A sets).add x type).add y type).type? v = some type := by
    intro v hv
    obtain rfl := List.mem_singleton.mp hv
    exact ⟨rfl, rfl⟩
  refine .typed rfl ⟨by decide, signature_plain_without _ (by decide), context_plain _,
    sets_plain _⟩ hnone ?_
  refine .untyped rfl rfl
    ⟨by decide, signature_plain_without _ (by decide), hA, type_plain (by decide)⟩ ?_
  exact .typed rfl
    ⟨by decide, signature_plain_without _ (by decide), hx, type_plain (by decide)⟩ hshown .nil

theorem term_plain : term.Plain (Var.Old 22 nothing) (· < 22) := by
  simp [term, params, A, x, y, type, sets]

theorem accepts_context : checker.AcceptsContext context state := by
  intro v B hv
  obtain ⟨entry, hentry, htype⟩ := Option.bind_eq_some_iff.mp hv
  obtain ⟨hmem, -⟩ := Context.entry?_eq_some hentry
  obtain rfl := List.mem_singleton.mp hmem
  cases htype
  exact ⟨10, _, _, rfl⟩

theorem constant_type_passes : ∃ T st₁, checker.check 10 context term none state = .ok T st₁ ∧
    ∃ least τ, ∀ fuel ≥ least, ∃ st₂, checker.checkType fuel context T st₁ = .ok τ st₂ := by
  have hsucceeds : (checker.check 10 context term none).succeeds state := by decide +kernel
  obtain ⟨T, st₁, hcheck⟩ := Check.exists_ok hsucceeds
  refine ⟨T, st₁, hcheck, checker.checkType_of_check (N := 22) rfl ?_ (context_plain nothing)
    (by decide) accepts_context term_plain (.inr ⟨.ofSet 1, ?_⟩) hcheck⟩
  · refine signature_plain.mono (fun v hv => hv.mono (by decide) fun _ h => h) fun n hn => by omega
  · exact .lam opens (.var List.mem_cons_self) rfl

end PolymorphicConstant

/-! ## Types that do not pass -/

/-- Infers the type of a term and checks in the state after whether it is one. The answer is
the cause for which it is not. -/
def Checker.recheck (k : Checker) (fuel : Nat) (Γ : Context) (t : Term) (st : CheckState) :
    Option (Option Cause) :=
  match k.check fuel Γ t none st with
  | .ok type st' =>
    match k.checkType fuel Γ type st' with
    | .ok _ _ => some none
    | .error (.error e) _ => some (some e.cause)
    | .error (.fault _) _ => none
  | .error _ _ => none

namespace UncheckedType

/-- The function `\lam (x : Nat) => \Set3`, which claims to be in `\Set0`. -/
def function : Term :=
  .mk 15 (.lam .set0 [⟨⟨14, .param, "x"⟩, some (.mk 13 .nat), true⟩]
    (.mk 16 (.univ (.ofSet 3))))

def functionState : CheckState := .ofStore (.start 17)

/-- The expression `\let c : Nat => zero \in k`, where `k` is in the data type `D c`. -/
def letTerm : Term :=
  .mk 21 (.letIn false [LetEscape.c]
    (.mk 22 (.con ⟨⟨14, "k"⟩, .set0, [.mk 23 (.ref LetEscape.c)], []⟩)))

def letState : CheckState :=
  .ofStore { Store.start 25 with
    clauses := Table.empty.insert 19 ⟨.mk 24 .zero, some (.mk 20 .nat)⟩ }

/-- The universe that a function claims is not checked, and neither is whether the type of a let
expression mentions its clauses. -/
theorem inferred_type_refused :
    LetEscape.checker.recheck 20 .empty function functionState = some (some .typeMismatch) ∧
      LetEscape.checker.recheck 20 .empty letTerm letState = some (some .unbound) := by
  decide +kernel

def x : Var := ⟨13, .param, "x"⟩

def nat : Term := .mk 14 .nat

/-- The term `?v[x := y]`, in which nothing binds `y`. -/
def delayedTerm : Term :=
  .mk 15 (.delayed (.mk 16 (.unknown ⟨17, .unknown, "?v"⟩))
    (.own (.single (.local x) (.mk 18 (.ref ⟨19, .param, "y"⟩)))) .empty)

/-- A store in which the unknown may refer to `x`. -/
def unsolved : Store :=
  { Store.start 21 with
    unknowns := Table.empty.insert 17 ⟨some nat, [x], true, default, false⟩ }

/-- The values of a substitution that waits for an unknown are not checked. The term passes, and
`x` passes as a solution of the unknown; but the term with that solution does not pass. -/
theorem solved_term_refused :
    let u : Term := .mk 20 (.ref x)
    (Prelude.checker.check 20 .empty delayedTerm (some nat)).succeeds (.ofStore unsolved) ∧
      (Prelude.checker.check 20 ⟨[⟨x, some nat⟩]⟩ u (some nat)).succeeds (.ofStore unsolved) ∧
      (Prelude.checker.check 20 .empty delayedTerm (some nat)).cause
        (.ofStore { unsolved with solutions := Table.empty.insert 16 u }) = some .unbound := by
  decide +kernel

end UncheckedType

end Recheck
