import Recheck.Proofs.Reflexivity.Inference

/-!
# Recheck — checking against the inferred type

The second check of a term, against the type that the first check inferred, infers a copy of
that type and compares it with the type itself. Main statement: `Checker.check_inferred`, the
comparison does not refuse the copy of a tame type, so the check returns the type, unless the
comparison ends in a fault.
-/

namespace Recheck

open Pairing (nothing)

theorem Term.Tame.plain {N : Nat} {D : Vars} {t : Term} (h : t.Tame N D) :
    t.Plain (Var.Old N nothing) (· < N) := by
  induction h with
  | @mk D stamp node hform hstamp hinner hrefs hbinders _ ih =>
    refine ⟨?_, hstamp, hinner, fun x hx => (hrefs x hx).2, hbinders, fun t ht => ?_⟩
    · cases node <;> first | rfl | cases hform
    · obtain ⟨E, hE⟩ := Node.site_of_part hform ht
      exact ih E t hE

/-- All variables have numbers below `N`, and all types are tame. -/
structure Context.Tame (N : Nat) (Γ : Context) : Prop where
  serial : ∀ e ∈ Γ.entries, e.var.serial < N
  type : ∀ e ∈ Γ.entries, ∀ A, e.type = some A → A.Tame N (Vars.old N)

namespace Context.Tame

variable {N : Nat} {Γ : Context}

theorem plain (h : Γ.Tame N) : Γ.Plain N nothing :=
  ⟨h.serial, fun e he A hA => (h.type e he A hA).plain⟩

theorem scope (h : Γ.Tame N) : (Scope.ofContext Γ).Tame N (Vars.old N) := by
  intro x A hA
  obtain ⟨e, he, htype⟩ := Option.bind_eq_some_iff.mp hA
  exact h.type e (Context.entry?_eq_some he).1 A htype

end Context.Tame

/-- The register of two runs, of which the second begins after the first has taken `k` numbers. -/
def Register.ofRuns {N m m' : Nat} (k : Nat) (hm : N ≤ m) (hm' : m + k ≤ m') : Register N where
  limit := m' + k
  pairs n n' := (n = n' ∧ n < N) ∨ ∃ j, j < k ∧ n = m + j ∧ n' = m' + j
  unique := by
    constructor
    · rintro a b c (⟨rfl, ha⟩ | ⟨i, hi, rfl, rfl⟩) (⟨rfl, hb⟩ | ⟨j, hj, rfl, hj'⟩) <;> omega
    · rintro a b c (⟨rfl, ha⟩ | ⟨i, hi, rfl, rfl⟩) (⟨rfl, hb⟩ | ⟨j, hj, hj', rfl⟩) <;> omega
  below n n' h := by
    rcases h with ⟨rfl, hn⟩ | ⟨j, hj, rfl, rfl⟩ <;> omega
  fixed n hn := .inl ⟨rfl, hn⟩

theorem Register.aligned_empty {N : Nat} (L : Register N) : L.Aligned .empty (Vars.old N) where
  old _ hx := hx
  below _ hx := hx.serial.trans_le L.le_limit
  related := by
    rintro _ _ hx @⟨n, n', kind, name, hkind, hpair⟩
    have hpair := hpair.pairs_of_lt (hx.serial.trans_le L.le_limit)
    obtain rfl := L.unique.2 hpair (L.fixed n hx.serial)
    exact .inl rfl

section Checking

variable {k : Checker} {N fuel fuel' : Nat} {e : Equations} {Γ : Context} {t T T' : Term}
  {s s₁ s' s₂ : CheckState}

/-- The comparison of a type with its copy does not answer `false`. -/
theorem Checker.advances_compareTypes {L : Register N} {s : Store} (hsig : k.sig.Tame N)
    (htwins : L.Twins T T') (hT : T.Tame L.limit (Vars.old N)) (hs : L.limit ≤ s.next) :
    Advances (k.compareTypes fuel .le T' T) s fun answer _ => answer = true := by
  refine (Typing.tames_univ (D := Vars.old N) .omega).bind fun omega s₁ hle _ => ?_
  exact Yields.liftCheck (Conversion.passesTwins_run hsig.plain hsig.bodies fuel .le (some omega)
    L.aligned_empty htwins hT (hs.trans hle))

/-- A comparison that fails has met a fault. -/
theorem Checker.compareTypes_eq_error {r : Relation} {failure : Failure}
    (h : k.compareTypes fuel r T' T s = .error failure s₁) : ∃ fault, failure = .fault fault := by
  obtain ⟨omega, solver, hbuild⟩ : ∃ omega solver, (liftM (Core.build (.univ .omega)) :
      Check Term) s = .ok omega solver := ⟨_, _, rfl⟩
  rw [Checker.compareTypes, run_bind hbuild] at h
  replace h : Check.ofSolver (Solver.compare k.sig fuel k.span r T' T (some omega)) solver =
    .error failure s₁ := h
  rw [Check.ofSolver] at h
  split at h
  · cases h
  · cases h
    exact ⟨_, rfl⟩

theorem Checker.after_check (hk : k.traceDepth = 0) (hsig : k.sig.Tame N) (hΓ : Γ.Tame N)
    (ht : t.Tame N (Vars.old N)) (hs : s.solver.After N e)
    (h : k.check fuel Γ t none s = .ok T s₁) : s₁.solver.After N e := by
  obtain ⟨_, _, -, -, hs₁, -⟩ := Typing.term_again hk hsig.plain hΓ.plain hΓ.plain (fun _ _ => rfl)
    ht.plain (by simp) le_rfl hs hs h
  exact hs₁

/-- A later check that infers the type again comes to a copy of it, by a register of the numbers
that the two checks have taken. -/
theorem Checker.infers_twin (hk : k.traceDepth = 0) (hsig : k.sig.Tame N) (hΓ : Γ.Tame N)
    (ht : t.Tame N (Vars.old N)) (hs : s.solver.After N e) (hs' : s'.solver.After N e)
    (hlater : s₁.solver.store.next ≤ s'.solver.store.next) (hfuel : fuel ≤ fuel')
    (h : k.check fuel Γ t none s = .ok T s₁) :
    ∃ T' s₂, k.check fuel' Γ t none s' = .ok T' s₂ ∧ ∃ L : Register N, L.Twins T T' ∧
      T.Tame L.limit (Vars.old N) ∧ L.limit = s₂.solver.store.next := by
  have htame : s.solver.store.next ≤ s₁.solver.store.next ∧
      T.Tame s₁.solver.store.next (Vars.old N) :=
    (Typing.infersTame_term hk hsig fuel).tame hs.next (fun _ hx => hx)
      (hΓ.scope.mono hs.next .refl) (ht.later hs.next) T _ ⟨s, s₁, rfl, rfl, h⟩
  have hscope : (Scope.ofContext Γ).Paired (.again nothing hs.next hs'.next) (.ofContext Γ) :=
    Scope.paired_again hΓ.plain hΓ.plain (fun _ _ => rfl)
  have hmirrors := Typing.alike_again hk hsig.plain hs.next hs'.next hfuel hscope
    (ht.plain.like_again hs.next hs'.next) (.none : Option.Rel _ none none)
  have hreflects := hmirrors s s' (paired_again (hs'.levelsOnly.trans hs.levelsOnly.symm)
    (hs'.deferLevels.trans hs.deferLevels.symm))
  rw [show Typing.term k fuel (.ofContext Γ) t none s = .ok T s₁ from h] at hreflects
  obtain ⟨T', s₂, hrun, hlike, hpaired⟩ := hreflects
  obtain ⟨j, hj, hj'⟩ := hpaired.store
  replace hj : s₁.solver.store.next = s.solver.store.next + j := hj
  replace hj' : s₂.solver.store.next = s'.solver.store.next + j := hj'
  have hpairs {n n' : Nat} (hn : n < s₁.solver.store.next)
      (hpair : Pairing.Again N nothing s.solver s'.solver n n') :
      (Register.ofRuns j hs.next (hj ▸ hlater)).pairs n n' := by
    rcases hpair with ⟨rfl, hlt, -⟩ | ⟨i, rfl, rfl⟩
    · exact .inl ⟨rfl, hlt⟩
    · exact .inr ⟨i, by omega, rfl, rfl⟩
  refine ⟨T', s₂, hrun, .ofRuns j hs.next (hj ▸ hlater), ?_, htame.2.later ?_, hj'.symm⟩
  · exact hlike.narrow htame.2 (fun _ _ _ hn hpair => ⟨hpair.1, .inl (hpairs hn hpair.2)⟩)
      fun _ _ hn hpair => .inl (hpairs hn hpair)
  · exact hlater.trans (Nat.le_add_right _ _)

/-- A check against a type infers first, and then compares. -/
theorem Checker.check_against (hk : k.traceDepth = 0) (ht : t.Tame N (Vars.old N))
    (h : k.check (fuel + 1) Γ t none s = .ok T' s₁) :
    k.check (fuel + 1) Γ t (some T) s = Typing.conclude k fuel t (some T) T' s₁ := by
  have hout : t.node.leadsOut = false := ht.plain.inward
  have hhole := Typing.node_ne_hole hk h
  rw [Checker.check, Typing.term_succ hk] at h ⊢
  rw [Typing.step_eq_conclude hout _ hhole, run_bind h]

/-- The check of a tame term against the type that was inferred for it returns the type, or it
ends in a fault of the comparison of the type with the one that is inferred again. It does not
refuse the term. Which fault it is is left open: an inferred type need not pass a check itself, so
nothing is known about its reduction. -/
theorem Checker.check_inferred (hk : k.traceDepth = 0) (hsig : k.sig.Tame N) (hΓ : Γ.Tame N)
    (ht : t.Tame N (Vars.old N)) (hs : s.solver.After N e) (hs' : s'.solver.After N e)
    (hlater : s₁.solver.store.next ≤ s'.solver.store.next) (hfuel : fuel ≤ fuel')
    (h : k.check (fuel + 1) Γ t none s = .ok T s₁) :
    ∃ T' s₂, k.check (fuel' + 1) Γ t none s' = .ok T' s₂ ∧
      ((∃ s₃, k.check (fuel' + 1) Γ t (some T) s' = .ok T s₃) ∨
        ∃ fault s₃, k.compareTypes fuel' .le T' T s₂ = .error (.fault fault) s₃ ∧
          k.check (fuel' + 1) Γ t (some T) s' = .error (.fault fault) s₃) := by
  obtain ⟨T', s₂, hinfers, L, htwins, hT, hlimit⟩ :=
    infers_twin hk hsig hΓ ht hs hs' hlater (Nat.succ_le_succ hfuel) h
  refine ⟨T', s₂, hinfers, ?_⟩
  rw [check_against hk ht hinfers, Typing.conclude]
  have hpasses : Advances (k.compareTypes fuel' .le T' T) s₂.solver.store fun answer _ =>
      answer = true :=
    advances_compareTypes hsig htwins hT (Nat.le_of_eq hlimit)
  cases hcompare : k.compareTypes fuel' .le T' T s₂ with
  | ok answer s₃ =>
    obtain ⟨-, rfl⟩ := hpasses answer _ ⟨s₂, s₃, rfl, rfl, hcompare⟩
    rw [run_bind hcompare]
    exact .inl ⟨s₃, rfl⟩
  | error failure s₃ =>
    obtain ⟨fault, rfl⟩ := compareTypes_eq_error hcompare
    refine .inr ⟨fault, s₃, rfl, ?_⟩
    show EStateM.bind _ _ s₂ = _
    rw [EStateM.bind, hcompare]

end Checking

namespace PolymorphicConstant

open Prelude (checker)

/-- The application `(\lam (A : \Set) (x y : A) => x) Nat`. Its type is a copy of a part of the
type of the function. -/
def applied : Term := .mk 22 (.app term (.mk 13 .nat))

def appliedState : CheckState := .ofStore (.start 23)

theorem signature_tame : checker.sig.Tame 23 := by
  refine Signature.tame_of_entries (signature_plain.mono (fun v hv => hv.mono (by decide)
    fun _ h => h) fun n hn => by omega) ?_ ?_ ?_
  · exact Term.tame_mk.mpr (by simp)
  · simp [checker, Checker.untraced, Prelude.signature, Table.empty]
  · simp [checker, Checker.untraced, Prelude.funcDefs_entries]

theorem context_tame : context.Tame 23 := by
  constructor
  · simp [context, z]
  · simp [context]

theorem applied_tame : applied.Tame 23 (Vars.old 23) := by
  simp [applied, term, params, A, x, y, type, sets, Telescope.sites, Telescope.vars, tameAll_cons,
    Vars.and, Vars.without]

theorem applied_passes_again : ∃ T s₁,
    checker.check 10 context applied none appliedState = .ok T s₁ ∧
      ∃ T' s₂, checker.check 10 context applied none s₁ = .ok T' s₂ ∧
        ((∃ s₃, checker.check 10 context applied (some T) s₁ = .ok T s₃) ∨
          ∃ fault s₃, checker.compareTypes 9 .le T' T s₂ = .error (.fault fault) s₃ ∧
            checker.check 10 context applied (some T) s₁ = .error (.fault fault) s₃) := by
  have hsucceeds : (checker.check 10 context applied none).succeeds appliedState := by
    decide +kernel
  obtain ⟨T, s₁, hcheck⟩ := Check.exists_ok hsucceeds
  have hafter : appliedState.solver.After 23 (.new false false) := ⟨by decide, rfl, rfl⟩
  refine ⟨T, s₁, hcheck, checker.check_inferred rfl signature_tame context_tame applied_tame hafter
    ?_ (Nat.le_refl _) (Nat.le_refl 9) hcheck⟩
  exact checker.after_check rfl signature_tame context_tame applied_tame hafter hcheck

end PolymorphicConstant

/-! ## Types whose copies are refused -/

/-- Infers the type of a term, checks the term against it in the state after, and says for which
cause that fails. -/
def Checker.checkTwice (k : Checker) (fuel : Nat) (Γ : Context) (t : Term) (st : CheckState) :
    Option (Option Cause) :=
  match k.check fuel Γ t none st with
  | .ok type st' =>
    match k.check fuel Γ t (some type) st' with
    | .ok _ _ => some none
    | .error (.error e) _ => some (some e.cause)
    | .error (.fault _) _ => none
  | .error _ _ => none

namespace StuckMatch

def m : Var := ⟨20, .param, "m"⟩

def x : Var := ⟨21, .param, "x"⟩

/-- The match `\case m \as a \return Nat \with { zero => zero | suc j => zero }`. -/
def stuck : Term :=
  .mk 22 (.case
    { strict := false
      params := [⟨⟨23, .param, "a"⟩, some (.mk 24 .nat), true⟩]
      resultType := .mk 25 .nat
      levelProof := none
      elim := some
        ⟨26, [⟨[.con Prelude.zero []], some (.mk 27 .zero)⟩,
          ⟨[.con Prelude.suc [.bind ⟨28, .param, "j"⟩ (.mk 29 .nat)]], some (.mk 30 .zero)⟩], none⟩
      args := [.mk 31 (.ref m)] })

/-- The function `f (m : Nat) : D (\case m …)`, which is only declared. -/
def signature : Signature :=
  LetEscape.signature.setFunc ⟨32, "f"⟩
    ⟨[⟨m, some (.mk 33 .nat), true⟩], .mk 34 (.data ⟨⟨13, "D"⟩, .set0, [stuck]⟩), none⟩

/-- The term `f x`. -/
def term : Term := .mk 35 (.call ⟨32, "f"⟩ .set0 [.mk 36 (.ref x)])

def context : Context := ⟨[⟨x, some (.mk 37 .nat)⟩]⟩

def checker : Checker := .untraced signature

def state : CheckState := .ofStore (.start 38)

/-- The type of the term is a copy of the result type of the function, and two copies of a match
that is stuck are not equal. -/
theorem inferred_type_mismatch :
    checker.checkTwice 20 context term state = some (some .typeMismatch) := by
  decide +kernel

end StuckMatch

namespace SharedType

def record : RecordName := ⟨13, "R"⟩

def p : FieldName := ⟨14, "p"⟩

def q : FieldName := ⟨15, "q"⟩

/-- The record `R` with the fields `p` and `q` of type `Nat`. -/
def signature : Signature :=
  let type : Term := .mk 16 (.record ⟨record, .set0, [], .set0, .none, ⟨17, .given, "this"⟩⟩)
  let decl : RecordDef := ⟨[], .set0, ⟨18, .given, "this"⟩, type, [], .none⟩
  ((Prelude.signature.setRecord record decl).addField p ⟨record, .mk 19 .nat, false, .none⟩).addField q
    ⟨record, .mk 20 .nat, false, .none⟩

/-- The type `\Pi (x y : R { | p => x.q }) -> Nat`, made of the numbers from `n` on. -/
def copy (n : Nat) : Term :=
  let x : Var := ⟨n, .param, "x"⟩
  let impl : Term := .mk (n + 1) (.field q .set0 (.mk (n + 2) (.ref x)))
  let type : Term :=
    .mk (n + 3) (.record ⟨record, .set0, [(p, impl)], .set0, .none, ⟨n + 4, .given, "this"⟩⟩)
  .mk (n + 5) (.pi .set0 [⟨x, none, true⟩, ⟨⟨n + 6, .param, "y"⟩, some type, true⟩] (.mk (n + 7) .nat))

def checker : Checker := .untraced signature

def state : CheckState := .ofStore (.start 50)

/-- The answer of a comparison, if there is one. -/
def answer (r : Relation) (a b : Term) : Option Bool :=
  (Solver.compare signature 20 default r a b none).run' state.solver

/-- The type that `x` shares with `y` mentions `x`, and it is compared before `x` is bound. So a
type that passes is not equal to a copy of it, which passes as well. -/
theorem renamed_copy_refused :
    (checker.checkType 20 ⟨[]⟩ (copy 30)).succeeds state ∧
      (checker.checkType 20 ⟨[]⟩ (copy 40)).succeeds state ∧
      ∀ r ∈ [Relation.eq, .le, .ge], answer r (copy 30) (copy 40) = some false := by
  decide +kernel

end SharedType

end Recheck
