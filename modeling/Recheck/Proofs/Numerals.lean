import Recheck.Proofs.Coupling
import Recheck.Proofs.Heads
import Recheck.Proofs.Undo

/-!
# Recheck — literals and constructors of numbers

A natural number has many forms: a literal, `zero` and `suc` alone, or `suc` a number of times
over a literal. `numerals_interchangeable` says that no form can be told from another one of the
same number. Comparisons answer by the numbers. Clauses and decision trees on arguments of equal
numbers go on with the same body, and what they bind to a variable is of equal numbers again; or
they are stuck alike.

Nodes with equal stamps count as equal without a look at them, so in a comparison a stamp has to
stand for one number.
-/

namespace Recheck

variable {P Q : Nat → Nat → Prop} {t a b : Term} {n k : Nat} {c d : ConApp Term}

mutual

/-- The term is a form of the number. The stamps of its nodes and the numbers at these nodes
are related by `P`. -/
inductive Term.Represents (P : Nat → Nat → Prop) : Nat → Term → Prop where
  | literal {stamp n : Nat} (h : P stamp n) : Term.Represents P n (.mk stamp (.int n))
  | con {stamp n : Nat} {c : ConApp Term} (h : P stamp n) (hc : ConApp.Represents P n c) :
      Term.Represents P n (.mk stamp (.con c))

/-- The application is `zero`, or `suc` of a form of the number before. -/
inductive ConApp.Represents (P : Nat → Nat → Prop) : Nat → ConApp Term → Prop where
  | zero {sortArg : USort} {dataArgs : List Term} :
      ConApp.Represents P 0 ⟨Prelude.zero, sortArg, dataArgs, []⟩
  | suc {n : Nat} {sortArg : USort} {dataArgs : List Term} {t : Term} (ht : Term.Represents P n t) :
      ConApp.Represents P (n + 1) ⟨Prelude.suc, sortArg, dataArgs, [t]⟩

end

theorem Term.Represents.isCanonical (h : t.Represents P n) : t.node.isCanonical := by
  cases h <;> rfl

theorem Term.Represents.stamp (h : t.Represents P n) : P t.stamp n := by
  cases h with
  | literal h => exact h
  | con h => exact h

/-! ## Comparisons -/

/-- A stamp that stands for numbers on both sides stands for one number, and all of the stamps
are below `N`. -/
structure Compatible (P Q : Nat → Nat → Prop) (N : Nat) : Prop where
  agree : ∀ stamp i j, P stamp i → Q stamp j → i = j
  left : ∀ stamp i, P stamp i → stamp < N
  right : ∀ stamp i, Q stamp i → stamp < N

/-- The stamps between two numbers. -/
def Between (lo hi stamp _n : Nat) : Prop := lo ≤ stamp ∧ stamp < hi

variable {lo hi N : Nat}

theorem Compatible.symm (h : Compatible P Q N) : Compatible Q P N :=
  ⟨fun stamp i j hi hj => (h.agree stamp j i hj hi).symm, h.right, h.left⟩

/-- New stamps on the left. -/
theorem Compatible.between (h : Compatible P Q lo) (hle : lo ≤ hi) (hhi : hi ≤ N) :
    Compatible (Between lo hi) Q N where
  agree stamp _ j hi hj := absurd (h.right stamp j hj) (Nat.not_lt.mpr hi.1)
  left _ _ hi := Nat.lt_of_lt_of_le hi.2 hhi
  right stamp j hj := Nat.lt_of_lt_of_le (h.right stamp j hj) (Nat.le_trans hle hhi)

/-- The constructor form of a literal, with a new literal in it if it is not zero. -/
theorem literalCon_represents (n : Nat) (s : Store) : ∃ c s', literalCon n s = .ok c s' ∧
    s.next ≤ s'.next ∧ ∀ P : Nat → Nat → Prop,
      (∀ stamp i, Between s.next s'.next stamp i → P stamp i) → c.Represents P n := by
  cases n with
  | zero => exact ⟨_, s, rfl, Nat.le_refl _, fun _ _ => .zero⟩
  | succ n =>
    have hne : ((n + 1 : Nat) : Int) ≠ 0 := by omega
    have hpred : ((n + 1 : Nat) : Int) - 1 = n := by omega
    refine ⟨⟨Prelude.suc, .set0, [], [.mk s.next (.int n)]⟩, { s with next := s.next + 1 }, ?_,
      Nat.le_succ _, fun P hP => .suc (.literal (hP _ _ ⟨Nat.le_refl _, Nat.lt_succ_self _⟩))⟩
    rw [literalCon, if_neg hne, hpred]
    rfl

namespace Conversion

variable {sig : Signature} {span : Span} {fuel : Nat} {ρ : Renaming} {st : SolverState}

/-- Comparing forms of numbers, of which the second is below `n`, tells whether they are equal. -/
def Tells (sig : Signature) (span : Span) (n : Nat) : Prop :=
  ∀ {P Q a b k m fuel st} (ρ : Renaming) (r : Relation) (type : Option Term), m < n →
    2 * m + 3 ≤ fuel → Compatible P Q st.store.next → Term.Represents P k a →
    Term.Represents Q m b → ∃ st', run sig span fuel ρ r a b type st = .ok (k == m) st'

/-- Applications are compared by what they are applied to. -/
theorem args_represents (ih : Tells sig span n) (hfuel : 2 * n + 1 ≤ fuel)
    (hPQ : Compatible P Q st.store.next) (hc : c.Represents P k) (hd : d.Represents Q n) :
    ∃ st', (if c.con = d.con then args (run sig span fuel) ρ c.args d.args else pure false)
      st = .ok (k == n) st' := by
  cases hc with
  | zero => cases hd <;> exact ⟨st, rfl⟩
  | @suc k _ _ a ha =>
    cases hd with
    | zero => exact ⟨st, rfl⟩
    | @suc n _ _ b hb =>
      obtain ⟨st', hrun⟩ := ih ρ .eq none (Nat.lt_succ_self n) hfuel hPQ ha hb
      refine ⟨st', ?_⟩
      have hsuc : (k + 1 == n + 1) = (k == n) := beq_eq_beq.mpr Nat.add_right_cancel_iff
      rw [if_pos rfl]
      show (both (run sig span fuel ρ .eq a b none) (pure true)) st = _
      rw [both, run_bind hrun, hsuc]
      cases k == n <;> rfl

/-- By induction on the second number. A literal on the left takes a step of its own. -/
theorem tells (sig : Signature) (span : Span) (n : Nat) : Tells sig span n := by
  induction n with
  | zero => exact fun _ _ _ hm => absurd hm (Nat.not_lt_zero _)
  | succ n ih =>
    intro P Q a b k m fuel st ρ r type hm hfuel hPQ ha hb
    rcases Nat.lt_succ_iff_lt_or_eq.mp hm with hm | rfl
    · exact ih ρ r type hm hfuel hPQ ha hb
    obtain ⟨fuel, rfl⟩ : ∃ i, fuel = i + 3 := ⟨fuel - 3, by omega⟩
    cases hsame : a.same b with
    | true =>
      have hstamp : a.stamp = b.stamp := eq_of_beq hsame
      obtain rfl := hPQ.agree a.stamp k m ha.stamp (hstamp ▸ hb.stamp)
      refine ⟨st, ?_⟩
      rw [run_of_same hsame, beq_self_eq_true]
      rfl
    | false =>
      rw [run, step_of_isCanonical ha.isCanonical hb.isCanonical hsame]
      cases ha with
      | literal ha =>
        cases hb with
        | literal hb =>
          refine ⟨st, ?_⟩
          have hcast : ((k : Int) == m) = (k == m) := beq_eq_beq.mpr Int.natCast_inj
          show EStateM.Result.ok ((k : Int) == m) st = _
          rw [hcast]
        | @con stamp _ d hb hd =>
          obtain ⟨c, s', hrun, hle, hc⟩ := literalCon_represents k st.store
          show ∃ st', (liftM (literalCon k) >>= fun c => liftM (Core.build (.con c)) >>= fun a =>
            run sig span (fuel + 2) ρ r a (.mk stamp (.con d)) type : Solver Bool) st = _
          have hbuild : (liftM (Core.build (.con c)) : Solver Term) { st with store := s' } =
              .ok (.mk s'.next (.con c)) { st with store := { s' with next := s'.next + 1 } } :=
            liftSolver_of_ok rfl
          have hne : (Term.mk s'.next (.con c)).same (.mk stamp (.con d)) = false := by
            have := hPQ.right stamp m hb
            exact beq_false_of_ne (by show s'.next ≠ stamp; omega)
          rw [run_bind (liftSolver_of_ok hrun), run_bind hbuild, run,
            step_of_isCanonical rfl rfl hne]
          exact args_represents ih (by omega) (hPQ.between hle (Nat.le_succ _))
            (hc _ fun _ _ h => h) hd
      | con ha hc =>
        cases hb with
        | literal hb =>
          obtain ⟨d, s', hrun, hle, hd⟩ := literalCon_represents m st.store
          show ∃ st', (liftM (literalCon m) >>= fun d => _ : Solver Bool) st = _
          rw [run_bind (liftSolver_of_ok hrun)]
          exact args_represents ih (by omega) (hPQ.symm.between hle (Nat.le_refl _)).symm hc
            (hd _ fun _ _ h => h)
        | con hb hd => exact args_represents ih (by omega) hPQ hc hd

end Conversion

/-! ## Matches -/

/-- The terms are forms of one number. -/
def Term.SameNumber (t t' : Term) : Prop :=
  ∃ n, t.Represents (fun _ _ => True) n ∧ t'.Represents (fun _ _ => True) n

/-- The mappings take the same variables to forms of the same numbers. -/
def Mapping.Alike (m m' : Mapping Term) : Prop :=
  List.Forall₂ (fun e e' => e.1 = e'.1 ∧ e.2.SameNumber e'.2) m.entries m'.entries

/-- Whatever the stores are, the outcomes of the operations are related. -/
def Both {A : Type} (R : EStateM.Result Fault Store A → EStateM.Result Fault Store A → Prop)
    (x x' : Core A) : Prop :=
  ∀ s s', R (x s) (x' s')

/-- The operations succeeded, with results that are related. -/
inductive Agree {A : Type} (R : A → A → Prop) :
    EStateM.Result Fault Store A → EStateM.Result Fault Store A → Prop where
  | ok {u u' : A} (h : R u u') (s s' : Store) : Agree R (.ok u s) (.ok u' s')

section Both

variable {A B : Type} {R : A → A → Prop} {x x' : Core A} {f f' : A → Core B}
variable {S : EStateM.Result Fault Store B → EStateM.Result Fault Store B → Prop}
variable {m m' : Mapping Term} {t' : Term}

protected theorem Both.pure {u u' : A} (h : R u u') : Both (Agree R) (pure u) (pure u') :=
  .ok h

protected theorem Both.bind (hx : Both (Agree R) x x')
    (hf : ∀ u u', R u u' → Both S (f u) (f' u')) : Both S (x >>= f) (x' >>= f') := by
  intro s s'
  show S (EStateM.bind x f s) (EStateM.bind x' f' s')
  rw [EStateM.bind, EStateM.bind]
  have h := hx s s'
  generalize x s = r, x' s' = r' at h ⊢
  cases h with
  | ok h s s' => exact hf _ _ h s s'

theorem Mapping.Alike.insert (h : m.Alike m') (x : Var) (ht : t.SameNumber t') :
    (m.insert (.local x) t).Alike (m'.insert (.local x) t') := by
  refine Mapping.forall₂_place h (fun e e' he => ?_) ⟨rfl, ht⟩
  rw [he.1]

theorem Term.Represents.constructor? (h : t.Represents (fun _ _ => True) n) (s : Store) :
    ∃ (c : ConApp Term) (s' : Store), t.constructor? s = .ok (some (c.con, c.args)) s' ∧
      c.Represents (fun _ _ => True) n := by
  cases h with
  | con _ hc => exact ⟨_, s, rfl, hc⟩
  | @literal stamp =>
    obtain ⟨c, s', hrun, -, hc⟩ := literalCon_represents n s
    refine ⟨c, s', ?_, hc _ fun _ _ _ => trivial⟩
    have hliteral : Term.constructor? (.mk stamp (.int n)) =
        literalCon n >>= fun c => pure (some (c.con, c.args)) := by
      show (if _ then _ else _ : Core _) = (if _ then _ else _) >>= _
      split <;> rfl
    rw [hliteral, run_bind hrun]
    rfl

/-- The heads of two forms of a number. -/
theorem agree_constructor? (ht : t.SameNumber t') :
    Both (Agree (Option.Rel fun c c' => c.1 = c'.1 ∧ List.Forall₂ Term.SameNumber c.2 c'.2))
      t.constructor? t'.constructor? := by
  obtain ⟨n, ht, ht'⟩ := ht
  intro s s'
  obtain ⟨c, s₁, hrun, hc⟩ := ht.constructor? s
  obtain ⟨c', s₁', hrun', hc'⟩ := ht'.constructor? s'
  rw [hrun, hrun']
  refine .ok (.some ?_) s₁ s₁'
  cases hc with
  | zero =>
    cases hc' with
    | zero => exact ⟨rfl, .nil⟩
  | suc hu =>
    cases hc' with
    | suc hu' => exact ⟨rfl, .cons ⟨_, hu, hu'⟩ .nil⟩

end Both

/-! ## Choices -/

/-- The evaluations choose the same body and bind its variables alike, or are stuck alike. -/
inductive Choose (sig : Signature) (fuel : Nat) (levels : LevelSubst) (bodies : Term → Prop) :
    EStateM.Result Fault Store Evaluation → EStateM.Result Fault Store Evaluation → Prop where
  | stuck {o o' : Option Term} (h : Option.Rel Term.SameNumber o o') (s s' : Store) :
      Choose sig fuel levels bodies (.ok (.stuck o) s) (.ok (.stuck o') s')
  | resume {body : Term} {m m' : Mapping Term} {ts ts' : List Term} (hbody : bodies body)
      (hm : m.Alike m') (hts : List.Forall₂ Term.SameNumber ts ts') (s s' : Store) :
      Choose sig fuel levels bodies (resume sig fuel levels body m ts s)
        (resume sig fuel levels body m' ts' s')

/-- Being of equal numbers, as a relation of evaluations. Numbers are no record values. -/
def sameNumbers (sig : Signature) (fuel : Nat) (levels : LevelSubst) (bodies : Term → Prop)
    {self : Term → Core Term} (hself : ∀ t : Term, t.node.isCanonical → ∀ s, self t s = .ok t s) :
    Coupling sig fuel fuel self self levels where
  Moment := Unit
  Later _ _ := True
  vars x x' := x = x'
  bodies t t' := bodies t ∧ t = t'
  terms _ := Term.SameNumber
  records _ _ _ := False
  maps _ := Mapping.Alike
  Runs _ x x' Q := Both (Agree (Q ())) x x'
  Ends _ := Both (Choose sig fuel levels bodies)
  terms_later _ h := h
  records_later _ h := h
  maps_later _ h := h
  maps_empty _ := .nil
  maps_insert hm hx ht := hx ▸ hm.insert _ ht
  pure h := .pure h
  bind hx hf := hx.bind fun t t' h => hf () t t' trivial h
  ends_bind hx hf := hx.bind fun t t' h => hf () t t' trivial h
  stuck h := .stuck h
  resume hb hm hts := hb.2 ▸ .resume hb.1 hm hts
  reduces {_ t t'} ht s s' := by
    obtain ⟨n, h, h'⟩ := ht
    rw [hself t h.isCanonical, hself t' h'.isCanonical]
    exact .ok ⟨n, h, h'⟩ s s'
  node ht := by
    obtain ⟨n, h, h'⟩ := ht
    cases h <;> cases h' <;> exact .atom rfl rfl
  constructor ht := agree_constructor? ht
  name h := h.elim
  implementation _ h := h.elim
  malformed h := h.elim

/-- All forms of a number are interchangeable: in comparisons, in arguments that clauses are
matched against and in arguments that decision trees are evaluated on. -/
theorem numerals_interchangeable (sig : Signature) :
    (∀ (P : Nat → Nat → Prop) (span : Span) (fuel : Nat) (r : Relation) (type : Option Term)
        (st : SolverState) (k n : Nat) (a b : Term), Compatible P P st.store.next →
        a.Represents P k → b.Represents P n → 2 * n + 3 ≤ fuel →
        ∃ st', Solver.compare sig fuel span r a b type st = .ok (k == n) st') ∧
      ∀ (fuel : Nat) (levels : LevelSubst) (ts ts' : List Term),
        List.Forall₂ Term.SameNumber ts ts' →
        ∀ e : Elim Term, Both (Choose sig (fuel + 1) levels fun body => .term body ∈ e.parts)
          (Reduction.elim sig (fuel + 1) (Term.whnf sig (fuel + 1)) levels ts e)
          (Reduction.elim sig (fuel + 1) (Term.whnf sig (fuel + 1)) levels ts' e) := by
  refine ⟨fun P span fuel r type st k n a b hP ha hb hfuel => ?_, fun fuel levels ts ts' hts e => ?_⟩
  · exact Conversion.tells sig span (n + 1) .empty r type (Nat.lt_succ_self n) hfuel hP ha hb
  · have hself (t : Term) (ht : t.node.isCanonical) (s : Store) := whnf_of_isCanonical ht sig fuel s
    exact (sameNumbers sig (fuel + 1) levels _ hself).ends_elim (w := ())
      ⟨fun _ ht => ⟨ht, rfl⟩, fun _ _ => rfl⟩ hts

/-- Two forms of three, one of which has a literal inside. No clause tells them apart. -/
theorem three_interchangeable :
    let three : Term := .mk 0 (.int 3)
    let suc (stamp : Nat) (t : Term) : Term := .mk stamp (.con ⟨Prelude.suc, .set0, [], [t]⟩)
    let three' := suc 1 (suc 2 (.mk 3 (.int 1)))
    let x : Var := ⟨0, .param, "x"⟩
    let clause : Clause Term := ⟨[.con Prelude.suc [.bind x three]], some (.mk 4 (.ref x))⟩
    (∃ st', Solver.compare default 9 default .eq three three' none
      { (default : SolverState) with store := { (default : Store) with next := 4 } } =
        .ok true st') ∧
    Both (Choose default 1 .empty fun body => .term body ∈ Elim.parts ⟨5, [clause], none⟩)
      (Reduction.elim default 1 (Term.whnf default 1) .empty [three] ⟨5, [clause], none⟩)
      (Reduction.elim default 1 (Term.whnf default 1) .empty [three'] ⟨5, [clause], none⟩) := by
  intro three suc three' x clause
  let P (stamp n : Nat) : Prop := [3, 3, 2, 1][stamp]? = some n
  have hP : Compatible P P 4 :=
    ⟨fun _ _ _ hi hj => Option.some.inj (hi.symm.trans hj),
      fun _ _ h => (List.getElem?_eq_some_iff.mp h).1, fun _ _ h => (List.getElem?_eq_some_iff.mp h).1⟩
  have represents {Q : Nat → Nat → Prop} (h : ∀ stamp n, P stamp n → Q stamp n) :
      three.Represents Q 3 ∧ three'.Represents Q 3 :=
    ⟨.literal (h 0 3 rfl), .con (h 1 3 rfl) (.suc (.con (h 2 2 rfl) (.suc (.literal (h 3 1 rfl)))))⟩
  obtain ⟨hthree, hthree'⟩ := represents fun _ _ h => h
  obtain ⟨hcompare, hchoose⟩ := numerals_interchangeable default
  exact ⟨hcompare P default 9 .eq none _ 3 3 three three' hP hthree hthree' (Nat.le_refl _),
    hchoose 0 .empty [three] [three'] (.cons ⟨3, represents fun _ _ _ => trivial⟩ .nil) _⟩

end Recheck
