import Recheck.Proofs.Keeps.Terms
import Recheck.Proofs.Renaming

/-!
# Recheck — what a check does to let clauses

A term under check shares the definitions of its let clauses with the store, and
substitution updates the definition of a clause that it meets outside of its let
expression. The inferred type of a let expression may well mention the clauses, so a check
can rewrite definitions in the very term that it checks. This module says how far that
goes.

* `Evolved` relates the store of a later moment to the one at the start: each clause is
  still there with the type that it was declared with, and its definition has only been
  rewritten by substitutions for variables of the region.
* `Evolved.solverInvariant`: every primitive change keeps to that, hence every check.
* `check_keeps_let_clauses`: in particular, a definition stays the same up to the names of
  bound variables if nothing in it can be replaced or contracted.
-/

namespace Recheck

/-- The store that a check leaves behind, whether it succeeds or fails. -/
def Check.storeAfter {A : Type} (x : Check A) (st : CheckState) : Store :=
  match x st with
  | .ok _ st => st.solver.store
  | .error _ st => st.solver.store

theorem Keeps.storeAfter {A : Type} {I : Store → Prop} {x : Check A} {Q : A → Prop}
    (h : Keeps (OnStore I) x Q) {st : CheckState} (hst : I st.solver.store) :
    I (x.storeAfter st) := by
  have hx := h () st hst
  rw [Check.storeAfter]
  cases hr : x st with
  | ok a st' => rw [hr] at hx; exact hx.1
  | error e st' => rw [hr] at hx; exact hx

/-! ## The evolution of a store -/

/-- What has become of a let clause. -/
structure LetClause.Evolves (sig : Signature) (R : Region) (c c' : LetClause) : Prop where
  type : c'.type = c.type
  expr : Relation.ReflTransGen (Rewrites sig R) c.expr c'.expr

/-- What has become of the clauses of a store. -/
structure Evolved (sig : Signature) (R : Region) (s s' : Store) : Prop where
  good : Good R s'
  next : s.next ≤ s'.next
  clause : ∀ n c, s.clauses.get? n = some c →
    ∃ c', s'.clauses.get? n = some c' ∧ c.Evolves sig R c' ∧ (¬ R.refers n → c' = c)

/-- The clauses of the store have numbers that were handed out. -/
def Store.Numbered (s : Store) : Prop := ∀ n c, s.clauses.get? n = some c → n < s.next

namespace Evolved

variable {sig : Signature} {R : Region} {s s' : Store}

theorem refl (hgood : Good R s) : Evolved sig R s s :=
  ⟨hgood, le_rfl, fun _ c hc => ⟨c, hc, ⟨rfl, .refl⟩, fun _ => rfl⟩⟩

/-- Writing a clause under a number that the start did not know changes nothing that was
there. -/
theorem define (h : Evolved sig R s s') (hs : s.Numbered) {c : LetClause}
    (hc : c.Within R) :
    Evolved sig R s { s' with next := s'.next + 1, clauses := s'.clauses.insert s'.next c } where
  good := h.good.number.setClause hc
  next := Nat.le_succ_of_le h.next
  clause n c₀ hn := by
    have hne : n ≠ s'.next := Nat.ne_of_lt ((hs n c₀ hn).trans_le h.next)
    rw [Table.get?_insert_of_ne _ _ hne]
    exact h.clause n c₀ hn

/-- A rewrite continues what has become of the clause when its definition was read. -/
theorem rewrite {s₁ : Store} (h₁ : Evolved sig R s s₁) (h : Evolved sig R s s') {m : Nat}
    {c : LetClause} {e : Term} (hm : R.refers m) (hget : s₁.clauses.get? m = some c)
    (he : e.Within R) (hrw : Rewrites sig R c.expr e) :
    Evolved sig R s { s' with clauses := s'.clauses.insert m { c with expr := e } } where
  good := h.good.setClause ⟨he, (h₁.good.clause m c hm hget).2⟩
  next := h.next
  clause n c₀ hn := by
    by_cases hnm : n = m
    · subst hnm
      obtain ⟨c₁, hc₁, hevolves, -⟩ := h₁.clause n c₀ hn
      obtain rfl : c = c₁ := Option.some.inj (hget.symm.trans hc₁)
      refine ⟨_, Table.get?_insert_self _ _ _, ⟨hevolves.type, ?_⟩, fun hnot => absurd hm hnot⟩
      exact hevolves.expr.tail hrw
    · rw [Table.get?_insert_of_ne _ _ hnm]
      exact h.clause n c₀ hn

/-- The primitive changes of a store let its clauses evolve and do nothing else to them. -/
theorem solverInvariant (hs : s.Numbered) : SolverInvariant sig R (OnStore (Evolved sig R s)) where
  good h := h.good
  number h := ⟨h.good.number, Nat.le_succ_of_le h.next, h.clause⟩
  define h hc := h.define hs hc
  rewrite h₁ h hm hget he hrw := h₁.rewrite h hm hget he hrw
  narrow {_ q _ _ _} h hu hd hxs :=
    { h with good := (Good.invariant sig R).narrow (q := q) h.good hu hd hxs }
  mapping {_ q _ _} h hm := { h with good := (Good.invariant sig R).mapping (q := q) h.good hm }
  defer _ h _ := h
  deferLevel _ h _ := h
  solve h _ _ ht := { h with good := h.good.solve ht }

end Evolved

/-- Rewriting any number of times leaves a settled definition the same, up to the names of
bound variables. -/
theorem nameless_eq_of_rewrites {sig : Signature} {R : Region} {e e' : Term}
    (h : Relation.ReflTransGen (Rewrites sig R) e e')
    (hset : (e.nameless []).Settled sig fun x => ¬ R.binds x.serial) :
    e'.nameless [] = e.nameless [] := by
  induction h with
  | refl => rfl
  | tail _ hrw ih => rw [hrw.nameless_eq (ih.symm ▸ hset), ih]

/-! ## Checks -/

/-- All that a check is given keeps to the region. -/
structure Checker.Within (R : Region) (k : Checker) (Γ : Context) (t : Term)
    (expected : Option Term) (s : Store) : Prop where
  sig : k.sig.Within R
  context : ∀ e ∈ Γ.entries, ∀ u, e.type = some u → u.Within R
  term : t.Within R
  expected : ∀ u, expected = some u → u.Within R
  store : Good R s

/-- A check that starts inside of a region keeps every invariant. -/
theorem Checker.Within.keeps {R : Region} {k : Checker} {Γ : Context} {t : Term}
    {expected : Option Term} {s : Store} (h : k.Within R Γ t expected s) {I : SolverState → Prop}
    (hI : SolverInvariant k.sig R I) (fuel : Nat) :
    Keeps I (k.check fuel Γ t expected) (Term.Within R) :=
  Typing.respects_term hI h.sig fuel _ t expected ⟨h.context, by simp [Scope.ofContext]⟩
    h.term h.expected

/-- What a check does to let clauses. Take any region that all that the check is given keeps
to. Then each clause is still there after the check, successful or not, with the type that
it was declared with. Its definition is the result of substitutions for variables that the
region binds; it is untouched if the region does not refer to the clause; and it is the same
up to the names of bound variables if it has nothing to contract and mentions none of the
variables that the region binds. -/
theorem check_keeps_let_clauses (k : Checker) (fuel : Nat) (Γ : Context) (t : Term)
    (expected : Option Term) (st : CheckState) (R : Region)
    (hwithin : k.Within R Γ t expected st.solver.store)
    (hnumbered : st.solver.store.Numbered) (n : Nat) (c : LetClause)
    (hc : st.solver.store.clauses.get? n = some c) :
    ∃ c', ((k.check fuel Γ t expected).storeAfter st).clauses.get? n = some c' ∧
      c'.type = c.type ∧
      Relation.ReflTransGen (Rewrites k.sig R) c.expr c'.expr ∧
      (¬ R.refers n → c' = c) ∧
      ((c.expr.nameless []).Settled k.sig (fun x => ¬ R.binds x.serial) →
        c'.expr.nameless [] = c.expr.nameless []) := by
  have hkeeps := hwithin.keeps (Evolved.solverInvariant hnumbered) fuel
  have hafter := hkeeps.storeAfter (Evolved.refl hwithin.store)
  obtain ⟨c', hc', hevolves, hsame⟩ := hafter.clause n c hc
  exact ⟨c', hc', hevolves.type, hevolves.expr, hsame,
    nameless_eq_of_rewrites hevolves.expr⟩

/-! ## A let expression whose type mentions its clause -/

namespace LetEscape

/-- A data type `D` over a number with a constructor `k` at each. -/
def signature : Signature :=
  let d : DataName := ⟨13, "D"⟩
  (Prelude.signature.setData d ⟨[⟨⟨15, .param, "n"⟩, some (.mk 16 .nat), true⟩], .set0, []⟩)
    |>.addConstructor ⟨14, "k"⟩ ⟨d, none, []⟩

def checker : Checker := .untraced signature

/-- A variable of the context. -/
def y : Var := ⟨17, .param, "y"⟩

/-- A variable that is bound around the let expression. -/
def x : Var := ⟨18, .param, "x"⟩

def c : Var := ⟨19, .clause, "c"⟩

def context : Context := ⟨[⟨y, some (.mk 20 .nat)⟩]⟩

/-- The term `(\lam (x : Nat) => \let c => … \in k) zero`, in which `k` is at `D c`. -/
def term : Term :=
  let escaping : Term := .mk 21 (.con ⟨⟨14, "k"⟩, .set0, [.mk 22 (.ref c)], []⟩)
  .mk 23 (.app (.mk 24 (.lam .set0 [⟨x, some (.mk 20 .nat), true⟩] (.mk 25 (.letIn false [c] escaping))))
    (.mk 26 .zero))

/-- The definition of `c` as the successor of a variable. -/
def definition (v : Var) : Term := .mk 27 (.suc (.mk 28 (.ref v)))

/-- A state in which the clause is defined by a variable. -/
def state (v : Var) : CheckState :=
  .ofStore { Store.start 29 with clauses := Table.empty.insert 19 ⟨definition v, none⟩ }

/-- The text of the term in a store. -/
def text (s : Store) : Option String := (term.print signature 10).run' s

/-- If the clause is defined by the parameter of the function, then the check substitutes
the argument into the definition: the term reads differently afterwards. -/
theorem check_rewrites_definition :
    text (state x).solver.store = some "(\\lam (x : Nat) => \\let c => suc x \\in k) zero" ∧
      text ((checker.check 20 context term none).storeAfter (state x)) =
        some "(\\lam (x : Nat) => \\let c => suc zero \\in k) zero" := by
  decide +kernel

/-- All clauses may be referred to, and all variables but that of the context may be
bound. -/
def region : Region := ⟨fun _ => True, fun n => n ≠ 17⟩

theorem region_binds (v : Var) (hv : v.serial ≠ 17) : region.Binds v := ⟨hv, fun _ => trivial⟩

theorem signature_within : signature.Within region := by
  have hdata : signature.dataDefs.entries =
      [(13, ⟨[⟨⟨15, .param, "n"⟩, some (.mk 16 .nat), true⟩], .set0,
          [⟨14, "k"⟩]⟩),
        (0, ⟨[], .set0, [Prelude.zero, Prelude.suc]⟩), (3, ⟨[], .prop, []⟩)] := rfl
  have hcon : signature.conDefs.entries =
      [(14, ⟨⟨13, "D"⟩, none, []⟩), (1, ⟨Prelude.nat, none, []⟩),
        (2, ⟨Prelude.nat, none,
          [⟨⟨5, .param, "n"⟩, some (.mk 9 .nat), true⟩]⟩)] := rfl
  have hfunc : signature.funcDefs.entries = _ := Prelude.funcDefs_entries
  refine Signature.within_of_entries (region_binds _ (by decide)) ?_ ?_ nofun nofun ?_
  · simp [hdata, region_binds]
  · simp [hcon, region_binds]
  · simp [hfunc, region_binds]

theorem within : checker.Within region context term none (state y).solver.store where
  sig := signature_within
  context := by simp [context]
  term := by
    simp [term, x, c, region_binds]
    exact trivial
  expected := nofun
  store :=
    { clause := fun n c' _ => Table.forall_insert (P := fun _ c => c.Within region)
        (by simp [Table.empty, Table.get?]) (by
          simp [LetClause.Within, definition, y]) n c'
      solution := nofun
      unknown := nofun
      mapping := nofun
      refers_fresh := fun _ _ => trivial
      binds_fresh := fun n hn heq => by
        subst heq
        exact absurd hn (by decide) }

/-- The definition by the variable of the context has nothing that could be replaced. -/
theorem definition_settled :
    ((definition y).nameless []).Settled signature fun v => ¬ region.binds v.serial := by
  have hfree : ((Term.mk 28 (.ref y)).nameless []) = .free y := by simp [Term.nameless_ref]
  have hread : (definition y).nameless [] =
      .node (.con ⟨Prelude.suc, .set0, [], [()]⟩) [.free y] := by
    rw [definition, Term.nameless_node (by simp)]
    simp [Node.read, Node.erase, eraseTerms, hfree]
  rw [hread]
  refine .node (fun _ => rfl) rfl fun p hp => ?_
  obtain rfl := List.mem_singleton.mp hp
  exact .free fun h => h rfl

/-- If the clause is defined by the variable of the context, then the same check leaves the
definition alone. -/
theorem check_keeps_definition :
    checker.Within region context term none (state y).solver.store ∧
      ∃ c', ((checker.check 20 context term none).storeAfter (state y)).clauses.get? 19 =
          some c' ∧
        c'.type = none ∧ c'.expr.nameless [] = (definition y).nameless [] := by
  have hnumbered : (state y).solver.store.Numbered := fun n c' =>
    Table.forall_insert (P := fun n _ => n < 29) (by simp [Table.empty, Table.get?]) (by decide)
      n c'
  obtain ⟨c', hc', htype, -, -, hsame⟩ := check_keeps_let_clauses checker 20 context term none
    (state y) region within hnumbered 19 ⟨definition y, none⟩ rfl
  exact ⟨within, c', hc', htype, hsame definition_settled⟩

end LetEscape

end Recheck
