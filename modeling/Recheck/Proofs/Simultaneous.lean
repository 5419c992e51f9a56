import Recheck.Proofs.Simulation

/-!
# Recheck — substitution is simultaneous

`Term.subst` reads as simultaneous substitution on indexed terms, contractions included, for
terms and values that can be read on their own. It does not matter which variables
the term binds: one and the same variable may be replaced, bound inside of the term and
free in a value.

The conditions cannot be dropped, and definitions of let clauses may end up more contracted
than the substitution itself would have them (`LetContraction`).
-/

namespace Recheck

open Indexed (Env Subst)

/-- The term, on its own, reads as the indexed term. -/
def Term.Reads (sig : Signature) (s : Store) (t : Term) (n : Indexed) : Prop :=
  Recheck.Reads sig (s.view [] s.next []) [] (.term t) n

/-- The substitution replaces variables only, by terms that read as the values. -/
structure Substitution.Reads (sig : Signature) (s : Store) (σ : Substitution)
    (values : Var → Indexed) : Prop where
  fields : ∀ f, σ.exprs.get? (.field f) = none
  replaced : ∀ x u, σ.exprs.get? (.local x) = some u → u.Reads sig s (values x)
  others : ∀ x, σ.exprs.get? (.local x) = none → values x = .free x

/-- The stage at which the substitution of a whole term starts. -/
theorem Substitution.Reads.stage {sig : Signature} {s : Store} {σ : Substitution}
    {values : Var → Indexed} (h : σ.Reads sig s values) (hs : s.Numbered) :
    Stage sig s σ ⟨.bound, values, σ.levels⟩ (s.view [] s.next []) [] [] s.next [] where
  toScoping := .start hs
  defined x xs hx := by simp at hx
  shows _ _ hc := hc
  levels := rfl
  fields := h.fields
  bound x i hi := by simp [Store.view] at hi
  free x hx hkind hage stamp := by
    cases hget : σ.exprs.get? (.local x) with
    | some u => exact h.replaced x u hget
    | none =>
      show Recheck.Reads sig _ [] (.term (.mk stamp (.ref x))) (values x)
      rw [h.others x hget]
      exact .free hx hkind hage
  mapped := by simp
  newer _ x hx := by simp [Store.view] at hx

/-- Whenever it returns, the substitution into a term is the simultaneous substitution into the
reading of the term, and that is determined as far as there are no let clauses. -/
theorem subst_simultaneous (sig : Signature) (fuel : Nat) (s s' : Store) (t t' : Term)
    (σ : Substitution) (n : Indexed) (values : Var → Indexed) (hs : s.Numbered)
    (ht : t.Reads sig s n) (hσ : σ.Reads sig s values) (hne : σ.isIdentity = false)
    (hrun : t.subst sig fuel σ s = .ok t' s') :
    ∃ n', t'.Reads sig s' n' ∧ Subst ⟨.bound, values, σ.levels⟩ n n' ∧
      (n.LetFree → (∀ x, (values x).LetFree) →
        ∀ m, Subst ⟨.bound, values, σ.levels⟩ n m → m = n') := by
  have hyields : Yields (t.subst sig fuel σ) s fun t' s' => Grows sig [] s.next [] s s' ∧
      ∃ n', Reads sig (s'.view [] s.next []) [] (.term t') n' ∧
        Subst ⟨.bound, values, σ.levels⟩ n n' := by
    unfold Term.subst Traversal.applyFrom
    rw [hne]
    exact .start (Traversal.simulates_traverse sig fuel (hσ.stage hs) ht)
  obtain ⟨hgrows, n', hn', hsubst⟩ := hyields t' s' ⟨s, s', rfl, rfl, hrun⟩
  refine ⟨n', hn'.mono ⟨fun _ _ hc => hc, hgrows.next, rfl⟩, hsubst, ?_⟩
  intro hfree hvalues m hm
  exact hm.unique hsubst hfree ⟨.bound, hvalues⟩

/-! ## A variable in three roles -/

namespace SharedVariable

def x : Var := ⟨13, .param, "x"⟩

def y : Var := ⟨14, .param, "y"⟩

/-- The term `\lam (x : Nat) => y x`. -/
def term : Term :=
  .mk 16 (.lam .set0 [⟨x, some (.mk 15 .nat), true⟩]
    (.mk 17 (.app (.mk 18 (.ref y)) (.mk 19 (.ref x)))))

/-- Replaces `x` by `y` and `y` by `x`. -/
def swap : Substitution :=
  .ofMapping ⟨[(.local x, .mk 20 (.ref y)), (.local y, .mk 21 (.ref x))]⟩

def store : Store := .start 22

/-- The function that applies a variable to its parameter, without names. -/
def reading (v : Var) : Indexed :=
  .node (.form (.lam .set0 [⟨default, some (), true⟩] ()))
    [.node (.form .nat) [],
      .abs (.node (.form (.app () ())) [.free v, .bound 0])]

def values (v : Var) : Indexed :=
  if v = x then .free y else if v = y then .free x else .free v

theorem reads_free {v : Var} (stamp : Nat) (hkind : v.kind ≠ .clause) (hage : v.serial < 22) :
    (Term.mk stamp (.ref v)).Reads Prelude.signature store (.free v) :=
  .free (by simp [Store.view]) hkind hage

theorem term_reads : term.Reads Prelude.signature store (reading y) := by
  refine (reads_node_iff (by simp)).mpr ⟨trivial, _, rfl, ?_⟩
  refine .cons ⟨_, rfl, ?_⟩ (.cons ⟨.node (.form (.app () ())) [.free y, .bound 0], rfl, ?_⟩ .nil)
  · exact (reads_node_iff (by simp)).mpr ⟨trivial, [], rfl, .nil⟩
  · refine (reads_node_iff (by simp)).mpr ⟨trivial, _, rfl, ?_⟩
    refine readsAll_terms_iff.mpr (.cons ?_ (.cons ?_ .nil))
    · exact .free (by decide) (by decide) (by decide)
    · exact .bound (by decide) (by decide)

theorem swap_reads : swap.Reads Prelude.signature store values where
  fields f := rfl
  replaced v u hu := by
    by_cases hx : v = x
    · subst hx
      obtain rfl : Term.mk 20 (.ref y) = u := Option.some.inj hu
      exact reads_free 20 (by decide) (by decide)
    by_cases hy : v = y
    · subst hy
      obtain rfl : Term.mk 21 (.ref x) = u := Option.some.inj hu
      exact reads_free 21 (by decide) (by decide)
    have hx' : (Variable.local v == .local x) = false := by simpa using hx
    have hy' : (Variable.local v == .local y) = false := by simpa using hy
    have hnone : swap.exprs.get? (.local v) = none := by
      simp only [swap, Substitution.ofMapping, Substitution.of, Mapping.get?, List.lookup_cons,
        hx', hy', List.lookup_nil]
    rw [hnone] at hu
    cases hu
  others v hv := by
    have hx : v ≠ x := by
      rintro rfl
      cases hv
    have hy : v ≠ y := by
      rintro rfl
      cases hv
    simp [values, hx, hy]

theorem values_letFree (v : Var) : (values v).LetFree := by
  unfold values
  split
  · exact .free y
  · split
    · exact .free x
    · exact .free v

theorem reading_letFree (v : Var) : (reading v).LetFree := by
  refine .node (List.forall_mem_cons.mpr ⟨.node (by simp), List.forall_mem_singleton.mpr ?_⟩)
  refine .abs (.node (List.forall_mem_cons.mpr ⟨.free v, ?_⟩))
  exact List.forall_mem_singleton.mpr (.bound 0)

theorem subst_reading : Subst ⟨.bound, values, .empty⟩ (reading y) (reading x) := by
  refine .of_parts rfl (.cons (.of_parts rfl .nil) (.cons (.abs ?_) .nil))
  exact .app (.free y) (.bound 0) rfl

/-- The function still applies the variable that was free in the value, and not its own
parameter. -/
theorem subst_avoids_capture : ∃ t' s', term.subst Prelude.signature 10 swap store = .ok t' s' ∧
    t'.Reads Prelude.signature s' (reading x) := by
  refine ⟨_, _, rfl, ?_⟩
  have hs : store.Numbered := fun n c hc => by cases hc
  obtain ⟨n', hn', -, hunique⟩ := subst_simultaneous Prelude.signature 10 store _ term _ swap
    (reading y) values hs term_reads swap_reads rfl rfl
  obtain rfl := hunique (reading_letFree y) values_letFree _ subst_reading
  exact hn'

end SharedVariable

/-! ## What substitution does beyond its reading -/

namespace LetContraction

def x : Var := ⟨13, .param, "x"⟩

def y : Var := ⟨14, .param, "y"⟩

def z : Var := ⟨15, .param, "z"⟩

def c : Var := ⟨16, .clause, "c"⟩

def zero : Term := .mk 18 .zero

/-- The function of a variable. -/
def lam (stamp : Nat) (v : Var) (body : Term) : Term :=
  .mk stamp (.lam .set0 [⟨v, some (.mk 17 .nat), true⟩] body)

/-- The term `(\lam (z : Nat) => z) zero`. -/
def redex : Term := .mk 19 (.app (lam 20 z (.mk 21 (.ref z))) zero)

/-- The let expression of `c` with a body. -/
def letIn (body : Term) : Term := .mk 22 (.letIn false [c] body)

/-- An occurrence of an unknown. -/
def unknown : Term := .mk 23 (.unknown ⟨24, .unknown, "?v"⟩)

/-- A store in which `c` is defined by a variable, and the unknown is solved by a function. -/
def store (v : Var) : Store :=
  { Store.start 40 with
    clauses := Table.empty.insert 16 ⟨.mk 25 (.ref v), none⟩
    solutions := Table.empty.insert 23 (lam 20 z (.mk 21 (.ref z))) }

/-- The text of a term after a substitution. -/
def text (t : Term) (exprs : List (Variable × Term)) (s : Store) : Option String :=
  let text : Core String := do
    (← t.subst Prelude.signature 20 (.ofMapping ⟨exprs⟩)).print Prelude.signature 20
  text.run' s

/-- The value that is put into the definition of a let clause is contracted as soon as there
is something to contract in the scope of the clause. Let clauses that are free in a value
can be rewritten by a contraction as well. A solved unknown in a value is not taken for its
solution, and a copy of a value loses implementations that are not of the record. -/
theorem subst_beyond_reading :
    text (letIn (.mk 26 (.ref c))) [(.local y, redex)] (store y) =
        some "\\let c => (\\lam (z : Nat) => z) zero \\in c" ∧
      text (letIn (.mk 26 (.app (lam 27 x (.mk 28 (.ref c))) zero))) [(.local y, redex)]
          (store y) = some "\\let c => zero \\in c" ∧
      text (.mk 26 (.call ⟨27, "f"⟩ .set0 [.mk 28 (.ref y), .mk 29 (.app (.mk 30 (.ref z)) zero)]))
          [(.local y, letIn (.mk 31 (.ref c))), (.local z, lam 32 x (.mk 33 (.ref c)))]
          (store x) = some "f (\\let c => zero \\in c) c" ∧
      text (.mk 26 (.app (.mk 27 (.ref y)) zero)) [(.local y, unknown)] (store x) =
        some "(\\lam (z : Nat) => z) zero" ∧
      text (.mk 26 (.field ⟨27, "q"⟩ .set0 (.mk 28 (.app (.mk 29 (.ref y)) zero))))
          [(.local y, lam 30 z (.mk 31 (.new none ⟨32, ⟨⟨33, "R"⟩, .set0, [(⟨27, "q"⟩, zero)],
            .set0, .none, ⟨34, .given, "this"⟩⟩⟩)))] (store x) =
        some "(\\new R).q" := by
  decide +kernel

end LetContraction

end Recheck
