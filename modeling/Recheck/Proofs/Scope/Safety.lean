import Recheck.Proofs.Scope.Passes

/-!
# Recheck — scope safety

A term that the checker accepts mentions no variables but those in scope, as far as the
checker looks at it. By the scopes of substitution there are a few more positions, and a
variable can go unnoticed there; `Stray` lists them. An argument of a case expression can
mention a parameter of the case, since it is checked with the parameters in scope. The types
that pattern variables and parameters of decision trees are declared with are not checked at
all, and neither are implementations that are never looked up.

* `occurs_lexical`: whatever occurs by the scopes of substitution either occurs at a position
  that the checker looks at, or is stray.
* `check_vars_in_scope`: a term that passes a check mentions variables of the context only,
  and stray ones.
* `CaseEscape.check_accepts_free_variable`: stray variables do pass.
-/

namespace Recheck

/-! ## Positions that the checker skips -/

section Skipped

variable {T : Type}

mutual

def Tree.skipped (outer : List Var) : Tree T → List (Scoped T)
  | .leaf ps _ => Telescope.subterms outer ps
  | .branch ps children =>
    Telescope.subterms outer ps ++ Tree.skippedOf (Telescope.inner outer ps) children

/-- What is skipped in the children of a branch. -/
def Tree.skippedOf (outer : List Var) : List (BranchKey × Tree T) → List (Scoped T)
  | [] => []
  | (_, t) :: rest => t.skipped outer ++ Tree.skippedOf outer rest

end

/-- The types that pattern variables and parameters of decision trees are declared with. -/
def Elim.skipped (e : Elim T) : List (Scoped T) :=
  e.clauses.flatMap (fun c => Pattern.subterms [] (Pattern.bindingsOf c.patterns)) ++
    e.tree.toList.flatMap (Tree.skipped [])

end Skipped

/-- The implementations of a record type that are not looked up, because there is an earlier
one of the same field or the record does not have the field. -/
def RecordType.Skips (sig : Signature) (r : RecordType Term) (p : Scoped Term) : Prop :=
  p ∈ r.subterms ∧ p ∉ r.checked sig

/-- The positions of a node that the checker does not look at. -/
def Node.Skips (sig : Signature) : Node Term → Scoped Term → Prop
  | .record r, p => r.Skips sig p
  | .new _ type, p => type.val.Skips sig p
  | .case c, p => ∃ e, c.elim = some e ∧ p ∈ e.skipped
  | _, _ => False

/-- The variable occurs free at a position where the checker does not notice it. -/
inductive Stray (sig : Signature) : (Nat → Prop) → Store → Term → Var → Prop where
  /-- In an argument of a case expression, under the name of a parameter of the case. -/
  | arg {D : Nat → Prop} {s : Store} {stamp : Nat} {c : CaseOf Term} {t : Term} {x : Var}
      (ht : t ∈ c.args) (hx : x ∈ Telescope.vars c.params)
      (h : Occurs sig Node.lexical D s t x) : Stray sig D s (.mk stamp (.case c)) x
  /-- At a position that is not looked at. -/
  | skipped {D : Nat → Prop} {s : Store} {stamp : Nat} {n : Node Term} {p : Scoped Term}
      {x : Var} (hp : n.Skips sig p) (hx : x ∉ p.1)
      (h : Occurs sig Node.lexical D s p.2 x) : Stray sig D s (.mk stamp n) x
  | part {D : Nat → Prop} {s : Store} {stamp : Nat} {n : Node Term} {p : Scoped Term} {x : Var}
      (hp : p ∈ n.lexical) (hx : x ∉ p.1) (h : Stray sig D s p.2 x) :
      Stray sig D s (.mk stamp n) x
  | clause {D : Nat → Prop} {s : Store} {stamp : Nat} {strict : Bool} {before after : List Var}
      {c : Var} {body t : Term} {d : LetClause} {x : Var} (hc : D c.serial)
      (hd : s.clauses.get? c.serial = some d) (ht : t ∈ d.type.toList ++ [d.expr])
      (hx : x ∉ before) (h : Stray sig D s t x) :
      Stray sig D s (.mk stamp (.letIn strict (before ++ c :: after) body)) x
  | solution {D : Nat → Prop} {s : Store} {stamp : Nat} {v : Var} {u : Term} {x : Var}
      (hu : s.solutions.get? stamp = some u) (h : Stray sig (fun _ => False) s u x) :
      Stray sig D s (.mk stamp (.unknown v)) x
  | delayed {D : Nat → Prop} {s s₁ s₂ : Store} {stamp fuel : Nat} {u e : Term}
      {exprs : MappingRef Term} {levels : LevelSubst} {x : Var} (hs : s.Extends s₁)
      (hrun : expandDelayed sig fuel u exprs levels s₁ = .ok e s₂)
      (h : Stray sig (fun _ => False) s₂ e x) :
      Stray sig D s (.mk stamp (.delayed u exprs levels)) x

/-! ## The two ways to look at positions -/

mutual

theorem Tree.subterms_cases : ∀ {t : Tree Term} {outer : List Var} {p : Scoped Term},
    p ∈ t.subterms outer → p ∈ t.checked outer ∨ p ∈ t.skipped outer
  | .leaf ps body, outer, p, hp => (List.mem_append.mp hp).symm
  | .branch ps children, outer, p, hp => by
    rcases List.mem_append.mp hp with hp | hp
    · exact .inr (List.mem_append_left _ hp)
    · exact (Tree.subtermsOf_cases hp).imp_right (List.mem_append_right _)

theorem Tree.subtermsOf_cases : ∀ {children : List (BranchKey × Tree Term)} {outer : List Var}
    {p : Scoped Term}, p ∈ Tree.subtermsOf outer children →
    p ∈ Tree.checkedOf outer children ∨ p ∈ Tree.skippedOf outer children
  | [], _, _, hp => by cases hp
  | (key, t) :: rest, outer, p, hp => by
    rcases List.mem_append.mp hp with hp | hp
    · exact (Tree.subterms_cases hp).imp (List.mem_append_left _) (List.mem_append_left _)
    · exact (Tree.subtermsOf_cases hp).imp (List.mem_append_right _) (List.mem_append_right _)

end

theorem Elim.subterms_cases {e : Elim Term} {p : Scoped Term} (hp : p ∈ e.subterms) :
    p ∈ e.checked ∨ p ∈ e.skipped := by
  rcases List.mem_append.mp hp with hp | hp
  · obtain ⟨c, hc, hp⟩ := List.mem_flatMap.mp hp
    rcases List.mem_append.mp hp with hp | hp
    · exact .inr (List.mem_append_left _ (List.mem_flatMap.mpr ⟨c, hc, hp⟩))
    · exact .inl (List.mem_append_left _ (List.mem_flatMap.mpr ⟨c, hc, hp⟩))
  · obtain ⟨t, ht, hp⟩ := List.mem_flatMap.mp hp
    refine (Tree.subterms_cases hp).imp (fun hp => ?_) fun hp => ?_
    · exact List.mem_append_right _ (List.mem_flatMap.mpr ⟨t, ht, hp⟩)
    · exact List.mem_append_right _ (List.mem_flatMap.mpr ⟨t, ht, hp⟩)

theorem CaseOf.subterms_cases (sig : Signature) {c : CaseOf Term} {p : Scoped Term}
    (hp : p ∈ c.subterms) :
    p ∈ c.checked ∨ (Node.case c).Skips sig p ∨ (p.1 = [] ∧ p.2 ∈ c.args) := by
  simp only [CaseOf.subterms, unscoped, List.mem_append, List.mem_map, List.mem_flatMap,
    Option.mem_toList] at hp
  simp only [CaseOf.checked, List.mem_append, List.mem_map, List.mem_flatMap, Option.mem_toList]
  rcases hp with ((⟨t, ht, rfl⟩ | hp) | ⟨t, ht, rfl⟩) | ⟨e, he, hp⟩
  · exact .inr (.inr ⟨rfl, ht⟩)
  · exact .inl (.inl (.inl hp))
  · exact .inl (.inl (.inr ⟨t, .inr ht, rfl⟩))
  · rcases Elim.subterms_cases hp with hp | hp
    · exact .inl (.inr ⟨e, he, hp⟩)
    · exact .inr (.inl ⟨e, he, hp⟩)

/-- Each position is looked at, or skipped, or an argument of a case expression. -/
theorem Node.lexical_cases {sig : Signature} {n : Node Term} {p : Scoped Term}
    (hp : p ∈ n.lexical) :
    p ∈ n.checked sig ∨ n.Skips sig p ∨ ∃ c, n = .case c ∧ p.1 = [] ∧ p.2 ∈ c.args := by
  cases n with
  | case c =>
    rcases CaseOf.subterms_cases sig hp with hp | hp | hp
    · exact .inl hp
    · exact .inr (.inl hp)
    · exact .inr (.inr ⟨c, rfl, hp⟩)
  | record r =>
    by_cases hmem : p ∈ r.checked sig
    · exact .inl hmem
    · exact .inr (.inl ⟨hp, hmem⟩)
  | new renewed type =>
    by_cases hmem : p ∈ type.val.checked sig
    · exact .inl (List.mem_append_left _ hmem)
    · rcases List.mem_append.mp hp with hp | hp
      · exact .inl (List.mem_append_right _ hp)
      · exact .inr (.inl ⟨hp, hmem⟩)
  | tuple fields type =>
    rcases List.mem_append.mp hp with hp | hp
    · exact .inl (List.mem_append_right _ hp)
    · exact .inl (List.mem_append_left _ hp)
  | ofType t type =>
    refine .inl ?_
    have hp : p = ([], t) ∨ p = ([], type) := by
      simpa [unscoped] using hp
    rcases hp with rfl | rfl <;> simp [unscoped]
  | _ => exact .inl hp

theorem occurs_lexical {sig : Signature} {D : Nat → Prop} {s : Store} {t : Term} {x : Var}
    (h : Occurs sig Node.lexical D s t x) :
    Occurs sig (Node.checked sig) D s t x ∨ Stray sig D s t x := by
  induction h with
  | ref => exact .inl .ref
  | @part D s stamp n p x hp hx h ih =>
    rcases ih with hocc | hstray
    · rcases Node.lexical_cases hp with hchecked | hskips | ⟨c, rfl, hnil, harg⟩
      · exact .inl (.part hchecked hx hocc)
      · exact .inr (.skipped hskips hx h)
      · -- the argument is looked at with the parameters in scope
        by_cases hbound : x ∈ Telescope.vars c.params
        · exact .inr (.arg harg hbound h)
        · have hmem : (Telescope.inner [] c.params, p.2) ∈ (Node.case c).checked sig := by
            simp [CaseOf.checked, harg]
          exact .inl (.part hmem (by simpa [Telescope.inner] using hbound) hocc)
    · exact .inr (.part hp hx hstray)
  | clause hc hd ht hx _ ih => exact ih.imp (.clause hc hd ht hx) (.clause hc hd ht hx)
  | solution hu _ ih => exact ih.imp (.solution hu) (.solution hu)
  | @delayed D s stamp u exprs levels x h ih =>
    by_cases hstray : ∃ fuel s₁ e s₂, s.Extends s₁ ∧
        expandDelayed sig fuel u exprs levels s₁ = .ok e s₂ ∧ Stray sig (fun _ => False) s₂ e x
    · obtain ⟨fuel, s₁, e, s₂, hs, hrun, hstray⟩ := hstray
      exact .inr (.delayed hs hrun hstray)
    · refine .inl (.delayed fun fuel s₁ e s₂ hs hrun => ?_)
      exact (ih fuel s₁ e s₂ hs hrun).resolve_right fun h => hstray ⟨fuel, s₁, e, s₂, hs, hrun, h⟩

/-! ## Checks -/

/-- A check can look into the definitions of the let clauses in `D`: nothing that it is given
mentions them but the term itself, and the term only where it is checked later than the
clause. No trace is written, since that would read the term ahead. -/
structure Checker.Ready (k : Checker) (D : Nat → Prop) (Γ : Context) (t : Term)
    (expected : Option Term) (s : Store) : Prop where
  sig : k.sig.Within (.without D)
  context : ∀ e ∈ Γ.entries, ∀ u, e.type = some u → u.Within (.without D)
  expected : ∀ u, expected = some u → u.Within (.without D)
  store : Good (.without D) s
  numbered : ∀ n, D n → n < s.next
  quiet : k.traceDepth = 0 ∨ ∀ n, ¬ D n
  tidy : ∃ P, Tidy k.sig s D D t P

/-- Scope safety. Let a check of a term succeed, with or without an expected type. Then every
variable that occurs free in the term, by the scopes of substitution, is a variable of the
context, unless it is stray. This counts occurrences in the definitions and types of let
clauses, for any set of clauses that the check can look into, and in the solutions of
unknowns. Variables that did not exist when the check began do not count. -/
theorem check_vars_in_scope (k : Checker) (fuel : Nat) (Γ : Context) (t : Term)
    (expected : Option Term) (st st' : CheckState) (type : Term) (D : Nat → Prop)
    (hready : k.Ready D Γ t expected st.solver.store)
    (hrun : k.check fuel Γ t expected st = .ok type st') (x : Var)
    (hx : x.serial < st.solver.store.next)
    (hocc : Occurs k.sig Node.lexical D st.solver.store t x) :
    x ∈ Γ.vars ∨ Stray k.sig D st.solver.store t x := by
  obtain ⟨P, htidy⟩ := hready.tidy
  have hset : Setting k st.solver.store.next D := ⟨hready.sig, hready.numbered, hready.quiet⟩
  have hset' : Setting k st.solver.store.next P := hset.mono htidy.le
  have hlook : Unmet.Looks st.solver.store D ⟨D, hset⟩ t ⟨P, hset'⟩ := htidy
  have hscope : (letCourse k st.solver.store.next st.solver.store D).Placed ⟨D, hset⟩ Γ.vars
      (Scope.ofContext Γ) :=
    ⟨⟨hready.context, by simp [Scope.ofContext]⟩, fun _ hy => .inl hy⟩
  have hpasses := (Typing.checks_term fuel _ D).passes hlook hscope hready.expected
  have hafter := hpasses () st (Steady.refl hready.store (Nat.le_refl _))
  have hrun : Typing.term k fuel (Scope.ofContext Γ) t expected st = .ok type st' := hrun
  rw [hrun] at hafter
  exact (occurs_lexical hocc).imp_left (hafter.2.2 x hx)

/-! ## A variable that passes, and one in a definition -/

namespace CaseEscape

open Prelude (checker)

/-- A parameter of the case expression. -/
def x : Var := ⟨14, .param, "x"⟩

def y : Var := ⟨15, .param, "y"⟩

/-- The term `\case x \as x \return Nat \with { | y => y }`. -/
def term : Term :=
  .mk 16 (.case
    { strict := false
      params := [⟨x, some (.mk 13 .nat), true⟩]
      resultType := .mk 13 .nat
      levelProof := none
      elim := some ⟨17, [⟨[.bind y (.mk 13 .nat)], some (.mk 18 (.ref y))⟩], none⟩
      args := [.mk 19 (.ref x)] })

def state : CheckState := .ofStore (.start 20)

/-- The term is accepted in the empty context, although the argument of the case expression
refers to a variable that nothing binds there. -/
theorem check_accepts_free_variable :
    (∃ type st', checker.check 20 .empty term none state = .ok type st') ∧
      Occurs checker.sig Node.lexical (fun _ => False) state.solver.store term x ∧
      x ∉ Context.empty.vars := by
  refine ⟨Check.exists_ok (by decide +kernel), ?_, by decide⟩
  exact .part (p := ([], .mk 19 (.ref x))) (by simp [CaseOf.subterms, unscoped]) (by simp) .ref

end CaseEscape

namespace LetScope

open Prelude (checker)

/-- A variable of the context. -/
def z : Var := ⟨14, .param, "z"⟩

def c : Var := ⟨15, .clause, "c"⟩

def context : Context := ⟨[⟨z, some (.mk 13 .nat)⟩]⟩

def definition : Term := .mk 16 (.suc (.mk 17 (.ref z)))

/-- The term `\let c => suc z \in c`. -/
def term : Term := .mk 18 (.letIn false [c] (.mk 19 (.ref c)))

def state : CheckState :=
  .ofStore { Store.start 20 with clauses := Table.empty.insert 15 ⟨definition, none⟩ }

/-- The clause of the term. -/
def clauses (n : Nat) : Prop := n = 15

theorem binds {v : Var} (hv : v.kind ≠ .clause) : (Region.without clauses).Binds v :=
  ⟨trivial, fun hkind => absurd hkind hv⟩

theorem signature_within : Prelude.signature.Within (.without clauses) := by
  refine Signature.within_of_entries (binds (by decide)) ?_ ?_ nofun nofun ?_
  · simp [Prelude.signature]
  · simp [Prelude.conDefs_entries, binds]
  · simp [Prelude.funcDefs_entries, binds]

theorem definition_within : definition.Within (.without clauses) := by
  simp [definition, z]

theorem store_good : Good (.without clauses) state.solver.store where
  clause n d _ := Table.forall_insert (P := fun _ d => d.Within (.without clauses))
    (by simp [Table.empty, Table.get?]) ⟨definition_within, by simp⟩ n d
  solution := nofun
  unknown := nofun
  mapping := nofun
  refers_fresh n hn := fun h => by
    rw [h] at hn
    exact absurd hn (by decide)
  binds_fresh _ _ := trivial

/-- The definition is checked before the clause is referred to. -/
theorem term_tidy :
    Tidy Prelude.signature state.solver.store clauses clauses term
      fun n => clauses n ∧ n ≠ 15 := by
  have hz : Tidy Prelude.signature state.solver.store clauses clauses (.mk 17 (.ref z)) clauses :=
    .node (by simp) (by simp [z]) .nil
  have hdefinition :
      Tidy Prelude.signature state.solver.store clauses clauses definition clauses :=
    .node (by simp) (by simp) (.cons hz .nil)
  have hget : state.solver.store.clauses.get? c.serial = some ⟨definition, none⟩ := rfl
  refine .letIn (.cons hget (.cons hdefinition .nil) rfl .nil) (.node (by simp) ?_ .nil)
  intro p hp
  obtain rfl : p = .clause c := by simpa [c] using hp
  exact fun h => h.2 rfl

theorem ready : checker.Ready clauses context term none state.solver.store where
  sig := signature_within
  context := by simp [context]
  expected := by simp
  store := store_good
  numbered n hn := by
    rw [hn]
    decide
  quiet := .inl rfl
  tidy := ⟨_, term_tidy⟩

/-- The variable occurs in the definition of the clause, and is in the context. -/
theorem check_definition_in_scope :
    checker.Ready clauses context term none state.solver.store ∧
      Occurs Prelude.signature Node.lexical clauses state.solver.store term z ∧
      (z ∈ context.vars ∨ Stray Prelude.signature clauses state.solver.store term z) := by
  have hocc : Occurs Prelude.signature Node.lexical clauses state.solver.store term z := by
    show Occurs _ _ _ _ (.mk 18 (.letIn false ([] ++ c :: []) _)) z
    refine Occurs.clause rfl (d := ⟨definition, none⟩) rfl List.mem_cons_self (by simp) ?_
    exact .part (p := ([], .mk 17 (.ref z))) (by simp [unscoped])
      (by simp) .ref
  have hsucceeds : (checker.check 20 context term none).succeeds state := by
    decide +kernel
  obtain ⟨type, st', hrun⟩ := Check.exists_ok hsucceeds
  exact ⟨ready, hocc, check_vars_in_scope checker 20 context term none state st' type
    clauses ready hrun z (by decide) hocc⟩

end LetScope

end Recheck
