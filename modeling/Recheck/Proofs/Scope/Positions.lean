import Recheck.Proofs.Nameless
import Recheck.Proofs.Region
import Recheck.Substitution

/-!
# Recheck — the positions of a term and their scopes

Which variables occur free in a term depends on the scopes of its positions. There are two
ways to look at them.

* `Node.lexical` has the scopes of substitution. The arguments of a case expression are
  outside of its parameters, the types of parameters and of pattern variables outside of
  the variable itself, and bodies of clauses inside of their patterns.
* `Node.checked` has the positions that the checker looks at, in the order in which it does,
  with what is in scope there. The arguments of a case expression are inside of its
  parameters. The types that variables of patterns and parameters of decision trees are
  declared with are not looked at, but only compared with the types that the variables have
  to have. Of the implementations of a record type, those are looked at that are looked up.

`Occurs` is occurrence of a free variable, for either of them. It goes beyond the tree of a
term, into the definitions of let clauses and the solutions of unknowns.

A definition can be rewritten before the checker comes to it, by substitutions into other
terms that refer to the clause. `Tidy` excludes that: each let clause is bound once and not
mentioned before.
-/

namespace Recheck

variable {t : Term}

/-! ## Positions -/

section Positions

variable {T : Type}

def Clause.checked (c : Clause T) : List (Scoped T) :=
  c.body.toList.map (Pattern.inner [] (Pattern.bindingsOf c.patterns), ·)

mutual

def Tree.checked (outer : List Var) : Tree T → List (Scoped T)
  | .leaf ps body => [(Telescope.inner outer ps, body)]
  | .branch ps children => Tree.checkedOf (Telescope.inner outer ps) children

/-- The positions in the children of a branch. -/
def Tree.checkedOf (outer : List Var) : List (BranchKey × Tree T) → List (Scoped T)
  | [] => []
  | (_, t) :: rest => t.checked outer ++ Tree.checkedOf outer rest

end

def Elim.checked (e : Elim T) : List (Scoped T) :=
  e.clauses.flatMap Clause.checked ++ e.tree.toList.flatMap (Tree.checked [])

def CaseOf.checked (c : CaseOf T) : List (Scoped T) :=
  Telescope.subterms [] c.params ++
    (c.args ++ c.resultType :: c.levelProof.toList).map (Telescope.inner [] c.params, ·) ++
    c.elim.toList.flatMap Elim.checked

end Positions

def RecordType.checked (sig : Signature) (r : RecordType Term) : List (Scoped Term) :=
  (sig.implemented r).filterMap fun f => (r.impl? f).map ([r.this], ·)

/-- The positions that the checker looks at, in order. What is under a delayed substitution
is looked at once the substitution has been carried out. -/
@[simp] def Node.checked (sig : Signature) : Node Term → List (Scoped Term)
  | .record r => r.checked sig
  | .tuple fields type => Telescope.subterms [] type.val.params ++ unscoped fields
  | .new renewed type => type.val.checked sig ++ unscoped renewed.toList
  | .case c => c.checked
  | .ofType t type => unscoped [type, t]
  | .hole _ _ | .delayed _ _ _ => []
  | n => n.subterms

/-- The positions by the scopes of substitution. The part of a goal does not count. -/
@[simp] def Node.lexical : Node Term → List (Scoped Term)
  | .hole _ _ | .delayed _ _ _ => []
  | n => n.subterms

/-! ## Occurrences -/

/-- The solutions of unknowns are still there. -/
def Store.Extends (s s' : Store) : Prop :=
  ∀ n t, s.solutions.get? n = some t → s'.solutions.get? n = some t

/-- The variable occurs free in the term, at one of the positions. This goes into the
definitions and types of the let clauses in `D`. A variable occurs in a delayed substitution
if it occurs in whatever the substitution comes to, from the given store on. -/
inductive Occurs (sig : Signature) (positions : Node Term → List (Scoped Term)) :
    (Nat → Prop) → Store → Term → Var → Prop where
  | ref {D : Nat → Prop} {s : Store} {stamp : Nat} {x : Var} :
      Occurs sig positions D s (.mk stamp (.ref x)) x
  | part {D : Nat → Prop} {s : Store} {stamp : Nat} {n : Node Term} {p : Scoped Term} {x : Var}
      (hp : p ∈ positions n) (hx : x ∉ p.1) (h : Occurs sig positions D s p.2 x) :
      Occurs sig positions D s (.mk stamp n) x
  | clause {D : Nat → Prop} {s : Store} {stamp : Nat} {strict : Bool} {before after : List Var}
      {c : Var} {body t : Term} {d : LetClause} {x : Var} (hc : D c.serial)
      (hd : s.clauses.get? c.serial = some d) (ht : t ∈ d.type.toList ++ [d.expr])
      (hx : x ∉ before) (h : Occurs sig positions D s t x) :
      Occurs sig positions D s (.mk stamp (.letIn strict (before ++ c :: after) body)) x
  | solution {D : Nat → Prop} {s : Store} {stamp : Nat} {v : Var} {u : Term} {x : Var}
      (hu : s.solutions.get? stamp = some u) (h : Occurs sig positions (fun _ => False) s u x) :
      Occurs sig positions D s (.mk stamp (.unknown v)) x
  | delayed {D : Nat → Prop} {s : Store} {stamp : Nat} {u : Term} {exprs : MappingRef Term}
      {levels : LevelSubst} {x : Var}
      (h : ∀ fuel s₁ e s₂, s.Extends s₁ → expandDelayed sig fuel u exprs levels s₁ = .ok e s₂ →
        Occurs sig positions (fun _ => False) s₂ e x) :
      Occurs sig positions D s (.mk stamp (.delayed u exprs levels)) x

/-! ## What the checker does not look at -/

section Hidden

variable {T : Type}

/-- The variables of a telescope, and the types that come into its scope before they have
been looked at: a parameter without a type of its own has that of a later one. -/
def Telescope.hidden : Telescope T → List (Part T)
  | [] => []
  | p :: ps =>
    .binder p.var :: (if p.type.isNone then (Telescope.headType ps).toList.map .term else []) ++
      hidden ps

mutual

def Tree.hidden : Tree T → List (Part T)
  | .leaf ps _ => Telescope.parts ps
  | .branch ps children => Telescope.parts ps ++ Tree.hiddenOf children

/-- What the children of a branch hide. -/
def Tree.hiddenOf : List (BranchKey × Tree T) → List (Part T)
  | [] => []
  | (_, t) :: rest => t.hidden ++ Tree.hiddenOf rest

end

def Elim.hidden (e : Elim T) : List (Part T) :=
  e.clauses.flatMap (fun c => Pattern.partsOf c.patterns) ++ e.tree.toList.flatMap Tree.hidden

/-- The parts of a node that take part in the check of the node before the checker looks at
them, or without its ever doing so. A record type is the type of its own instance. -/
@[simp] def Node.hidden : Node T → List (Part T)
  | .ref x => (Node.ref x).parts
  | .lam _ ps _ | .pi _ ps _ => Telescope.hidden ps
  | .sigma s => Telescope.hidden s.params
  | .tuple _ type => Telescope.hidden type.val.params
  | .record r => r.parts
  | .new _ type => type.val.parts
  | .case c => Telescope.hidden c.params ++ c.elim.toList.flatMap Elim.hidden
  | .hole _ part => part.toList.map .term
  | .delayed t exprs _ => .term t :: exprs.parts
  | _ => []

end Hidden

/-! ## Positions and parts -/

section Parts

variable {ps : Telescope Term} {e : Elim Term} {c : CaseOf Term} {ts : List Term} {n : Node Term}
  {Q : Part Term → Prop}

theorem Telescope.forall_parts_iff (outer : List Var) : (∀ q ∈ ps.parts, Q q) ↔
    (∀ q ∈ ps.hidden, Q q) ∧ ∀ p ∈ ps.subterms outer, Q (.term p.2) := by
  induction ps generalizing outer with
  | nil => simp [Telescope.hidden, Telescope.subterms]
  | cons p ps ih =>
    -- a parameter without a type has that of a later one
    have hlater (hps : ∀ q ∈ Telescope.parts ps, Q q) :
        ∀ t ∈ (Telescope.headType ps).toList, Q (.term t) := by
      intro t ht
      obtain ⟨r, hr, htype⟩ := List.exists_of_findSome?_eq_some (Option.mem_toList.mp ht)
      exact hps _ (List.mem_flatMap.mpr ⟨r, hr, by simp [htype]⟩)
    have hparts : Telescope.parts (p :: ps) =
        .binder p.var :: (p.type.toList.map .term ++ Telescope.parts ps) := rfl
    simp only [hparts, Telescope.hidden, Telescope.subterms, List.cons_append,
      List.forall_mem_cons, List.forall_mem_append, List.forall_mem_map]
    rw [ih (p.var :: outer)] at hlater ⊢
    split <;> grind

mutual

theorem Tree.forall_parts_iff : ∀ (t : Tree Term) (outer : List Var), (∀ q ∈ t.parts, Q q) ↔
    (∀ q ∈ t.hidden, Q q) ∧ ∀ p ∈ t.checked outer, Q (.term p.2)
  | .leaf ps body, outer => by
    rw [Tree.parts, Tree.hidden, Tree.checked, List.forall_mem_append, List.forall_mem_singleton,
      List.forall_mem_singleton]
  | .branch ps children, outer => by
    rw [Tree.parts, Tree.hidden, Tree.checked, List.forall_mem_append, List.forall_mem_append,
      Tree.forall_partsOf_iff children (Telescope.inner outer ps), and_assoc]

theorem Tree.forall_partsOf_iff : ∀ (children : List (BranchKey × Tree Term)) (outer : List Var),
    (∀ q ∈ Tree.partsOf children, Q q) ↔ (∀ q ∈ Tree.hiddenOf children, Q q) ∧
      ∀ p ∈ Tree.checkedOf outer children, Q (.term p.2)
  | [], _ => by simp [Tree.partsOf, Tree.hiddenOf, Tree.checkedOf]
  | (key, t) :: rest, outer => by
    rw [Tree.partsOf, Tree.hiddenOf, Tree.checkedOf, List.forall_mem_append, List.forall_mem_append,
      List.forall_mem_append, Tree.forall_parts_iff t outer, Tree.forall_partsOf_iff rest outer,
      and_and_and_comm]

end

theorem Elim.forall_parts_iff : (∀ q ∈ e.parts, Q q) ↔
    (∀ q ∈ e.hidden, Q q) ∧ ∀ p ∈ e.checked, Q (.term p.2) := by
  simp only [Elim.parts, Elim.hidden, Elim.checked, Clause.parts, Clause.checked,
    List.forall_mem_append, List.forall_mem_flatMap, List.forall_mem_map,
    Tree.forall_parts_iff _ [], forall_and]
  exact and_and_and_comm

theorem CaseOf.forall_parts_iff : (∀ q ∈ c.parts, Q q) ↔
    (∀ q ∈ Telescope.hidden c.params ++ c.elim.toList.flatMap Elim.hidden, Q q) ∧
      ∀ p ∈ c.checked, Q (.term p.2) := by
  simp only [CaseOf.parts, CaseOf.checked, List.forall_mem_append, List.forall_mem_flatMap,
    List.forall_mem_map, List.forall_mem_cons, Elim.forall_parts_iff, forall_and,
    Telescope.forall_parts_iff []]
  grind

theorem forall_unscoped : (∀ p ∈ unscoped ts, Q (.term p.2)) ↔ ∀ t ∈ ts, Q (.term t) := by
  simp [unscoped]

/-- The hidden parts of a node and those that the checker looks at are all, but for the clauses of
a let expression. -/
theorem Node.forall_parts_iff (sig : Signature) (hn : ∀ strict xs body, n ≠ .letIn strict xs body) :
    (∀ q ∈ n.parts, Q q) ↔ (∀ q ∈ n.hidden, Q q) ∧ ∀ p ∈ n.checked sig, Q (.term p.2) := by
  have hrecord (r : RecordType Term) (hr : ∀ q ∈ r.parts, Q q) :
      ∀ p ∈ r.checked sig, Q (.term p.2) := by
    intro p hp
    obtain ⟨f, -, hf⟩ := List.mem_filterMap.mp hp
    obtain ⟨t, ht, rfl⟩ := Option.map_eq_some_iff.mp hf
    exact hr _ (.tail _ (List.mem_map.mpr ⟨(f, t), mem_of_lookup ht, rfl⟩))
  cases n with
  | letIn strict xs body => exact absurd rfl (hn strict xs body)
  | case c => exact CaseOf.forall_parts_iff
  | sigma s => exact Telescope.forall_parts_iff []
  | record r => exact ⟨fun h => ⟨h, hrecord r h⟩, And.left⟩
  | new renewed type =>
    simp only [Node.parts, Node.hidden, Node.checked, List.forall_mem_append, forall_unscoped,
      List.forall_mem_map]
    grind
  | lam sort ps body | pi sort ps body =>
    simp only [Node.parts, Node.hidden, Node.checked, Node.subterms, List.forall_mem_append,
      List.forall_mem_singleton, Telescope.forall_parts_iff [], and_assoc]
  | tuple fields type =>
    simp only [Node.parts, Node.hidden, Node.checked, List.forall_mem_append, forall_unscoped,
      List.forall_mem_map, Telescope.forall_parts_iff []]
    grind
  | ofType t type => simp [unscoped, and_comm]
  | ref | hole | delayed | univ | int | unknown =>
    simp
  | _ => simp [unscoped, or_imp, forall_and]

end Parts

/-! ## Parts and subterms -/

section Everywhere

variable {Q : Part Term → Prop} (hvars : ∀ x, Q (.binder x))

include hvars

theorem Telescope.forall_subterms {outer : List Var} {ps : Telescope Term} :
    (∀ p ∈ ps.subterms outer, Q (.term p.2)) ↔ ∀ q ∈ ps.parts, Q q := by
  induction ps generalizing outer with
  | nil => simp [Telescope.subterms]
  | cons p ps ih =>
    have hparts : Telescope.parts (p :: ps) =
        .binder p.var :: (p.type.toList.map .term ++ Telescope.parts ps) := rfl
    simp only [hparts, Telescope.subterms, List.forall_mem_cons, List.forall_mem_append,
      List.forall_mem_map, ih, hvars, true_and]

theorem Pattern.forall_subterms {outer : List Var} {bs : List (Var × Term)} :
    (∀ p ∈ Pattern.subterms outer bs, Q (.term p.2)) ↔
      ∀ q ∈ bs.flatMap fun b => [Part.binder b.1, .term b.2], Q q := by
  induction bs generalizing outer with
  | nil => simp [Pattern.subterms]
  | cons b bs ih =>
    simp only [Pattern.subterms, List.flatMap_cons, List.cons_append, List.forall_mem_cons,
      List.nil_append, ih, hvars, true_and]

set_option linter.unusedSectionVars false in
mutual

theorem Tree.forall_subterms : ∀ {t : Tree Term} {outer : List Var},
    (∀ p ∈ t.subterms outer, Q (.term p.2)) ↔ ∀ q ∈ t.parts, Q q
  | .leaf ps body, outer => by
    rw [Tree.subterms, Tree.parts, List.forall_mem_append, List.forall_mem_append,
      Telescope.forall_subterms hvars, List.forall_mem_singleton, List.forall_mem_singleton]
  | .branch ps children, outer => by
    rw [Tree.subterms, Tree.parts, List.forall_mem_append, List.forall_mem_append,
      Telescope.forall_subterms hvars, Tree.forall_subtermsOf]

theorem Tree.forall_subtermsOf : ∀ {children : List (BranchKey × Tree Term)} {outer : List Var},
    (∀ p ∈ Tree.subtermsOf outer children, Q (.term p.2)) ↔ ∀ q ∈ Tree.partsOf children, Q q
  | [], _ => by simp [Tree.partsOf, Tree.subtermsOf]
  | (key, t) :: rest, outer => by
    rw [Tree.subtermsOf, Tree.partsOf, List.forall_mem_append, List.forall_mem_append,
      Tree.forall_subterms, Tree.forall_subtermsOf]

end

theorem Elim.forall_subterms {e : Elim Term} :
    (∀ p ∈ e.subterms, Q (.term p.2)) ↔ ∀ q ∈ e.parts, Q q := by
  simp only [Elim.subterms, Elim.parts, Clause.subterms, Clause.parts, Pattern.partsOf,
    List.forall_mem_append, List.forall_mem_flatMap, List.forall_mem_map,
    Pattern.forall_subterms hvars, Tree.forall_subterms hvars]

/-- What holds of all variables holds of the subterms of a node if it holds of its parts, and the
other way round. The mapping of a delayed substitution is left aside. -/
theorem Node.forall_subterms {n : Node Term} (hclauses : ∀ x, Q (.clause x))
    (hmapping : ∀ u m levels, n = .delayed u (.own m) levels → ∀ e ∈ m.entries, Q (.term e.2)) :
    (∀ p ∈ n.subterms, Q (.term p.2)) ↔ ∀ q ∈ n.parts, Q q := by
  have hps {ps : Telescope Term} : (∀ p ∈ ps.subterms [], Q (.term p.2)) ↔
      ∀ q ∈ ps.parts, Q q := Telescope.forall_subterms hvars
  cases n with
  | ref x =>
    rw [Node.parts]
    split <;> simp [hclauses]
  | case c =>
    simp only [Node.subterms, CaseOf.subterms, Node.parts, CaseOf.parts, List.forall_mem_append,
      List.forall_mem_flatMap, List.forall_mem_map, List.forall_mem_cons, forall_unscoped, hps,
      Elim.forall_subterms hvars]
    grind
  | delayed u exprs levels =>
    have hexprs : ∀ q ∈ exprs.parts, Q q := by
      cases exprs with
      | shared number => simp [MappingRef.parts]
      | own m =>
        simp only [MappingRef.parts, Mapping.parts, List.forall_mem_flatMap, List.forall_mem_append,
          List.forall_mem_singleton]
        refine fun e he => ⟨?_, hmapping u m levels rfl e he⟩
        cases e.1 <;> simp [hvars]
    exact ⟨fun h => List.forall_mem_cons.mpr ⟨h ([], u) (.head _), hexprs⟩,
      fun h => List.forall_mem_singleton.mpr (h (.term u) (.head _))⟩
  | _ =>
    simp only [Node.subterms, RecordType.subterms, Node.parts, RecordType.parts, forall_unscoped,
      List.forall_mem_append, List.forall_mem_flatMap, List.forall_mem_map, List.forall_mem_cons,
      List.not_mem_nil, false_implies, implies_true, hps, hvars, hclauses, and_true, true_and]

end Everywhere

/-- The parts of a node are smaller than the node. -/
theorem Node.sizeOf_part {n : Node Term} (ht : .term t ∈ n.parts) : sizeOf t < sizeOf n := by
  refine (Node.forall_subterms (Q := fun q => ∀ u, q = .term u → sizeOf u < sizeOf n) ?_ ?_ ?_).mp
    ?_ _ ht t rfl
  · simp
  · simp
  · rintro u ⟨entries⟩ levels rfl ⟨key, value⟩ he _ ⟨rfl⟩
    have := List.sizeOf_lt_of_mem he
    simp only [Node.delayed.sizeOf_spec, MappingRef.own.sizeOf_spec, Mapping.mk.sizeOf_spec,
      Prod.mk.sizeOf_spec] at *
    omega
  · rintro p hp _ ⟨rfl⟩
    exact Node.sizeOf_subterm hp

namespace Region

/-- Everything keeps to this region. -/
def unrestricted : Region := ⟨fun _ => True, fun _ => True⟩

theorem binds_unrestricted (x : Var) : unrestricted.Binds x := ⟨trivial, fun _ => trivial⟩

theorem within_unrestricted : ∀ t : Term, t.Within unrestricted
  | .mk stamp n => by
    refine ⟨fun u hu => ?_, fun x _ => binds_unrestricted x, fun x _ => trivial⟩
    have hsize : sizeOf u < sizeOf n := Node.sizeOf_part hu
    exact within_unrestricted u
termination_by t => sizeOf t
decreasing_by
  simp only [Term.mk.sizeOf_spec]
  omega

theorem holds_unrestricted (parts : List (Part Term)) : unrestricted.Holds parts := by
  intro p _
  cases p with
  | term t => exact within_unrestricted t
  | binder x => exact binds_unrestricted x
  | clause x => trivial

theorem signature_unrestricted (sig : Signature) : sig.Within unrestricted where
  data _ := holds_unrestricted _
  con _ := holds_unrestricted _
  patterns _ _ _ := holds_unrestricted _
  this _ := binds_unrestricted _
  thisType _ := within_unrestricted _
  field _ := within_unrestricted _
  params _ := holds_unrestricted _
  result _ := within_unrestricted _
  body _ _ _ := holds_unrestricted _

theorem good_unrestricted (s : Store) : Good unrestricted s where
  clause _ _ _ _ := ⟨within_unrestricted _, fun u _ => within_unrestricted u⟩
  solution _ _ _ := within_unrestricted _
  unknown _ _ _ _ _ := within_unrestricted _
  mapping _ _ _ := holds_unrestricted _
  refers_fresh _ _ := trivial
  binds_fresh _ _ := trivial

end Region

/-! ## Tidiness -/

/-- The terms that do not mention certain let clauses. -/
def Region.without (P : Nat → Prop) : Region := ⟨fun n => ¬ P n, fun _ => True⟩

theorem Region.without_le {P P' : Nat → Prop} (h : ∀ n, P' n → P n) :
    Region.without P ≤ .without P' :=
  ⟨fun n hn hn' => hn (h n hn'), fun _ hn => hn⟩

mutual

/-- The term can be checked while the let clauses in `P` have not been met yet, and those in
`P'` are left afterwards. What is hidden mentions none of `P`. The let clauses of the term
itself are met in order, if they belong to `D`; others are left out of account. -/
inductive Tidy (sig : Signature) (s : Store) (D : Nat → Prop) :
    (Nat → Prop) → Term → (Nat → Prop) → Prop where
  | node {P P' : Nat → Prop} {stamp : Nat} {n : Node Term}
      (hn : ∀ strict xs body, n ≠ .letIn strict xs body)
      (hhidden : (Region.without P).Holds n.hidden)
      (hparts : TidyAll sig s D P ((n.checked sig).map Prod.snd) P') :
      Tidy sig s D P (.mk stamp n) P'
  | letIn {P P₁ P' : Nat → Prop} {stamp : Nat} {strict : Bool} {xs : List Var} {body : Term}
      (hclauses : TidyClauses sig s D P xs P₁) (hbody : Tidy sig s D P₁ body P') :
      Tidy sig s D P (.mk stamp (.letIn strict xs body)) P'

/-- The terms can be checked one after the other. -/
inductive TidyAll (sig : Signature) (s : Store) (D : Nat → Prop) :
    (Nat → Prop) → List Term → (Nat → Prop) → Prop where
  | nil {P : Nat → Prop} : TidyAll sig s D P [] P
  | cons {P P₁ P' : Nat → Prop} {t : Term} {ts : List Term}
      (ht : Tidy sig s D P t P₁) (hts : TidyAll sig s D P₁ ts P') :
      TidyAll sig s D P (t :: ts) P'

/-- The clauses of a let expression can be checked, each by its type and its definition. A
clause is met as soon as its definition has been checked. -/
inductive TidyClauses (sig : Signature) (s : Store) (D : Nat → Prop) :
    (Nat → Prop) → List Var → (Nat → Prop) → Prop where
  | nil {P : Nat → Prop} : TidyClauses sig s D P [] P
  | other {P P' : Nat → Prop} {x : Var} {xs : List Var} (hD : ¬ D x.serial) (hx : ¬ P x.serial)
      (hxs : TidyClauses sig s D P xs P') : TidyClauses sig s D P (x :: xs) P'
  | cons {P P₁ P' : Nat → Prop} {x : Var} {xs : List Var} {d : LetClause}
      (hd : s.clauses.get? x.serial = some d)
      (hparts : TidyAll sig s D P (d.type.toList ++ [d.expr]) P₁) (hx : P₁ x.serial)
      (hxs : TidyClauses sig s D (fun n => P₁ n ∧ n ≠ x.serial) xs P') :
      TidyClauses sig s D P (x :: xs) P'

end

section Tidy

variable {sig : Signature} {s : Store} {D P P' : Nat → Prop}
variable {xs : List Var}

mutual

/-- Checking a term only meets clauses, it does not add any. -/
theorem Tidy.le {P P' : Nat → Prop} {t : Term} : Tidy sig s D P t P' → ∀ n, P' n → P n
  | .node _ _ hparts => hparts.le
  | .letIn hclauses hbody => fun n hn => hclauses.le n (hbody.le n hn)

theorem TidyAll.le {P P' : Nat → Prop} {ts : List Term} :
    TidyAll sig s D P ts P' → ∀ n, P' n → P n
  | .nil => fun _ hn => hn
  | .cons ht hts => fun n hn => ht.le n (hts.le n hn)

theorem TidyClauses.le {P P' : Nat → Prop} {xs : List Var} :
    TidyClauses sig s D P xs P' → ∀ n, P' n → P n
  | .nil => fun _ hn => hn
  | .other _ _ hxs => hxs.le
  | .cons _ hparts _ hxs => fun n hn => hparts.le n (hxs.le n hn).1

end

theorem TidyClauses.not_mem (h : TidyClauses sig s D P xs P') : ∀ x ∈ xs, ¬ P' x.serial := by
  induction xs generalizing P with
  | nil => simp
  | cons x xs ih =>
    cases h with
    | other _ hx hxs => exact List.forall_mem_cons.mpr ⟨fun hn => hx (hxs.le _ hn), ih hxs⟩
    | cons _ _ _ hxs => exact List.forall_mem_cons.mpr ⟨fun hn => (hxs.le _ hn).2 rfl, ih hxs⟩

mutual

/-- A term does not mention the clauses that are left after it. -/
theorem Tidy.within {P P' : Nat → Prop} {t : Term} :
    Tidy sig s D P t P' → t.Within (.without P')
  | .node hn hhidden hparts => by
    refine Term.within_mk.mpr ((Node.forall_parts_iff sig hn).mpr ⟨?_, fun p hp => ?_⟩)
    · exact hhidden.mono (Region.without_le hparts.le)
    · exact hparts.within p.2 (List.mem_map_of_mem hp)
  | .letIn hclauses hbody => by
    refine Term.within_mk.mpr ?_
    simp only [Node.parts, Region.holds_append, Region.holds_flatMap, Region.holds_cons,
      Part.within_binder, Part.within_clause, Part.within_term]
    refine ⟨fun x hx => ?_, hbody.within, Region.holds_nil⟩
    have hnot : ¬ P' x.serial := fun hn => hclauses.not_mem x hx (hbody.le _ hn)
    exact ⟨⟨trivial, fun _ => hnot⟩, hnot, Region.holds_nil⟩

theorem TidyAll.within {P P' : Nat → Prop} {ts : List Term} :
    TidyAll sig s D P ts P' → ∀ t ∈ ts, t.Within (.without P')
  | .nil => by simp
  | .cons ht hts =>
    List.forall_mem_cons.mpr ⟨ht.within.mono (Region.without_le hts.le), hts.within⟩

end

theorem tidyClauses_of_forall (h : ∀ x ∈ xs, ¬ P x.serial) :
    TidyClauses sig s (fun _ => False) P xs P := by
  induction xs with
  | nil => exact .nil
  | cons x xs ih =>
    rw [List.forall_mem_cons] at h
    exact .other (fun h => h) h.1 (ih h.2)

/-- A term that mentions none of the clauses is tidy, if no definitions are looked at. -/
theorem tidy_of_within (h : t.Within (.without P)) : Tidy sig s (fun _ => False) P t P := by
  induction h with
  | @mk stamp node terms binders clauses ih =>
    have hwithin : (Term.mk stamp node).Within (.without P) := ⟨terms, binders, clauses⟩
    have hnode := Term.within_mk.mp hwithin
    by_cases hlet : ∃ strict xs body, node = .letIn strict xs body
    · obtain ⟨strict, xs, body, rfl⟩ := hlet
      have hxs : ∀ x ∈ xs, ¬ P x.serial := fun x hx => clauses x (by simp [hx])
      exact .letIn (tidyClauses_of_forall hxs) (ih body (by simp))
    · have hn (strict : Bool) (xs : List Var) (body : Term) : node ≠ .letIn strict xs body :=
        fun heq => hlet ⟨strict, xs, body, heq⟩
      obtain ⟨hhidden, hchecked⟩ :=
        (Node.forall_parts_iff (Q := (· ∈ node.parts)) sig hn).mp fun _ h => h
      refine .node hn (fun q hq => hnode q (hhidden q hq)) ?_
      have hall : ∀ ts : List Term, (∀ t ∈ ts, .term t ∈ node.parts) →
          TidyAll sig s (fun _ => False) P ts P := by
        intro ts hts
        induction ts with
        | nil => exact .nil
        | cons t ts ihts =>
          rw [List.forall_mem_cons] at hts
          exact .cons (ih t hts.1) (ihts hts.2)
      refine hall _ fun t ht => ?_
      obtain ⟨p, hp, rfl⟩ := List.mem_map.mp ht
      exact hchecked p hp

end Tidy

end Recheck
