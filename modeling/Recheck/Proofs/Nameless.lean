import Recheck.Term

/-!
# Recheck — scopes and the nameless reading of terms

`Node.subterms` lists the immediate subterms of a node, each together with the variables that
the node binds around it, the innermost first. The scopes are those of substitution: the
type of a parameter is outside of the parameter itself, the arguments of a case expression
are outside of its parameters, and the body of a clause is inside of its patterns.

The nameless reading of a term replaces references to bound variables by their distance
from the binder and forgets stamps. Two terms have the same reading exactly if they are
equal up to the names of bound variables. The definitions of let clauses are kept in the
store and take no part in it.
-/

namespace Recheck

variable {T : Type}

/-! ## Subterms in scope -/

/-- A subterm and the variables that are bound around it, the innermost first. -/
abbrev Scoped (T : Type) := List Var × T

/-- The types of the parameters, each in scope of the parameters before it. -/
def Telescope.subterms (outer : List Var) : Telescope T → List (Scoped T)
  | [] => []
  | p :: ps => p.type.toList.map (outer, ·) ++ subterms (p.var :: outer) ps

/-- The scope behind a telescope. -/
def Telescope.inner (outer : List Var) (ps : Telescope T) : List Var :=
  (Telescope.vars ps).reverse ++ outer

/-- The types of the variables of patterns, each in scope of the variables before it. -/
def Pattern.subterms (outer : List Var) : List (Var × T) → List (Scoped T)
  | [] => []
  | b :: bs => (outer, b.2) :: Pattern.subterms (b.1 :: outer) bs

/-- The scope behind the variables of patterns. -/
def Pattern.inner (outer : List Var) (bs : List (Var × T)) : List Var :=
  (bs.map Prod.fst).reverse ++ outer

def Clause.subterms (c : Clause T) : List (Scoped T) :=
  let bindings := Pattern.bindingsOf c.patterns
  Pattern.subterms [] bindings ++ c.body.toList.map (Pattern.inner [] bindings, ·)

mutual

def Tree.subterms (outer : List Var) : Tree T → List (Scoped T)
  | .leaf ps body => Telescope.subterms outer ps ++ [(Telescope.inner outer ps, body)]
  | .branch ps children =>
    Telescope.subterms outer ps ++ Tree.subtermsOf (Telescope.inner outer ps) children

/-- The subterms of the children of a branch. -/
def Tree.subtermsOf (outer : List Var) : List (BranchKey × Tree T) → List (Scoped T)
  | [] => []
  | (_, t) :: rest => t.subterms outer ++ Tree.subtermsOf outer rest

end

def Elim.subterms (e : Elim T) : List (Scoped T) :=
  e.clauses.flatMap Clause.subterms ++ e.tree.toList.flatMap (Tree.subterms [])

def RecordType.subterms (r : RecordType T) : List (Scoped T) :=
  r.impls.map fun e => ([r.this], e.2)

/-- Terms in the scope of the node itself. -/
def unscoped (ts : List T) : List (Scoped T) := ts.map ([], ·)

def CaseOf.subterms (c : CaseOf T) : List (Scoped T) :=
  unscoped c.args ++ Telescope.subterms [] c.params ++
    (c.resultType :: c.levelProof.toList).map (Telescope.inner [] c.params, ·) ++
    c.elim.toList.flatMap Elim.subterms

/-- The immediate subterms of a node in their scopes. -/
@[simp] def Node.subterms : Node T → List (Scoped T)
  | .ref _ | .univ _ | .int _ | .unknown _ => []
  | .app fn arg => unscoped [fn, arg]
  | .call _ _ args => unscoped args
  | .con c => unscoped c.dataArgs ++ unscoped c.args
  | .data d => unscoped d.args
  | .field _ _ arg => unscoped [arg]
  | .record r => r.subterms
  | .lam _ ps body | .pi _ ps body =>
    Telescope.subterms [] ps ++ [(Telescope.inner [] ps, body)]
  | .sigma s => Telescope.subterms [] s.params
  | .tuple fields type => unscoped fields ++ Telescope.subterms [] type.val.params
  | .proj t _ => unscoped [t]
  | .new renewed type => unscoped renewed.toList ++ type.val.subterms
  | .letIn _ xs body => [(xs.reverse, body)]
  | .case c => c.subterms
  | .ofType t type => unscoped [t, type]
  | .hole _ part => unscoped part.toList
  | .delayed t _ _ => unscoped [t]

/-! ## Outer scopes -/

/-- Subterms in scope of more variables, which are bound around all others. -/
def inScopeOf (outer : List Var) (ps : List (Scoped T)) : List (Scoped T) :=
  ps.map fun p => (p.1 ++ outer, p.2)

variable (outer : List Var)

theorem inScopeOf_append (ps qs : List (Scoped T)) :
    inScopeOf outer (ps ++ qs) = inScopeOf outer ps ++ inScopeOf outer qs := List.map_append

theorem inScopeOf_inScopeOf (inner : List Var) (ps : List (Scoped T)) :
    inScopeOf outer (inScopeOf inner ps) = inScopeOf (inner ++ outer) ps := by
  simp [inScopeOf]

theorem inScopeOf_map (inner : List Var) (ts : List T) :
    inScopeOf outer (ts.map (inner, ·)) = ts.map (inner ++ outer, ·) := by
  simp [inScopeOf]

theorem Telescope.subterms_eq (ps : Telescope T) :
    ps.subterms outer = inScopeOf outer (ps.subterms []) := by
  induction ps generalizing outer with
  | nil => rfl
  | cons p ps ih =>
    rw [subterms, subterms, ih (p.var :: outer), ih [p.var], inScopeOf_append, inScopeOf_map,
      inScopeOf_inScopeOf]
    rfl

theorem Telescope.inner_eq (ps : Telescope T) : ps.inner outer = ps.inner [] ++ outer := by
  rw [inner, inner, List.append_nil]

theorem Pattern.subterms_eq (bs : List (Var × T)) :
    Pattern.subterms outer bs = inScopeOf outer (Pattern.subterms [] bs) := by
  induction bs generalizing outer with
  | nil => rfl
  | cons b bs ih =>
    rw [subterms, subterms, ih (b.1 :: outer), ih [b.1]]
    exact congrArg _ (inScopeOf_inScopeOf outer [b.1] _).symm

mutual

theorem Tree.subterms_eq (outer : List Var) : ∀ t : Tree T,
    t.subterms outer = inScopeOf outer (t.subterms [])
  | .leaf ps body => by
    rw [Tree.subterms, Tree.subterms, inScopeOf_append, Telescope.subterms_eq,
      Telescope.inner_eq outer]
    rfl
  | .branch ps children => by
    rw [Tree.subterms, Tree.subterms, inScopeOf_append, Telescope.subterms_eq,
      Telescope.inner_eq outer, Tree.subtermsOf_eq (_ ++ outer),
      Tree.subtermsOf_eq (Telescope.inner [] ps), inScopeOf_inScopeOf]

theorem Tree.subtermsOf_eq (outer : List Var) : ∀ children : List (BranchKey × Tree T),
    Tree.subtermsOf outer children = inScopeOf outer (Tree.subtermsOf [] children)
  | [] => rfl
  | (key, t) :: rest => by
    rw [Tree.subtermsOf, Tree.subtermsOf, inScopeOf_append, Tree.subterms_eq,
      Tree.subtermsOf_eq outer rest]

end

theorem lookup_of_nodup {K A : Type} [DecidableEq K] {es : List (K × A)} {e : K × A}
    (hnodup : (es.map Prod.fst).Nodup) (he : e ∈ es) : es.lookup e.1 = some e.2 := by
  induction es with
  | nil => cases he
  | cons d es ih =>
    rw [List.map_cons, List.nodup_cons] at hnodup
    rw [List.lookup_cons]
    rcases List.mem_cons.mp he with rfl | he
    · simp
    · have hne : (e.1 == d.1) = false := by
        simp only [beq_eq_false_iff_ne, ne_eq]
        intro heq
        exact hnodup.1 (heq ▸ List.mem_map_of_mem he)
      rw [hne]
      exact ih hnodup.2 he

/-! ## Shapes -/

/-- A node without its subterms and without the names of the variables that it binds. -/
abbrev Shape := Node Unit

def Param.erase (p : Param T) : Param Unit := ⟨default, p.type.map fun _ => (), p.explicit⟩

mutual

def Pattern.erase : Pattern T → Pattern Unit
  | .bind _ _ => .bind default ()
  | .wild => .wild
  | .absurd => .absurd
  | .con c args => .con c (Pattern.eraseAll args)
  | .tuple args => .tuple (Pattern.eraseAll args)
  | .record fields args => .record fields (Pattern.eraseAll args)

/-- The shapes of a list of patterns. -/
def Pattern.eraseAll : List (Pattern T) → List (Pattern Unit)
  | [] => []
  | p :: ps => p.erase :: Pattern.eraseAll ps

end

def Clause.erase (c : Clause T) : Clause Unit :=
  ⟨Pattern.eraseAll c.patterns, c.body.map fun _ => ()⟩

mutual

def Tree.erase : Tree T → Tree Unit
  | .leaf ps _ => .leaf (ps.map Param.erase) ()
  | .branch ps children => .branch (ps.map Param.erase) (Tree.eraseAll children)

/-- The shapes of the children of a branch. -/
def Tree.eraseAll : List (BranchKey × Tree T) → List (BranchKey × Tree Unit)
  | [] => []
  | (key, t) :: rest => (key, t.erase) :: Tree.eraseAll rest

end

def Elim.erase (e : Elim T) : Elim Unit := ⟨0, e.clauses.map Clause.erase, e.tree.map Tree.erase⟩

def RecordType.erase (r : RecordType T) : RecordType Unit :=
  ⟨r.record, r.sortArg, r.impls.map fun e => (e.1, ()), r.sort, r.universes, default⟩

def SigmaType.erase (s : SigmaType T) : SigmaType Unit := ⟨s.sort, s.params.map Param.erase⟩

def MappingRef.erase : MappingRef T → MappingRef Unit
  | .own m => .own ⟨m.entries.map fun e => (e.1, ())⟩
  | .shared number => .shared number

/-- The number of terms, as a list of nothing else. -/
def eraseTerms (ts : List T) : List Unit := ts.map fun _ => ()

def CaseOf.erase (c : CaseOf T) : CaseOf Unit :=
  ⟨c.strict, c.params.map Param.erase, (), c.levelProof.map fun _ => (), c.elim.map Elim.erase,
    eraseTerms c.args⟩

/-- The shape of a node. -/
def Node.erase : Node T → Shape
  | .ref _ => .ref default
  | .app _ _ => .app () ()
  | .call f sortArg args => .call f sortArg (eraseTerms args)
  | .con c => .con ⟨c.con, c.sortArg, eraseTerms c.dataArgs, eraseTerms c.args⟩
  | .data d => .data ⟨d.data, d.sortArg, eraseTerms d.args⟩
  | .field f sortArg _ => .field f sortArg ()
  | .record r => .record r.erase
  | .lam sort ps _ => .lam sort (ps.map Param.erase) ()
  | .pi sort ps _ => .pi sort (ps.map Param.erase) ()
  | .sigma s => .sigma s.erase
  | .tuple fields type => .tuple (eraseTerms fields) ⟨0, type.val.erase⟩
  | .proj _ index => .proj () index
  | .univ sort => .univ sort
  | .new renewed type => .new (renewed.map fun _ => ()) ⟨0, type.val.erase⟩
  | .letIn strict xs _ => .letIn strict (xs.map fun _ => default) ()
  | .case c => .case c.erase
  | .ofType _ _ => .ofType () ()
  | .int n => .int n
  | .hole goal part => .hole goal (part.map fun _ => ())
  | .unknown v => .unknown v
  | .delayed _ exprs levels => .delayed () exprs.erase levels

/-! ## Subterms are smaller -/

section Sizes

variable {outer : List Var} {p : Scoped Term}

theorem sizeOf_unscoped {ts : List Term} (hp : p ∈ unscoped ts) : sizeOf p.2 < sizeOf ts := by
  obtain ⟨t, ht, rfl⟩ := List.mem_map.mp hp
  exact List.sizeOf_lt_of_mem ht

theorem sizeOf_some (t : Term) : sizeOf t < sizeOf (some t) := by simp +arith

theorem sizeOf_optional {o : Option Term} (hp : p ∈ unscoped o.toList) : sizeOf p.2 < sizeOf o := by
  obtain ⟨t, ht, rfl⟩ := List.mem_map.mp hp
  obtain rfl : o = some t := Option.mem_toList.mp ht
  exact sizeOf_some t

theorem Telescope.sizeOf_subterm {ps : Telescope Term} (hp : p ∈ ps.subterms outer) :
    sizeOf p.2 < sizeOf ps := by
  induction ps generalizing outer with
  | nil => simp [Telescope.subterms] at hp
  | cons q ps ih =>
    obtain ⟨x, type, explicit⟩ := q
    rcases List.mem_append.mp hp with hp | hp
    · obtain ⟨t, ht, rfl⟩ := List.mem_map.mp hp
      obtain rfl : type = some t := Option.mem_toList.mp ht
      exact Nat.lt_trans (sizeOf_some t) (by simp +arith)
    · exact Nat.lt_trans (ih hp) (by simp +arith)

mutual

theorem Pattern.sizeOf_binding : ∀ {p : Pattern Term} {b : Var × Term}, b ∈ p.bindings →
    sizeOf b.2 < sizeOf p
  | .bind x type, b, hb => by
    obtain rfl : b = (x, type) := by simpa using hb
    simp +arith
  | .wild, _, hb | .absurd, _, hb => by simp at hb
  | .con _ args, b, hb | .tuple args, b, hb | .record _ args, b, hb =>
    Nat.lt_trans (Pattern.sizeOf_bindingOf hb) (by simp +arith)

theorem Pattern.sizeOf_bindingOf : ∀ {ps : List (Pattern Term)} {b : Var × Term},
    b ∈ Pattern.bindingsOf ps → sizeOf b.2 < sizeOf ps
  | [], _, hb => by simp [Pattern.bindingsOf] at hb
  | p :: ps, b, hb => by
    rw [Pattern.bindingsOf, List.mem_append] at hb
    rcases hb with hb | hb
    · exact Nat.lt_trans (Pattern.sizeOf_binding hb) (by simp +arith)
    · exact Nat.lt_trans (Pattern.sizeOf_bindingOf hb) (by simp +arith)

end

theorem Pattern.mem_of_subterm {bs : List (Var × T)} {p : Scoped T}
    (hp : p ∈ Pattern.subterms outer bs) : ∃ b ∈ bs, b.2 = p.2 := by
  induction bs generalizing outer with
  | nil => cases hp
  | cons b bs ih =>
    rcases List.mem_cons.mp hp with rfl | hp
    · exact ⟨b, by simp, rfl⟩
    · obtain ⟨b', hb', heq⟩ := ih hp
      exact ⟨b', .tail b hb', heq⟩

theorem Clause.sizeOf_subterm {c : Clause Term} (hp : p ∈ c.subterms) : sizeOf p.2 < sizeOf c := by
  obtain ⟨patterns, body⟩ := c
  rcases List.mem_append.mp hp with hp | hp
  · obtain ⟨b, hb, heq⟩ := Pattern.mem_of_subterm hp
    exact heq ▸ Nat.lt_trans (Pattern.sizeOf_bindingOf hb) (by simp +arith)
  · obtain ⟨t, ht, rfl⟩ := List.mem_map.mp hp
    obtain rfl : body = some t := Option.mem_toList.mp ht
    exact Nat.lt_trans (sizeOf_some t) (by simp +arith)

mutual

theorem Tree.sizeOf_subterm : ∀ {t : Tree Term} {outer : List Var} {p : Scoped Term},
    p ∈ t.subterms outer → sizeOf p.2 < sizeOf t
  | .leaf ps body, outer, p, hp => by
    simp only [Tree.subterms, List.mem_append, List.mem_singleton] at hp
    rcases hp with hp | rfl
    · exact Nat.lt_trans (Telescope.sizeOf_subterm hp) (by simp +arith)
    · simp +arith
  | .branch ps children, outer, p, hp => by
    simp only [Tree.subterms, List.mem_append] at hp
    rcases hp with hp | hp
    · exact Nat.lt_trans (Telescope.sizeOf_subterm hp) (by simp +arith)
    · exact Nat.lt_trans (Tree.sizeOf_subtermOf hp) (by simp +arith)

theorem Tree.sizeOf_subtermOf : ∀ {children : List (BranchKey × Tree Term)}
    {outer : List Var} {p : Scoped Term}, p ∈ Tree.subtermsOf outer children →
    sizeOf p.2 < sizeOf children
  | [], _, _, hp => by simp [Tree.subtermsOf] at hp
  | (_, t) :: rest, outer, p, hp => by
    simp only [Tree.subtermsOf, List.mem_append] at hp
    rcases hp with hp | hp
    · exact Nat.lt_trans (Tree.sizeOf_subterm hp) (by simp +arith)
    · exact Nat.lt_trans (Tree.sizeOf_subtermOf hp) (by simp +arith)

end

theorem Elim.sizeOf_subterm {e : Elim Term} (hp : p ∈ e.subterms) : sizeOf p.2 < sizeOf e := by
  obtain ⟨stamp, clauses, tree⟩ := e
  simp only [Elim.subterms, List.mem_append, List.mem_flatMap] at hp
  rcases hp with ⟨c, hc, hp⟩ | ⟨t, ht, hp⟩
  · have := List.sizeOf_lt_of_mem hc
    exact Nat.lt_trans (Clause.sizeOf_subterm hp) (Nat.lt_trans this (by simp +arith))
  · obtain rfl : tree = some t := by simpa using ht
    exact Nat.lt_trans (Tree.sizeOf_subterm hp) (by simp +arith)

theorem RecordType.sizeOf_subterm {r : RecordType Term} (hp : p ∈ r.subterms) :
    sizeOf p.2 < sizeOf r := by
  obtain ⟨record, sortArg, impls, sort, universes, this⟩ := r
  obtain ⟨⟨f, t⟩, he, rfl⟩ := List.mem_map.mp hp
  have := List.sizeOf_lt_of_mem he
  simp only [Prod.mk.sizeOf_spec, RecordType.mk.sizeOf_spec] at this ⊢
  omega

theorem CaseOf.sizeOf_subterm {c : CaseOf Term} (hp : p ∈ c.subterms) : sizeOf p.2 < sizeOf c := by
  obtain ⟨strict, params, resultType, levelProof, elim, args⟩ := c
  simp only [CaseOf.subterms, List.mem_append, List.mem_flatMap, List.mem_map,
    List.mem_cons, Option.mem_toList] at hp
  rcases hp with ((hp | hp) | ⟨t, rfl | ht, rfl⟩) | ⟨e, he, hp⟩
  · exact Nat.lt_trans (sizeOf_unscoped hp) (by simp +arith)
  · exact Nat.lt_trans (Telescope.sizeOf_subterm hp) (by simp +arith)
  · simp +arith
  · subst ht
    exact Nat.lt_trans (sizeOf_some t) (by simp +arith)
  · subst he
    exact Nat.lt_trans (Elim.sizeOf_subterm hp) (by simp +arith)

/-- The subterms of a node are smaller than the node. -/
theorem Node.sizeOf_subterm {n : Node Term} (hp : p ∈ n.subterms) : sizeOf p.2 < sizeOf n := by
  cases n with
  | ref x | univ sort | int n | unknown v => exact absurd hp (by simp)
  | app t u | ofType t u =>
    have hp : p = ([], t) ∨ p = ([], u) := by simpa [unscoped] using hp
    rcases hp with rfl | rfl <;> simp +arith
  | call f sortArg args => exact Nat.lt_trans (sizeOf_unscoped hp) (by simp +arith)
  | con c =>
    obtain ⟨con, sortArg, dataArgs, args⟩ := c
    rcases List.mem_append.mp hp with hp | hp
    · exact Nat.lt_trans (sizeOf_unscoped hp) (by simp +arith)
    · exact Nat.lt_trans (sizeOf_unscoped hp) (by simp +arith)
  | data d =>
    obtain ⟨data, sortArg, args⟩ := d
    exact Nat.lt_trans (sizeOf_unscoped hp) (by simp +arith)
  | record r => exact Nat.lt_trans (RecordType.sizeOf_subterm hp) (by simp +arith)
  | lam sort ps body | pi sort ps body =>
    rcases List.mem_append.mp hp with hp | hp
    · exact Nat.lt_trans (Telescope.sizeOf_subterm hp) (by simp +arith)
    · obtain rfl := List.mem_singleton.mp hp
      simp +arith
  | sigma s =>
    obtain ⟨sort, ps⟩ := s
    exact Nat.lt_trans (Telescope.sizeOf_subterm hp) (by simp +arith)
  | tuple fields type =>
    obtain ⟨stamp, sort, ps⟩ := type
    rcases List.mem_append.mp hp with hp | hp
    · exact Nat.lt_trans (sizeOf_unscoped hp) (by simp +arith)
    · exact Nat.lt_trans (Telescope.sizeOf_subterm hp) (by simp +arith)
  | field f sortArg t | proj t index | delayed t exprs levels =>
    obtain rfl : p = ([], t) := by simpa [unscoped] using hp
    simp +arith
  | new renewed type =>
    obtain ⟨stamp, r⟩ := type
    rcases List.mem_append.mp hp with hp | hp
    · exact Nat.lt_trans (sizeOf_optional hp) (by simp +arith)
    · exact Nat.lt_trans (RecordType.sizeOf_subterm hp) (by simp +arith)
  | letIn strict xs body =>
    obtain rfl := List.mem_singleton.mp hp
    simp +arith
  | case c => exact Nat.lt_trans (CaseOf.sizeOf_subterm hp) (by simp +arith)
  | hole goal part => exact Nat.lt_trans (sizeOf_optional hp) (by simp +arith)

end Sizes

/-! ## The nameless reading -/

/-- A term up to the names of bound variables. -/
inductive Nameless where
  /-- A bound variable, by its distance from the innermost binder. -/
  | bound (index : Nat)
  | free (x : Var)
  | node (shape : Shape) (parts : List Nameless)

/-- The reading of a term in a scope, which lists the innermost variable first. -/
def Term.nameless (scope : List Var) : Term → Nameless
  | .mk _ (.ref x) =>
    match scope.idxOf? x with
    | some index => .bound index
    | none => .free x
  | .mk _ n => .node n.erase (n.subterms.attach.map fun p => p.1.2.nameless (p.1.1 ++ scope))
termination_by t => sizeOf t
decreasing_by
  have := Node.sizeOf_subterm p.2
  simp only [Term.mk.sizeOf_spec]
  omega

/-- The readings of subterms in a scope. -/
def readAll (scope : List Var) (ps : List (Scoped Term)) : List Nameless :=
  ps.map fun p => p.2.nameless (p.1 ++ scope)

/-- The reading of a node in a scope. -/
def Node.read (scope : List Var) (n : Node Term) : Nameless :=
  .node n.erase (readAll scope n.subterms)

section Readings

variable {scope : List Var}
variable {stamp : Nat}

theorem Term.nameless_ref {x : Var} :
    (Term.mk stamp (.ref x)).nameless scope =
      match scope.idxOf? x with
      | some index => .bound index
      | none => .free x := by
  rw [Term.nameless]

theorem Term.nameless_node {n : Node Term} (hn : ∀ x, n ≠ .ref x) :
    (Term.mk stamp n).nameless scope = n.read scope := by
  rw [Term.nameless, Node.read, readAll]
  · congr 1
    exact List.attach_map_val (f := fun p : Scoped Term => p.2.nameless (p.1 ++ scope))
  · exact fun x => hn x

@[simp] theorem readAll_cons (p : Scoped Term) (ps : List (Scoped Term)) :
    readAll scope (p :: ps) = p.2.nameless (p.1 ++ scope) :: readAll scope ps := rfl

@[simp] theorem readAll_append (ps qs : List (Scoped Term)) :
    readAll scope (ps ++ qs) = readAll scope ps ++ readAll scope qs := by
  simp [readAll]

theorem readAll_inScopeOf (outer : List Var) (ps : List (Scoped Term)) :
    readAll scope (inScopeOf outer ps) = readAll (outer ++ scope) ps := by
  simp [readAll, inScopeOf]

@[simp] theorem readAll_unscoped (ts : List Term) :
    readAll scope (unscoped ts) = ts.map (Term.nameless scope) := by
  simp [readAll, unscoped]

end Readings

end Recheck
