import Recheck.Proofs.Coupling
import Recheck.Equations
import Recheck.Substitution

/-!
# Recheck — terms that differ in their numbers

Serial numbers and stamps come from a counter, and nothing that the library computes should
depend on where the counter stands. To say so, two runs that began with different counters
are set side by side. A `Pairing` says which numbers of the one run correspond to which
numbers of the other, and `Term.Like` that two terms are the same up to this correspondence.

Let clauses, unknowns and delayed substitutions lead into the store, where different runs have
different entries. Terms that mention any of these are like no others.
-/

theorem Option.Rel.imp {A B : Type} {R S : A → B → Prop} (h : ∀ a b, R a b → S a b)
    {o : Option A} {o' : Option B} (ho : Option.Rel R o o') : Option.Rel S o o' := by
  cases ho with
  | some ho => exact .some (h _ _ ho)
  | none => exact .none

theorem Option.Rel.isSome_eq {A B : Type} {R : A → B → Prop} {o : Option A} {o' : Option B}
    (h : Option.Rel R o o') : o.isSome = o'.isSome := by
  cases h <;> rfl

namespace Recheck

open List (Forall₂)

/-- A correspondence between the numbers of two runs, one to one for each use of numbers. -/
structure Pairing where
  /-- The states in which the two runs began. -/
  left : SolverState
  right : SolverState
  /-- The serial numbers of the variables of a kind. -/
  var : VarKind → Nat → Nat → Prop
  stamp : Nat → Nat → Prop
  var_kind {kind : VarKind} {n n' : Nat} (h : var kind n n') : kind = .param ∨ kind = .given
  var_unique (kind : VarKind) : Relator.BiUnique (var kind)
  stamp_unique : Relator.BiUnique stamp
  /-- The numbers that the two runs hand out correspond in order. -/
  var_fresh (kind : VarKind) (hkind : kind = .param ∨ kind = .given) (k : Nat) :
    var kind (left.store.next + k) (right.store.next + k)
  stamp_fresh (k : Nat) : stamp (left.store.next + k) (right.store.next + k)

/-- What corresponds by the one pairing corresponds by the other. -/
structure Pairing.Le (β β' : Pairing) : Prop where
  var : ∀ kind n n', β.var kind n n' → β'.var kind n n'
  stamp : ∀ n n', β.stamp n n' → β'.stamp n n'

theorem Pairing.Le.refl (β : Pairing) : β.Le β := ⟨fun _ _ _ h => h, fun _ _ h => h⟩

/-! ## Variables -/

/-- The variables correspond: they are of one kind and printed alike. -/
inductive Var.Paired (β : Pairing) : Var → Var → Prop where
  | mk {n n' : Nat} {kind : VarKind} {name : String} (h : β.var kind n n') :
      Paired β ⟨n, kind, name⟩ ⟨n', kind, name⟩

/-- What can be replaced corresponds; the names of declarations are no numbers of a run. -/
inductive Variable.Paired (β : Pairing) : Variable → Variable → Prop where
  | local {x x' : Var} (h : x.Paired β x') : Paired β (.local x) (.local x')
  | field (f : FieldName) : Paired β (.field f) (.field f)
  | func (f : FuncName) : Paired β (.func f) (.func f)
  | data (d : DataName) : Paired β (.data d) (.data d)
  | con (c : ConName) : Paired β (.con c) (.con c)
  | record (r : RecordName) : Paired β (.record r) (.record r)

section Variables

variable {β : Pairing} {x x' y y' : Var} {v v' w w' : Variable}

theorem Var.Paired.kind (h : x.Paired β x') : x.kind = x'.kind := by cases h; rfl

theorem Var.Paired.name (h : x.Paired β x') : x.name = x'.name := by cases h; rfl

theorem Var.Paired.serial (h : x.Paired β x') : β.var x.kind x.serial x'.serial := by
  cases h with
  | mk h => exact h

theorem Var.Paired.ne_clause (h : x.Paired β x') : x.kind ≠ .clause := by
  intro hkind
  have hvar := β.var_kind h.serial
  simp [hkind] at hvar

theorem Var.paired_unique (β : Pairing) : Relator.BiUnique (Var.Paired β) := by
  refine ⟨?_, ?_⟩
  · rintro _ _ _ ⟨hx⟩ ⟨hy⟩
    obtain rfl := (β.var_unique _).1 hx hy
    rfl
  · rintro _ _ _ ⟨hx⟩ ⟨hy⟩
    obtain rfl := (β.var_unique _).2 hx hy
    rfl

/-- Corresponding variables are told apart alike. -/
theorem Var.Paired.eq_iff (hx : x.Paired β x') (hy : y.Paired β y') : x = y ↔ x' = y' :=
  Relator.rel_eq (Var.paired_unique β) hx hy

theorem Variable.paired_unique (β : Pairing) : Relator.BiUnique (Variable.Paired β) := by
  refine ⟨?_, ?_⟩
  · intro v w u hv hw
    cases hv with
    | «local» hv =>
      cases hw with
      | «local» hw => rw [(Var.paired_unique β).1 hv hw]
    | field f | func f | data d | con c | record r => cases hw; rfl
  · intro u v w hv hw
    cases hv with
    | «local» hv =>
      cases hw with
      | «local» hw => rw [(Var.paired_unique β).2 hv hw]
    | field f | func f | data d | con c | record r => cases hw; rfl

theorem Variable.Paired.eq_iff (hv : v.Paired β v') (hw : w.Paired β w') : v = w ↔ v' = w' :=
  Relator.rel_eq (Variable.paired_unique β) hv hw

end Variables

/-! ## Binding structure -/

section Structure

variable {T : Type} (β : Pairing) (R : T → T → Prop)

abbrev Param.Paired : Param T → Param T → Prop := Param.Rel (Var.Paired β) R

abbrev Telescope.Paired : Telescope T → Telescope T → Prop := Telescope.Rel (Var.Paired β) R

abbrev Pattern.Paired : Pattern T → Pattern T → Prop := Pattern.Rel (Var.Paired β) R

abbrev Tree.Paired : Tree T → Tree T → Prop := Tree.Rel (Var.Paired β) R

abbrev Tree.AllPaired : List (BranchKey × Tree T) → List (BranchKey × Tree T) → Prop :=
  Tree.RelAll (Var.Paired β) R

abbrev Clause.Paired : Clause T → Clause T → Prop := Clause.Rel (Var.Paired β) R

inductive Column.Paired : Column T → Column T → Prop where
  | mk {p p' : Param T} {type type' : Option T} (hp : p.Paired β R p')
      (htype : Option.Rel R type type') : Paired ⟨p, type⟩ ⟨p', type'⟩

inductive Elim.Paired : Elim T → Elim T → Prop where
  | mk {n n' : Nat} {clauses clauses' : List (Clause T)} {tree tree' : Option (Tree T)}
      (hstamp : β.stamp n n') (hclauses : Forall₂ (Clause.Paired β R) clauses clauses')
      (htree : Option.Rel (Tree.Paired β R) tree tree') :
      Paired ⟨n, clauses, tree⟩ ⟨n', clauses', tree'⟩

inductive RecordType.Paired : RecordType T → RecordType T → Prop where
  | mk {record : RecordName} {sortArg : USort} {impls impls' : List (FieldName × T)}
      {sort : USort} {universes : UniverseKind} {this this' : Var}
      (himpls : Forall₂ (fun e e' => e.1 = e'.1 ∧ R e.2 e'.2) impls impls')
      (hthis : this.Paired β this') :
      Paired ⟨record, sortArg, impls, sort, universes, this⟩
        ⟨record, sortArg, impls', sort, universes, this'⟩

inductive CaseOf.Paired : CaseOf T → CaseOf T → Prop where
  | mk {strict : Bool} {ps ps' : Telescope T} {result result' : T} {proof proof' : Option T}
      {elim elim' : Option (Elim T)} {args args' : List T} (hps : Telescope.Paired β R ps ps')
      (hresult : R result result') (hproof : Option.Rel R proof proof')
      (helim : Option.Rel (Elim.Paired β R) elim elim') (hargs : Forall₂ R args args') :
      Paired ⟨strict, ps, result, proof, elim, args⟩ ⟨strict, ps', result', proof', elim', args'⟩

/-- The mappings correspond, entry by entry. -/
def Mapping.Paired (m m' : Mapping T) : Prop :=
  Forall₂ (fun e e' => e.1.Paired β e'.1 ∧ R e.2 e'.2) m.entries m'.entries

/-- The nodes correspond. -/
inductive Node.Paired : Node T → Node T → Prop where
  | ref {x x' : Var} (hx : x.Paired β x') : Paired (.ref x) (.ref x')
  | app {fn fn' arg arg' : T} (hfn : R fn fn') (harg : R arg arg') :
      Paired (.app fn arg) (.app fn' arg')
  | call (f : FuncName) (sort : USort) {args args' : List T} (hargs : Forall₂ R args args') :
      Paired (.call f sort args) (.call f sort args')
  | con (c : ConName) (sort : USort) {dataArgs dataArgs' args args' : List T}
      (hdata : Forall₂ R dataArgs dataArgs') (hargs : Forall₂ R args args') :
      Paired (.con ⟨c, sort, dataArgs, args⟩) (.con ⟨c, sort, dataArgs', args'⟩)
  | data (d : DataName) (sort : USort) {args args' : List T} (hargs : Forall₂ R args args') :
      Paired (.data ⟨d, sort, args⟩) (.data ⟨d, sort, args'⟩)
  | field (f : FieldName) (sort : USort) {arg arg' : T} (harg : R arg arg') :
      Paired (.field f sort arg) (.field f sort arg')
  | record {r r' : RecordType T} (hr : r.Paired β R r') :
      Paired (.record r) (.record r')
  | lam (sort : USort) {ps ps' : Telescope T} {body body' : T}
      (hps : Telescope.Paired β R ps ps') (hbody : R body body') :
      Paired (.lam sort ps body) (.lam sort ps' body')
  | pi (sort : USort) {ps ps' : Telescope T} {codomain codomain' : T}
      (hps : Telescope.Paired β R ps ps') (hcodomain : R codomain codomain') :
      Paired (.pi sort ps codomain) (.pi sort ps' codomain')
  | sigma (sort : USort) {ps ps' : Telescope T} (hps : Telescope.Paired β R ps ps') :
      Paired (.sigma ⟨sort, ps⟩) (.sigma ⟨sort, ps'⟩)
  | tuple {fields fields' : List T} {n n' : Nat} (sort : USort) {ps ps' : Telescope T}
      (hfields : Forall₂ R fields fields') (hn : β.stamp n n')
      (hps : Telescope.Paired β R ps ps') :
      Paired (.tuple fields ⟨n, ⟨sort, ps⟩⟩) (.tuple fields' ⟨n', ⟨sort, ps'⟩⟩)
  | proj {t t' : T} (ht : R t t') (index : Int64) :
      Paired (.proj t index) (.proj t' index)
  | univ (sort : USort) : Paired (.univ sort) (.univ sort)
  | new {renewed renewed' : Option T} {n n' : Nat} {r r' : RecordType T}
      (hrenewed : Option.Rel R renewed renewed') (hn : β.stamp n n') (hr : r.Paired β R r') :
      Paired (.new renewed ⟨n, r⟩) (.new renewed' ⟨n', r'⟩)
  | case {c c' : CaseOf T} (hc : c.Paired β R c') : Paired (.case c) (.case c')
  | ofType {t t' type type' : T} (ht : R t t') (htype : R type type') :
      Paired (.ofType t type) (.ofType t' type')
  | int (n : Int) : Paired (.int n) (.int n)
  | hole (goal : Bool) {part part' : Option T} (hpart : Option.Rel R part part') :
      Paired (.hole goal part) (.hole goal part')

end Structure

section Mono

variable {T : Type} {β β' : Pairing} {R R' : T → T → Prop} (hβ : β.Le β')
  (hR : ∀ t t', R t t' → R' t t')

include hβ

theorem Var.Paired.mono {x x' : Var} (h : x.Paired β x') : x.Paired β' x' := by
  obtain ⟨h⟩ := h
  exact ⟨hβ.var _ _ _ h⟩

include hR

theorem Param.Paired.mono {p p' : Param T} (h : p.Paired β R p') : p.Paired β' R' p' := by
  obtain ⟨hx, htype⟩ := h
  exact ⟨hx.mono hβ, htype.imp hR⟩

theorem Telescope.Paired.mono {ps ps' : Telescope T} (h : Telescope.Paired β R ps ps') :
    Telescope.Paired β' R' ps ps' :=
  h.imp fun _ _ hp => Param.Paired.mono hβ hR hp

set_option linter.unusedSectionVars false in
mutual

theorem Pattern.Paired.mono : ∀ {p p' : Pattern T}, p.Paired β R p' → p.Paired β' R' p'
  | .bind .., _, .bind hx ht => .bind (hx.mono hβ) (hR _ _ ht)
  | .wild, _, .wild => .wild
  | .absurd, _, .absurd => .absurd
  | .con .., _, .con c h => .con c (Pattern.Paired.monoAll h)
  | .tuple _, _, .tuple h => .tuple (Pattern.Paired.monoAll h)
  | .record .., _, .record fields h => .record fields (Pattern.Paired.monoAll h)

theorem Pattern.Paired.monoAll : ∀ {ps ps' : List (Pattern T)},
    Forall₂ (Pattern.Paired β R) ps ps' → Forall₂ (Pattern.Paired β' R') ps ps'
  | [], _, .nil => .nil
  | _ :: _, _, .cons h hs => .cons (Pattern.Paired.mono h) (Pattern.Paired.monoAll hs)

end

set_option linter.unusedSectionVars false in
mutual

theorem Tree.Paired.mono : ∀ {t t' : Tree T}, t.Paired β R t' → t.Paired β' R' t'
  | .leaf .., _, .leaf hps hbody => .leaf (Telescope.Paired.mono hβ hR hps) (hR _ _ hbody)
  | .branch .., _, .branch hps hchildren =>
    .branch (Telescope.Paired.mono hβ hR hps) (Tree.AllPaired.mono hchildren)

theorem Tree.AllPaired.mono : ∀ {ts ts' : List (BranchKey × Tree T)},
    Tree.AllPaired β R ts ts' → Tree.AllPaired β' R' ts ts'
  | [], _, .nil => .nil
  | _ :: _, _, .cons key ht hrest => .cons key (Tree.Paired.mono ht) (Tree.AllPaired.mono hrest)

end

theorem Clause.Paired.mono {c c' : Clause T} (h : c.Paired β R c') : c.Paired β' R' c' := by
  obtain ⟨hps, hbody⟩ := h
  exact ⟨Pattern.Paired.monoAll hβ hR hps, hbody.imp hR⟩

theorem Elim.Paired.mono {e e' : Elim T} (h : e.Paired β R e') : e.Paired β' R' e' := by
  obtain ⟨hstamp, hclauses, htree⟩ := h
  exact ⟨hβ.stamp _ _ hstamp, hclauses.imp fun _ _ hc => hc.mono hβ hR,
    htree.imp fun _ _ ht => Tree.Paired.mono hβ hR ht⟩

theorem RecordType.Paired.mono {r r' : RecordType T} (h : r.Paired β R r') :
    r.Paired β' R' r' := by
  obtain ⟨himpls, hthis⟩ := h
  exact ⟨himpls.imp fun _ _ he => ⟨he.1, hR _ _ he.2⟩, hthis.mono hβ⟩

theorem CaseOf.Paired.mono {c c' : CaseOf T} (h : c.Paired β R c') : c.Paired β' R' c' := by
  obtain ⟨hps, hresult, hproof, helim, hargs⟩ := h
  exact ⟨Telescope.Paired.mono hβ hR hps, hR _ _ hresult, hproof.imp hR,
    helim.imp fun _ _ he => he.mono hβ hR, hargs.imp hR⟩

theorem Node.Paired.mono {n n' : Node T} (h : n.Paired β R n') : n.Paired β' R' n' := by
  cases h with
  | ref hx => exact .ref (hx.mono hβ)
  | app hfn harg => exact .app (hR _ _ hfn) (hR _ _ harg)
  | call f sort hargs => exact .call f sort (hargs.imp hR)
  | con c sort hdata hargs => exact .con c sort (hdata.imp hR) (hargs.imp hR)
  | data d sort hargs => exact .data d sort (hargs.imp hR)
  | field f sort harg => exact .field f sort (hR _ _ harg)
  | record hr => exact .record (hr.mono hβ hR)
  | lam sort hps hbody => exact .lam sort (Telescope.Paired.mono hβ hR hps) (hR _ _ hbody)
  | pi sort hps hcod => exact .pi sort (Telescope.Paired.mono hβ hR hps) (hR _ _ hcod)
  | sigma sort hps => exact .sigma sort (Telescope.Paired.mono hβ hR hps)
  | tuple sort hfields hn hps =>
    exact .tuple sort (hfields.imp hR) (hβ.stamp _ _ hn) (Telescope.Paired.mono hβ hR hps)
  | proj ht index => exact .proj (hR _ _ ht) index
  | univ sort => exact .univ sort
  | new hrenewed hn hr => exact .new (hrenewed.imp hR) (hβ.stamp _ _ hn) (hr.mono hβ hR)
  | case hc => exact .case (hc.mono hβ hR)
  | ofType ht htype => exact .ofType (hR _ _ ht) (hR _ _ htype)
  | int n => exact .int n
  | hole goal hpart => exact .hole goal (hpart.imp hR)

end Mono

/-! ## Terms -/

/-- The terms are the same up to the correspondence of numbers: they are related by some
relation that relates only nodes which correspond as far as it relates their parts. -/
def Term.Like (β : Pairing) (t t' : Term) : Prop :=
  ∃ R : Term → Term → Prop, R t t' ∧ ∀ u u', R u u' →
    β.stamp u.stamp u'.stamp ∧ u.node.Paired β R u'.node

/-! Data that correspond, with terms that are alike. -/

section Alike

variable (β : Pairing)

abbrev Term.AllLike := List.Forall₂ (Term.Like β)

abbrev Telescope.Like := Telescope.Paired β (Term.Like β)

abbrev Column.Like := Column.Paired β (Term.Like β)

abbrev Pattern.Like := Pattern.Paired β (Term.Like β)

abbrev Tree.Like := Tree.Paired β (Term.Like β)

abbrev Tree.AllLike := Tree.AllPaired β (Term.Like β)

abbrev Clause.Like := Clause.Paired β (Term.Like β)

abbrev Elim.Like := Elim.Paired β (Term.Like β)

abbrev RecordType.Like := RecordType.Paired β (Term.Like β)

abbrev CaseOf.Like := CaseOf.Paired β (Term.Like β)

abbrev Mapping.Like := Mapping.Paired β (Term.Like β)

abbrev Node.Like := Node.Paired β (Term.Like β)

end Alike

namespace Term.Like

variable {β : Pairing} {t t' u u' : Term}

theorem stamp (h : t.Like β t') : β.stamp t.stamp t'.stamp := by
  obtain ⟨R, ht, hR⟩ := h
  exact (hR _ _ ht).1

theorem node (h : t.Like β t') :
    t.node.Like β t'.node := by
  obtain ⟨R, ht, hR⟩ := h
  exact (hR _ _ ht).2.mono (.refl β) fun u u' hu => ⟨R, hu, hR⟩

theorem intro {n n' : Nat} {node node' : Node Term} (hstamp : β.stamp n n')
    (hnode : node.Like β node') :
    (Term.mk n node).Like β (.mk n' node') := by
  -- The relation of being alike is enlarged by the new pair, which keeps it one of those.
  refine ⟨fun u u' => u.Like β u' ∨ (u = .mk n node ∧ u' = .mk n' node'), .inr ⟨rfl, rfl⟩, ?_⟩
  rintro u u' (hu | ⟨rfl, rfl⟩)
  · exact ⟨hu.stamp, hu.node.mono (.refl β) fun _ _ h => .inl h⟩
  · exact ⟨hstamp, hnode.mono (.refl β) fun _ _ h => .inl h⟩

/-- Terms that are alike, taken apart. -/
inductive Opened (β : Pairing) : Term → Term → Prop where
  | mk {n n' : Nat} {node node' : Node Term} (hstamp : β.stamp n n') (hnode : node.Like β node') :
      Opened β (.mk n node) (.mk n' node')

theorem destruct (h : t.Like β t') : Opened β t t' := by
  obtain ⟨n, node⟩ := t
  obtain ⟨n', node'⟩ := t'
  exact .mk h.stamp h.node

theorem mono {β' : Pairing} (hβ : β.Le β') (h : t.Like β t') : t.Like β' t' :=
  ⟨Term.Like β, h, fun _ _ hu => ⟨hβ.stamp _ _ hu.stamp, hu.node.mono hβ fun _ _ h => h⟩⟩

theorem same_iff (ht : t.Like β t') (hu : u.Like β u') : t.same u ↔ t'.same u' := by
  simpa [Term.same] using Relator.rel_eq β.stamp_unique ht.stamp hu.stamp

end Term.Like

end Recheck
