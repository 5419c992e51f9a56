import Recheck.Proofs.Indexed

/-!
# Recheck — contraction of indexed terms

`Indexed.inst` puts indexed terms in place of all variables at once and does nothing else:
redexes that come about stay. `Indexed.Contracts` is the relation that contracts them, any
number of them and anywhere. Together they say what `Indexed.Subst` says in one go, but
they say it in a way that composes: instances of instances are instances
(`Indexed.inst_inst`), and instances of terms that contract do so too
(`Indexed.Contracts.inst`).

The second is one case of a general fact. Contraction looks at the form of terms, not at
their levels or at their variables, so it is stable under everything that acts on terms
node by node (`Indexed.Acts`).
-/

namespace Recheck

/-! ## The sorts of a shape -/

/-- The sorts that a branch mentions. -/
def BranchKey.sorts : BranchKey → List USort
  | .record _ sort _ => [sort]
  | _ => []

mutual

def Tree.sorts {T : Type} : Tree T → List USort
  | .leaf _ _ => []
  | .branch _ children => Tree.allSorts children

/-- The sorts of the children of a branch. -/
def Tree.allSorts {T : Type} : List (BranchKey × Tree T) → List USort
  | [] => []
  | (key, t) :: rest => key.sorts ++ (t.sorts ++ Tree.allSorts rest)

end

/-- The sorts of a node, its subterms apart. -/
def Node.sorts {T : Type} : Node T → List USort
  | .call _ sort _ | .field _ sort _ | .lam sort _ _ | .pi sort _ _ | .univ sort => [sort]
  | .con c => [c.sortArg]
  | .data d => [d.sortArg]
  | .record r => [r.sortArg, r.sort]
  | .sigma s => [s.sort]
  | .tuple _ type => [type.val.sort]
  | .new _ type => [type.val.sortArg, type.val.sort]
  | .case c => c.elim.toList.flatMap fun e => e.tree.toList.flatMap Tree.sorts
  | _ => []

section Sorts

variable {T : Type} {f g k : USort → USort}

mutual

/-- Two changes of sorts are one, by what they do to the sorts that there are. -/
theorem Tree.mapSorts_trans : ∀ {t : Tree T}, (∀ s ∈ t.sorts, f (g s) = k s) →
    (t.mapSorts g).mapSorts f = t.mapSorts k
  | .leaf ps body, _ => rfl
  | .branch ps children, h => by
    rw [Tree.mapSorts, Tree.mapSorts, Tree.mapAllSorts_trans h, Tree.mapSorts]

theorem Tree.mapAllSorts_trans : ∀ {children : List (BranchKey × Tree T)},
    (∀ s ∈ Tree.allSorts children, f (g s) = k s) →
    Tree.mapAllSorts f (Tree.mapAllSorts g children) = Tree.mapAllSorts k children
  | [], _ => rfl
  | (key, t) :: rest, h => by
    simp only [Tree.allSorts, List.mem_append] at h
    have hkey : (key.mapSorts g).mapSorts f = key.mapSorts k := by
      cases key with
      | record r sort implemented =>
        rw [BranchKey.mapSorts, BranchKey.mapSorts, BranchKey.mapSorts,
          h sort (.inl (.head _))]
      | _ => rfl
    rw [Tree.mapAllSorts, Tree.mapAllSorts, Tree.mapAllSorts, hkey,
      Tree.mapSorts_trans fun s hs => h s (.inr (.inl hs)),
      Tree.mapAllSorts_trans fun s hs => h s (.inr (.inr hs))]

end

theorem Node.mapSorts_trans {n : Node T} (h : ∀ s ∈ n.sorts, f (g s) = k s) :
    (n.mapSorts g).mapSorts f = n.mapSorts k := by
  cases n with
  | case c =>
    obtain ⟨strict, params, resultType, levelProof, elim, args⟩ := c
    cases elim with
    | none => rfl
    | some e =>
      obtain ⟨stamp, clauses, tree⟩ := e
      cases tree with
      | none => rfl
      | some t =>
        have ht : (t.mapSorts g).mapSorts f = t.mapSorts k :=
          Tree.mapSorts_trans fun s hs => h s (by simpa [Node.sorts] using hs)
        simp [Node.mapSorts, Elim.mapSorts, ht]
  | call | con | data | field | record | lam | pi | sigma | tuple | univ | new =>
    simp only [Node.sorts, List.mem_cons, List.not_mem_nil, or_false, forall_eq_or_imp,
      forall_eq] at h
    simp only [Node.mapSorts, RecordType.mapSorts, SigmaType.mapSorts, h]
  | _ => rfl

mutual

theorem Tree.mapSorts_id : ∀ t : Tree T, t.mapSorts id = t
  | .leaf ps body => rfl
  | .branch ps children => by rw [Tree.mapSorts, Tree.mapAllSorts_id]

theorem Tree.mapAllSorts_id : ∀ children : List (BranchKey × Tree T),
    Tree.mapAllSorts id children = children
  | [] => rfl
  | (key, t) :: rest => by
    have hkey : key.mapSorts id = key := by cases key <;> rfl
    rw [Tree.mapAllSorts, hkey, Tree.mapSorts_id, Tree.mapAllSorts_id]

end

theorem Node.mapSorts_id (n : Node T) : n.mapSorts id = n := by
  cases n with
  | case c =>
    have helim : Elim.mapSorts (T := T) id = id := by
      funext e
      rw [Elim.mapSorts, show Tree.mapSorts (T := T) id = id from funext Tree.mapSorts_id,
        Option.map_id_apply, id]
    rw [Node.mapSorts, helim, Option.map_id_apply]
  | _ => rfl

mutual

theorem Tree.sorts_mapSorts : ∀ t : Tree T, (t.mapSorts f).sorts = t.sorts.map f
  | .leaf ps body => rfl
  | .branch ps children => by
    rw [Tree.mapSorts, Tree.sorts, Tree.allSorts_mapSorts, Tree.sorts]

theorem Tree.allSorts_mapSorts : ∀ children : List (BranchKey × Tree T),
    Tree.allSorts (Tree.mapAllSorts f children) = (Tree.allSorts children).map f
  | [] => rfl
  | (key, t) :: rest => by
    have hkey : (key.mapSorts f).sorts = key.sorts.map f := by cases key <;> rfl
    rw [Tree.mapAllSorts, Tree.allSorts, hkey, Tree.sorts_mapSorts, Tree.allSorts_mapSorts,
      Tree.allSorts, List.map_append, List.map_append]

end

theorem Node.sorts_mapSorts (n : Node T) : (n.mapSorts f).sorts = n.sorts.map f := by
  cases n with
  | case c =>
    obtain ⟨strict, params, resultType, levelProof, elim, args⟩ := c
    cases elim with
    | none => rfl
    | some e =>
      obtain ⟨stamp, clauses, tree⟩ := e
      cases tree with
      | none => rfl
      | some t => simpa [Node.mapSorts, Elim.mapSorts, Node.sorts] using Tree.sorts_mapSorts t
  | _ => rfl

end Sorts

namespace Indexed

variable {n n' : Indexed}

/-- Induction on indexed terms, with all parts of a node at once. -/
theorem parts_induction {P : Indexed → Prop} (bound : ∀ i, P (.bound i)) (free : ∀ x, P (.free x))
    (abs : ∀ n, P n → P (.abs n)) (node : ∀ head ns, (∀ n ∈ ns, P n) → P (.node head ns)) :
    ∀ n, P n
  | .bound i => bound i
  | .free x => free x
  | .abs n => abs n (parts_induction bound free abs node n)
  | .node head ns => node head ns fun n _ => parts_induction bound free abs node n

/-! ## Renaming -/

/-- The renaming of bound variables under one more binder. -/
def up (ξ : Nat → Nat) : Nat → Nat
  | 0 => 0
  | i + 1 => ξ i + 1

mutual

/-- The term with its bound variables renumbered. -/
def rename (ξ : Nat → Nat) : Indexed → Indexed
  | .bound i => .bound (ξ i)
  | .free x => .free x
  | .abs body => .abs (body.rename (up ξ))
  | .node head parts => .node head (renameAll ξ parts)

/-- The terms of a list with their bound variables renumbered. -/
def renameAll (ξ : Nat → Nat) : List Indexed → List Indexed
  | [] => []
  | n :: ns => n.rename ξ :: renameAll ξ ns

end

theorem renameAll_eq_map (ξ : Nat → Nat) (ns : List Indexed) :
    renameAll ξ ns = ns.map (rename ξ) := by
  induction ns with
  | nil => rfl
  | cons n ns ih => rw [renameAll, ih, List.map_cons]

theorem rename_node (ξ : Nat → Nat) (head : Head) (ns : List Indexed) :
    (node head ns).rename ξ = node head (ns.map (rename ξ)) := by
  rw [rename, renameAll_eq_map]

theorem up_comp (ξ ζ : Nat → Nat) : up ζ ∘ up ξ = up (ζ ∘ ξ) := by
  funext i
  cases i <;> rfl

theorem rename_rename (ξ ζ : Nat → Nat) (n : Indexed) :
    (n.rename ξ).rename ζ = n.rename (ζ ∘ ξ) := by
  induction n using parts_induction generalizing ξ ζ with
  | bound i => rfl
  | free x => rfl
  | abs n ih => rw [rename, rename, ih, up_comp, rename]
  | node head ns ih =>
    rw [rename_node, rename_node, rename_node, List.map_map]
    exact congrArg _ (List.map_congr_left fun n hn => ih n hn ξ ζ)

/-! ## Instances -/

/-- What is put in place of the bound and of the free variables of a term. -/
structure Values where
  bound : Nat → Indexed
  free : Var → Indexed

namespace Values

variable {ns : List Indexed}

/-- Every variable is left as it is. -/
protected def id : Values := ⟨.bound, .free⟩

/-- The values under one more binder. -/
def lift (ρ : Values) : Values where
  bound i := match i with
    | 0 => .bound 0
    | i + 1 => (ρ.bound i).rename Nat.succ
  free x := (ρ.free x).rename Nat.succ

/-- Values for the innermost bound variables, in front of others. -/
def push (ns : List Indexed) (ρ : Values) : Values where
  bound i := ns.getD i (ρ.bound (i - ns.length))
  free := ρ.free

/-- Values for the innermost bound variables, whose binders are gone. -/
def front (ns : List Indexed) : Values := push ns .id

/-- A value for the innermost bound variable. -/
def single (n : Indexed) : Values := front [n]

theorem push_bound_of_getElem? {i : Nat} (h : ns[i]? = some n) (ρ : Values) :
    (push ns ρ).bound i = n := by
  simp [push, List.getD_eq_getElem?_getD, h]

theorem push_bound_add {k : Nat} (h : ns.length = k) (ρ : Values) (i : Nat) :
    (push ns ρ).bound (i + k) = ρ.bound i := by
  simp [push, ← h]

end Values

mutual

/-- The instance of the term at the values. -/
def inst (ρ : Values) : Indexed → Indexed
  | .bound i => ρ.bound i
  | .free x => ρ.free x
  | .abs body => .abs (body.inst ρ.lift)
  | .node head parts => .node head (instAll ρ parts)

/-- The instances of the terms of a list. -/
def instAll (ρ : Values) : List Indexed → List Indexed
  | [] => []
  | n :: ns => n.inst ρ :: instAll ρ ns

end

variable (ρ : Values)

theorem instAll_eq_map (ns : List Indexed) : instAll ρ ns = ns.map (inst ρ) := by
  induction ns with
  | nil => rfl
  | cons n ns ih => rw [instAll, ih, List.map_cons]

theorem inst_node (head : Head) (ns : List Indexed) :
    (node head ns).inst ρ = node head (ns.map (inst ρ)) := by
  rw [inst, instAll_eq_map]

theorem Values.lift_id : Values.id.lift = Values.id := by
  have hbound : Values.id.lift.bound = .bound := by
    funext i
    cases i <;> rfl
  exact congrArg (Values.mk · _) hbound

theorem inst_id (n : Indexed) : n.inst .id = n := by
  induction n using parts_induction with
  | bound i => rfl
  | free x => rfl
  | abs n ih => rw [inst, Values.lift_id, ih]
  | node head ns ih =>
    rw [inst_node, List.map_congr_left ih, List.map_id']

/-- Renumbering the variables first. -/
def Values.renamed (ρ : Values) (ξ : Nat → Nat) : Values := ⟨ρ.bound ∘ ξ, ρ.free⟩

/-- Renumbering the variables of the values. -/
def Values.rename (ρ : Values) (ξ : Nat → Nat) : Values :=
  ⟨fun i => (ρ.bound i).rename ξ, fun x => (ρ.free x).rename ξ⟩

/-- The values that act like the first ones and then like the second ones. -/
def Values.andThen (ρ θ : Values) : Values :=
  ⟨fun i => (ρ.bound i).inst θ, fun x => (ρ.free x).inst θ⟩

variable (ξ : Nat → Nat)

theorem Values.renamed_lift : ρ.lift.renamed (up ξ) = (ρ.renamed ξ).lift := by
  have hbound : ρ.lift.bound ∘ up ξ = (ρ.renamed ξ).lift.bound := by
    funext i
    cases i <;> rfl
  exact congrArg (Values.mk · _) hbound

theorem inst_rename (n : Indexed) : (n.rename ξ).inst ρ = n.inst (ρ.renamed ξ) := by
  induction n using parts_induction generalizing ρ ξ with
  | bound i => rfl
  | free x => rfl
  | abs n ih => rw [Indexed.rename, inst, ih, Values.renamed_lift, inst]
  | node head ns ih =>
    rw [rename_node, inst_node, inst_node, List.map_map]
    exact congrArg _ (List.map_congr_left fun n hn => ih n hn ρ ξ)

theorem rename_succ_up (n : Indexed) :
    (n.rename Nat.succ).rename (up ξ) = (n.rename ξ).rename Nat.succ := by
  rw [rename_rename, rename_rename]
  exact congrArg (n.rename ·) rfl

theorem Values.rename_lift : ρ.lift.rename (up ξ) = (ρ.rename ξ).lift := by
  have hbound : (ρ.lift.rename (up ξ)).bound = (ρ.rename ξ).lift.bound := by
    funext i
    cases i with
    | zero => rfl
    | succ i => exact rename_succ_up ξ (ρ.bound i)
  have hfree : (ρ.lift.rename (up ξ)).free = (ρ.rename ξ).lift.free :=
    funext fun x => rename_succ_up ξ (ρ.free x)
  exact congrArg₂ Values.mk hbound hfree

theorem rename_inst (n : Indexed) : (n.inst ρ).rename ξ = n.inst (ρ.rename ξ) := by
  induction n using parts_induction generalizing ρ ξ with
  | bound i => rfl
  | free x => rfl
  | abs n ih => rw [inst, Indexed.rename, ih, Values.rename_lift, inst]
  | node head ns ih =>
    rw [inst_node, rename_node, inst_node, List.map_map]
    exact congrArg _ (List.map_congr_left fun n hn => ih n hn ρ ξ)

theorem inst_succ_lift (θ : Values) (n : Indexed) :
    (n.rename Nat.succ).inst θ.lift = (n.inst θ).rename Nat.succ := by
  rw [inst_rename, rename_inst]
  rfl

theorem Values.andThen_lift (θ : Values) : ρ.lift.andThen θ.lift = (ρ.andThen θ).lift := by
  have hbound : (ρ.lift.andThen θ.lift).bound = (ρ.andThen θ).lift.bound := by
    funext i
    cases i with
    | zero => rfl
    | succ i => exact inst_succ_lift θ (ρ.bound i)
  have hfree : (ρ.lift.andThen θ.lift).free = (ρ.andThen θ).lift.free :=
    funext fun x => inst_succ_lift θ (ρ.free x)
  exact congrArg₂ Values.mk hbound hfree

/-- An instance of an instance is an instance. -/
theorem inst_inst (θ : Values) (n : Indexed) : (n.inst ρ).inst θ = n.inst (ρ.andThen θ) := by
  induction n using parts_induction generalizing ρ θ with
  | bound i => rfl
  | free x => rfl
  | abs n ih => rw [inst, inst, ih, Values.andThen_lift, inst]
  | node head ns ih =>
    rw [inst_node, inst_node, inst_node, List.map_map]
    exact congrArg _ (List.map_congr_left fun n hn => ih n hn ρ θ)

/-! ## Contraction -/

/-- The implementation of a field of a record value, in scope of the instance. -/
def implementation? (f : FieldName) : Indexed → Option Indexed
  | .node (.form (.new _ type)) parts => ((type.val.impls.map Prod.fst).zip parts).lookup f
  | _ => none

/-- The node is a redex, and contracts to the term: it is the application of a function, the
projection of a tuple or the projection of a field of a record value. -/
inductive Root : Indexed → Indexed → Prop where
  /-- The application of a function of one parameter. -/
  | beta {a b : Indexed} {sort : USort} {p : Param Unit} {parts : List Indexed}
      (h : parts.drop p.type.toList.length = [.abs b]) :
      Root (.node (.form (.app () ())) [.node (.form (.lam sort [p] ())) parts, a])
        (b.inst (.single a))
  /-- The application of a function of more parameters, of which all but the first are
  left. -/
  | betaRest {a : Indexed} {sort : USort} {p q : Param Unit} {ps : List (Param Unit)}
      {parts bs : List Indexed} (h : parts.drop p.type.toList.length = bs.map .abs) :
      Root (.node (.form (.app () ())) [.node (.form (.lam sort (p :: q :: ps) ())) parts, a])
        (.node (.form (.lam sort (q :: ps) ())) (bs.map (inst (.single a))))
  | component {t u : Indexed} {index : Int64} (h : t.component? index = some u) :
      Root (.node (.form (.proj () index)) [t]) u
  | impl {t b : Indexed} {f : FieldName} {sort : USort}
      (h : t.implementation? f = some (.abs b)) :
      Root (.node (.form (.field f sort ())) [t]) (b.inst (.single t))

/-- The first term becomes the second one by contracting redexes in it. -/
inductive Contracts : Indexed → Indexed → Prop where
  | refl (n : Indexed) : Contracts n n
  | trans {n m k : Indexed} (h : Contracts n m) (h' : Contracts m k) : Contracts n k
  | abs {n n' : Indexed} (h : Contracts n n') : Contracts (.abs n) (.abs n')
  | part {head : Head} {before after : List Indexed} {n n' : Indexed} (h : Contracts n n') :
      Contracts (.node head (before ++ n :: after)) (.node head (before ++ n' :: after))
  | root {n m : Indexed} (h : Root n m) : Contracts n m

namespace Contracts

theorem parts {head : Head} {ns ns' : List Indexed} (h : List.Forall₂ Contracts ns ns') :
    Contracts (.node head ns) (.node head ns') := by
  -- the parts in front have been contracted already
  suffices hfront : ∀ before : List Indexed,
      Contracts (.node head (before ++ ns)) (.node head (before ++ ns')) from hfront []
  induction h with
  | nil => exact fun before => .refl _
  | @cons n n' ns ns' hn _ ih =>
    intro before
    have hrest := ih (before ++ [n'])
    rw [List.append_assoc, List.append_assoc] at hrest
    exact (Contracts.part hn).trans hrest

end Contracts

/-- The node waits for something to be known: no redex is made of it. -/
def Head.isDeferred : Head → Bool
  | .form (.delayed _ _ _) | .form (.unknown _) => true
  | _ => false

theorem Head.mapSorts_id (head : Head) : head.mapSorts id = head := by
  cases head with
  | form shape => rw [mapSorts, Node.mapSorts_id]
  | clause typed => rfl

/-- A family of maps that act on terms node by node and change sorts at most. What they do to
nodes that wait is up to them. -/
structure Acts {I : Type} (lift : I → I) (f : USort → USort) (φ : I → Indexed → Indexed) :
    Prop where
  abs : ∀ i n, φ i (.abs n) = .abs (φ (lift i) n)
  node : ∀ i head ns, head.isDeferred = false →
    φ i (.node head ns) = .node (head.mapSorts f) (ns.map (φ i))
  deferred : ∀ i head before n n' after, head.isDeferred = true → Contracts (φ i n) (φ i n') →
    Contracts (φ i (.node head (before ++ n :: after))) (φ i (.node head (before ++ n' :: after)))
  single : ∀ i a b, φ i (b.inst (.single a)) = (φ (lift i) b).inst (.single (φ i a))

theorem lookup_map {K A B : Type} [BEq K] (f : A → B) (k : K) (es : List (K × A)) :
    (es.map (Prod.map id f)).lookup k = (es.lookup k).map f := by
  induction es with
  | nil => rfl
  | cons e es ih =>
    obtain ⟨j, a⟩ := e
    rw [List.map_cons, Prod.map_apply, List.lookup_cons, List.lookup_cons, ih, id]
    cases k == j <;> rfl

section Acts

variable {I : Type} {lift : I → I} {f : USort → USort} {φ : I → Indexed → Indexed}
variable (h : Acts lift f φ)

include h

theorem Acts.component {i : I} {index : Int64} {t u : Indexed}
    (hu : t.component? index = some u) : (φ i t).component? index = some (φ i u) := by
  unfold component? at hu
  split at hu
  next fields type parts =>
    rw [h.node i _ _ rfl]
    show (if index.toNatClampNeg < fields.length then (parts.map (φ i))[index.toNatClampNeg]?
      else none) = _
    split at hu
    next hlt => rw [if_pos hlt, List.getElem?_map, hu, Option.map_some]
    next => cases hu
  next => cases hu

theorem Acts.implementation {i : I} {g : FieldName} {t b : Indexed}
    (hb : t.implementation? g = some (.abs b)) :
    (φ i t).implementation? g = some (.abs (φ (lift i) b)) := by
  unfold implementation? at hb
  split at hb
  next renewed type parts =>
    rw [h.node i _ _ rfl]
    show ((type.val.impls.map Prod.fst).zip (parts.map (φ i))).lookup g = _
    rw [List.zip_map_right, lookup_map, hb, Option.map_some, h.abs]
  next => cases hb

/-- Redexes are stable under what acts on terms node by node. -/
theorem Root.act (hn : Root n n') (i : I) : Root (φ i n) (φ i n') := by
  cases hn with
  | beta hparts =>
    rw [h.node i _ _ rfl, List.map_cons, List.map_singleton, h.node i _ _ rfl, h.single]
    refine .beta ?_
    rw [← List.map_drop, hparts, List.map_singleton, h.abs]
  | @betaRest a sort p q ps parts bs hparts =>
    rw [h.node i _ _ rfl, List.map_cons, List.map_singleton, h.node i _ _ rfl, h.node i _ _ rfl]
    have hbs : (bs.map (inst (.single a))).map (φ i) =
        (bs.map (φ (lift i))).map (inst (.single (φ i a))) := by
      simp only [List.map_map]
      exact List.map_congr_left fun b _ => h.single i a b
    rw [hbs]
    refine .betaRest ?_
    rw [← List.map_drop, hparts, List.map_map, List.map_map]
    exact List.map_congr_left fun b _ => h.abs i b
  | component hu =>
    rw [h.node i _ _ rfl]
    exact .component (h.component hu)
  | impl hb =>
    rw [h.node i _ _ rfl, h.single]
    exact .impl (h.implementation hb)

/-- Contraction is stable under what acts on terms node by node. -/
theorem Contracts.act (hn : Contracts n n') (i : I) : Contracts (φ i n) (φ i n') := by
  induction hn generalizing i with
  | refl n => exact .refl _
  | trans _ _ ih ih' => exact (ih i).trans (ih' i)
  | abs _ ih =>
    rw [h.abs, h.abs]
    exact .abs (ih _)
  | @part head before after n n' _ ih =>
    cases hdeferred : head.isDeferred with
    | true => exact h.deferred i head before n n' after hdeferred (ih i)
    | false =>
      rw [h.node i _ _ hdeferred, h.node i _ _ hdeferred]
      simp only [List.map_append, List.map_cons]
      exact .part (ih i)
  | root hroot => exact .root (hroot.act h i)

end Acts

/-! ## Contraction of instances -/

theorem Values.push_andThen (ns : List Indexed) (ρ θ : Values) :
    (push ns ρ).andThen θ = push (ns.map (inst θ)) (ρ.andThen θ) := by
  have hbound : ((push ns ρ).andThen θ).bound = (push (ns.map (inst θ)) (ρ.andThen θ)).bound := by
    funext i
    simp only [push, andThen, List.getD_eq_getElem?_getD, List.getElem?_map, List.length_map]
    cases ns[i]? <;> rfl
  exact congrArg (Values.mk · _) hbound

/-- Values for variables that do not occur do not matter. -/
theorem inst_front_rename (ns : List Indexed) (n : Indexed) :
    (n.rename (· + ns.length)).inst (.front ns) = n := by
  rw [inst_rename]
  have hvalues : (Values.front ns).renamed (· + ns.length) = .id := by
    have hbound : ((Values.front ns).renamed (· + ns.length)).bound = .bound := by
      funext i
      simp [Values.renamed, Values.front, Values.push, Values.id]
    exact congrArg (Values.mk · _) hbound
  rw [hvalues, inst_id]

theorem Values.lift_single (a : Indexed) (ρ : Values) :
    (Values.single a).andThen ρ = ρ.lift.andThen (.single (a.inst ρ)) := by
  have hbound : ((Values.single a).andThen ρ).bound =
      (ρ.lift.andThen (.single (a.inst ρ))).bound := by
    funext i
    cases i with
    | zero => rfl
    | succ i => exact (inst_front_rename [a.inst ρ] (ρ.bound i)).symm
  have hfree : ((Values.single a).andThen ρ).free = (ρ.lift.andThen (.single (a.inst ρ))).free :=
    funext fun x => (inst_front_rename [a.inst ρ] (ρ.free x)).symm
  exact congrArg₂ Values.mk hbound hfree

theorem acts_inst : Acts Values.lift id inst where
  abs ρ n := rfl
  node ρ head ns _ := by rw [inst_node, head.mapSorts_id]
  deferred ρ head before n n' after _ h := by
    simp only [inst_node, List.map_append, List.map_cons]
    exact .part h
  single ρ a b := by rw [inst_inst, inst_inst, Values.lift_single]

theorem Contracts.inst (h : Contracts n n') (ρ : Values) :
    Contracts (n.inst ρ) (n'.inst ρ) := h.act acts_inst ρ

theorem rename_eq_inst (n : Indexed) : n.rename ξ = n.inst (Values.id.renamed ξ) := by
  rw [← inst_rename, inst_id]

theorem Contracts.rename (h : Contracts n n') (ξ : Nat → Nat) :
    Contracts (n.rename ξ) (n'.rename ξ) := by
  rw [rename_eq_inst, rename_eq_inst]
  exact h.inst _

/-- Instances at values that contract do so too. -/
theorem contracts_values {ρ ρ' : Values} (hbound : ∀ i, Contracts (ρ.bound i) (ρ'.bound i))
    (hfree : ∀ x, Contracts (ρ.free x) (ρ'.free x)) (n : Indexed) :
    Contracts (n.inst ρ) (n.inst ρ') := by
  induction n using parts_induction generalizing ρ ρ' with
  | bound i => exact hbound i
  | free x => exact hfree x
  | abs n ih =>
    refine .abs (ih (fun i => ?_) fun x => (hfree x).rename _)
    cases i with
    | zero => exact .refl _
    | succ i => exact (hbound i).rename _
  | node head ns ih =>
    rw [inst_node, inst_node]
    refine .parts ?_
    rw [List.forall₂_map_left_iff, List.forall₂_map_right_iff]
    exact List.forall₂_same.mpr fun n hn => ih n hn hbound hfree

theorem contracts_push {ns ns' : List Indexed} (h : List.Forall₂ Contracts ns ns') (ρ : Values)
    (n : Indexed) : Contracts (n.inst (.push ns ρ)) (n.inst (.push ns' ρ)) := by
  have hbound : ∀ i, Contracts ((Values.push ns ρ).bound i) ((Values.push ns' ρ).bound i) := by
    intro i
    by_cases hi : i < ns'.length
    · have hi' : i < ns.length := h.length_eq ▸ hi
      rw [Values.push_bound_of_getElem? (List.getElem?_eq_getElem hi'),
        Values.push_bound_of_getElem? (List.getElem?_eq_getElem hi)]
      exact (List.forall₂_iff_get.mp h).2 i hi' hi
    · obtain ⟨j, rfl⟩ := Nat.exists_eq_add_of_le' (Nat.not_lt.mp hi)
      rw [Values.push_bound_add rfl, Values.push_bound_add h.length_eq]
      exact .refl _
  exact contracts_values hbound (fun x => .refl _) n

/-! ## Values under binders -/

/-- The values under a number of binders. -/
def Values.under (k : Nat) (ρ : Values) : Values where
  bound i := if i < k then .bound i else (ρ.bound (i - k)).rename (· + k)
  free x := (ρ.free x).rename (· + k)

theorem Values.under_zero : ρ.under 0 = ρ := by
  have hrename : ∀ n : Indexed, n.rename (· + 0) = n := fun n => by
    rw [rename_eq_inst]
    exact inst_id n
  have hbound : (ρ.under 0).bound = ρ.bound := funext fun i => hrename (ρ.bound i)
  have hfree : (ρ.under 0).free = ρ.free := funext fun x => hrename (ρ.free x)
  exact congrArg₂ Values.mk hbound hfree

theorem Values.under_bound_of_lt {k i : Nat} (h : i < k) (ρ : Values) :
    (ρ.under k).bound i = .bound i := if_pos h

theorem Values.under_bound_add (k i : Nat) (ρ : Values) :
    (ρ.under k).bound (i + k) = (ρ.bound i).rename (· + k) := by
  refine (if_neg (Nat.not_lt.mpr (Nat.le_add_left k i))).trans ?_
  rw [Nat.add_sub_cancel]

theorem Values.lift_under (k : Nat) (ρ : Values) : (ρ.under k).lift = ρ.under (k + 1) := by
  have hbound : (ρ.under k).lift.bound = (ρ.under (k + 1)).bound := by
    funext i
    cases i with
    | zero => rfl
    | succ i =>
      simp only [lift, under, Nat.add_lt_add_iff_right, Nat.add_sub_add_right]
      split
      · rfl
      · rw [rename_rename]
        rfl
  have hfree : (ρ.under k).lift.free = (ρ.under (k + 1)).free :=
    funext fun x => by
      simp only [lift, under, rename_rename]
      rfl
  exact congrArg₂ Values.mk hbound hfree

/-- Values for the innermost bound variables can be put in before or after. -/
theorem inst_front_under (k : Nat) (ns : List Indexed) (ρ : Values) (n : Indexed) :
    (n.inst (.front ns)).inst (ρ.under k) =
      (n.inst (ρ.under (ns.length + k))).inst (.front (ns.map (inst (ρ.under k)))) := by
  rw [inst_inst, inst_inst, Values.front, Values.push_andThen]
  have hfront : ∀ m : Indexed, (m.rename (· + (ns.length + k))).inst
      (.front (ns.map (inst (ρ.under k)))) = m.rename (· + k) := fun m => by
    have hrename : m.rename (· + (ns.length + k)) =
        (m.rename (· + k)).rename (· + (ns.map (inst (ρ.under k))).length) := by
      rw [rename_rename, List.length_map]
      refine congrArg (m.rename ·) (funext fun i => ?_)
      show i + (ns.length + k) = i + k + ns.length
      omega
    rw [hrename, inst_front_rename]
  have hlength : (ns.map (inst (ρ.under k))).length = ns.length := List.length_map _
  have hbound : ∀ i, (Values.push (ns.map (inst (ρ.under k))) (Values.id.andThen (ρ.under k))).bound i =
      ((ρ.under (ns.length + k)).bound i).inst (.front (ns.map (inst (ρ.under k)))) := by
    intro i
    by_cases hi : i < ns.length
    · have hget := List.getElem?_eq_getElem (hlength ▸ hi : i < (ns.map (inst (ρ.under k))).length)
      rw [Values.under_bound_of_lt (Nat.lt_add_right k hi), inst, Values.front,
        Values.push_bound_of_getElem? hget, Values.push_bound_of_getElem? hget]
    obtain ⟨j, rfl⟩ := Nat.exists_eq_add_of_le' (Nat.not_lt.mp hi)
    rw [Values.push_bound_add hlength]
    by_cases hj : j < k
    · rw [Values.under_bound_of_lt (by omega), inst, Values.front, Values.push_bound_add hlength]
      exact Values.under_bound_of_lt hj ρ
    · obtain ⟨l, rfl⟩ := Nat.exists_eq_add_of_le' (Nat.not_lt.mp hj)
      rw [Nat.add_assoc, Nat.add_comm k, Values.under_bound_add, hfront]
      exact Values.under_bound_add k l ρ
  exact congrArg (n.inst ·)
    (congrArg₂ Values.mk (funext hbound) (funext fun x => (hfront (ρ.free x)).symm))

/-! ## Grafts -/

mutual

/-- The term with every node made anew. -/
def graft (g : Head → List Indexed → Indexed) : Indexed → Indexed
  | .bound i => .bound i
  | .free x => .free x
  | .abs body => .abs (body.graft g)
  | .node head parts => g head (graftAll g parts)

/-- The terms of a list with every node made anew. -/
def graftAll (g : Head → List Indexed → Indexed) : List Indexed → List Indexed
  | [] => []
  | n :: ns => n.graft g :: graftAll g ns

end

theorem graft_node (g : Head → List Indexed → Indexed) (head : Head) (ns : List Indexed) :
    (node head ns).graft g = g head (ns.map (graft g)) := by
  have hall : ∀ ns : List Indexed, graftAll g ns = ns.map (graft g) := by
    intro ns
    induction ns with
    | nil => rfl
    | cons n ns ih => rw [graftAll, ih, List.map_cons]
  rw [graft, hall]

/-- The values with every node made anew. -/
def Values.graft (g : Head → List Indexed → Indexed) (ρ : Values) : Values :=
  ⟨fun i => (ρ.bound i).graft g, fun x => (ρ.free x).graft g⟩

/-- What may become of nodes: only those that wait are replaced by something else, and what is
put in their place depends on the parts as the node itself does. -/
structure Grafts (f : USort → USort) (g : Head → List Indexed → Indexed) : Prop where
  node : ∀ head ns, head.isDeferred = false → g head ns = .node (head.mapSorts f) ns
  inst : ∀ head ns ρ, (g head ns).inst ρ = g head (ns.map (inst ρ))
  part : ∀ head before n n' after, Contracts n n' →
    Contracts (g head (before ++ n :: after)) (g head (before ++ n' :: after))

section Grafts

variable {f : USort → USort} {g : Head → List Indexed → Indexed} (h : Grafts f g)

include h

theorem graft_rename (ξ : Nat → Nat) (n : Indexed) :
    (n.rename ξ).graft g = (n.graft g).rename ξ := by
  induction n using parts_induction generalizing ξ with
  | bound i => rfl
  | free x => rfl
  | abs n ih => rw [rename, graft, ih, graft, rename]
  | node head ns ih =>
    have hrename : rename ξ = inst (Values.id.renamed ξ) := funext (rename_eq_inst ξ)
    rw [rename_node, graft_node, graft_node, rename_eq_inst, h.inst, ← hrename, List.map_map,
      List.map_map]
    exact congrArg _ (List.map_congr_left fun n hn => ih n hn ξ)

theorem Values.graft_lift (ρ : Values) : ρ.lift.graft g = (ρ.graft g).lift := by
  have hbound : (ρ.lift.graft g).bound = (ρ.graft g).lift.bound := by
    funext i
    cases i with
    | zero => rfl
    | succ i => exact graft_rename h _ (ρ.bound i)
  have hfree : (ρ.lift.graft g).free = (ρ.graft g).lift.free :=
    funext fun x => graft_rename h _ (ρ.free x)
  exact congrArg₂ Values.mk hbound hfree

theorem graft_inst (ρ : Values) (n : Indexed) :
    (n.inst ρ).graft g = (n.graft g).inst (ρ.graft g) := by
  induction n using parts_induction generalizing ρ with
  | bound i => rfl
  | free x => rfl
  | abs n ih => rw [inst, graft, ih, Values.graft_lift h, graft, inst]
  | node head ns ih =>
    rw [inst_node, graft_node, graft_node, h.inst, List.map_map, List.map_map]
    exact congrArg _ (List.map_congr_left fun n hn => ih n hn ρ)

omit h in
theorem Values.graft_push (ns : List Indexed) (ρ : Values) :
    (Values.push ns ρ).graft g = .push (ns.map (Indexed.graft g)) (ρ.graft g) := by
  have hbound : ((Values.push ns ρ).graft g).bound =
      (Values.push (ns.map (Indexed.graft g)) (ρ.graft g)).bound := by
    funext i
    simp only [Values.graft, push, List.getD_eq_getElem?_getD, List.getElem?_map, List.length_map]
    cases ns[i]? <;> rfl
  exact congrArg (Values.mk · _) hbound

omit h in
theorem Values.graft_front (ns : List Indexed) :
    (Values.front ns).graft g = .front (ns.map (Indexed.graft g)) := graft_push ns .id

theorem acts_graft : Acts id f fun _ : Unit => graft g where
  abs _ n := rfl
  node _ head ns hhead := by rw [graft_node, h.node _ _ hhead]
  deferred _ head before n n' after _ hn := by
    simp only [graft_node, List.map_append, List.map_cons]
    exact h.part _ _ _ _ _ hn
  single _ a b := by rw [graft_inst h, Values.single, Values.graft_front]; rfl

theorem Contracts.graft (hn : Contracts n n') :
    Contracts (n.graft g) (n'.graft g) := hn.act (acts_graft h) ()

end Grafts

end Indexed

end Recheck
