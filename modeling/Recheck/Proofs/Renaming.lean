import Recheck.Proofs.Keeps.Substitution
import Recheck.Proofs.Plans

/-!
# Recheck — what substitution leaves alone

A substitution copies the binders of a term even if there is nothing to replace, so what
it returns is the term up to the names of bound variables at best. It is that if none of
the free variables are replaced and nothing is contracted on the way: `Nameless.Settled`
collects what has to be excluded, and `Rewrites.nameless_eq` says that the nameless
reading of such a term stays the same.
-/

namespace Recheck

variable {T : Type} {keeps : Var → Prop} {ys xs : List Var} {s s' : Store} {σ : Substitution}
  {sig : Signature}

/-! ## Settled terms -/

/-- The sort has no level variables that could be replaced. -/
def USort.Fixed (s : USort) : Prop := ∀ levels, s.subst levels = s

def BranchKey.Fixed : BranchKey → Prop
  | .record _ sort _ => sort.Fixed
  | .con _ | .tuple _ => True

section Fixed

variable {T : Type}

mutual

def Tree.Fixed : Tree T → Prop
  | .leaf _ _ => True
  | .branch _ children => Tree.AllFixed children

/-- The children of a branch are fixed. -/
def Tree.AllFixed : List (BranchKey × Tree T) → Prop
  | [] => True
  | (key, t) :: rest => key.Fixed ∧ t.Fixed ∧ Tree.AllFixed rest

end

/-- The record type has no level variables, and its implementations are listed in the order
of the declaration. -/
structure RecordType.Fixed (sig : Signature) (r : RecordType T) : Prop where
  sortArg : r.sortArg.Fixed
  sort : r.sort.Fixed
  nodup : (r.impls.map Prod.fst).Nodup
  order : r.impls.map Prod.fst = (sig.record r.record).fields.filter r.isImplemented

/-- The node stays the same if its subterms do. That is not so for nodes that lead into the
store and for field projections, which a substitution can replace. -/
def Node.Fixed (sig : Signature) : Node T → Prop
  | .ref _ | .app _ _ | .proj _ _ | .ofType _ _ | .int _ | .hole _ _ => True
  | .call _ sort _ | .lam sort _ _ | .pi sort _ _ | .univ sort => sort.Fixed
  | .con c => c.sortArg.Fixed
  | .data d => d.sortArg.Fixed
  | .sigma s => s.sort.Fixed
  | .tuple _ type => type.val.sort.Fixed
  | .record r => r.Fixed sig
  | .new _ type => type.val.Fixed sig
  | .case c => ∀ e, c.elim = some e → ∀ t, e.tree = some t → t.Fixed
  | .field _ _ _ | .letIn _ _ _ | .unknown _ | .delayed _ _ _ => False

end Fixed

namespace Nameless

def isLam : Nameless → Bool
  | .node (.lam _ _ _) _ => true
  | _ => false

def isTuple : Nameless → Bool
  | .node (.tuple _ _) _ => true
  | _ => false

/-- Whether a node is contracted when it is rebuilt. -/
def isRedex : Shape → List Nameless → Bool
  | .app _ _, fn :: _ => fn.isLam
  | .proj _ _, t :: _ => t.isTuple
  | _, _ => false

/-- A substitution that does not replace the variables in `keeps` has nothing to do. -/
inductive Settled (sig : Signature) (keeps : Var → Prop) : Nameless → Prop where
  | bound (index : Nat) : Settled sig keeps (.bound index)
  | free {x : Var} (hx : keeps x) : Settled sig keeps (.free x)
  | node {shape : Shape} {parts : List Nameless} (hshape : shape.Fixed sig)
      (hredex : isRedex shape parts = false) (hparts : ∀ p ∈ parts, Settled sig keeps p) :
      Settled sig keeps (.node shape parts)

end Nameless

/-! ## Substitutions that rename -/

/-- The substitution replaces the variables of the scope `xs` by references to those of
`ys`, one for one, and leaves the free variables in `keeps` alone. -/
structure Agrees (keeps : Var → Prop) (σ : Substitution) (xs ys : List Var) : Prop where
  bound : ∀ x i, xs.idxOf? x = some i → ∃ stamp y,
    σ.exprs.get? (.local x) = some (.mk stamp (.ref y)) ∧ ys.idxOf? y = some i
  free : ∀ x, xs.idxOf? x = none → keeps x → σ.exprs.get? (.local x) = none
  apart : ∀ x, keeps x → x ∉ ys

/-- The variables are not going to be handed out again. -/
structure Taken (keeps : Var → Prop) (ys : List Var) (s : Store) : Prop where
  kept : ∀ x, keeps x → x.serial < s.next
  scope : ∀ y ∈ ys, y.serial < s.next

theorem Taken.mono (h : Taken keeps ys s) (hnext : s.next ≤ s'.next) : Taken keeps ys s' :=
  ⟨fun x hx => (h.kept x hx).trans_le hnext,
    fun y hy => (h.scope y hy).trans_le hnext⟩

/-- Going under a binder, whose copy is new. -/
theorem Agrees.bind (h : Agrees keeps σ xs ys) {x y : Var} {t : Term} (ht : t.node = .ref y)
    (hy : y ∉ ys) (hfree : ¬ keeps y) : Agrees keeps (σ.bind x t) (x :: xs) (y :: ys) where
  bound z i hi := by
    obtain ⟨stamp, node⟩ := t
    obtain rfl : node = .ref y := ht
    rw [List.idxOf?_cons] at hi
    by_cases hz : x = z
    · subst hz
      refine ⟨stamp, y, Mapping.get?_insert_self _ _ _, ?_⟩
      simpa [List.idxOf?_cons] using hi
    · have hne : (x == z) = false := by simpa using hz
      simp only [hne, Bool.false_eq_true, if_false, Option.map_eq_some_iff] at hi
      obtain ⟨j, hj, rfl⟩ := hi
      obtain ⟨stamp', y', hget, hidx⟩ := h.bound z j hj
      refine ⟨stamp', y', ?_, ?_⟩
      · rw [Substitution.bind, Mapping.get?_insert_of_ne _ _ (by simpa using Ne.symm hz)]
        exact hget
      · have hne' : (y == y') = false := by
          simp only [beq_eq_false_iff_ne, ne_eq]
          rintro rfl
          rw [List.idxOf?_eq_none_iff.mpr hy] at hidx
          cases hidx
        simp [List.idxOf?_cons, hne', hidx]
  free z hz hkeep := by
    rw [List.idxOf?_cons] at hz
    by_cases hxz : x = z
    · subst hxz
      simp at hz
    · have hne : (x == z) = false := by simpa using hxz
      simp only [hne, Bool.false_eq_true, if_false, Option.map_eq_none_iff] at hz
      rw [Substitution.bind, Mapping.get?_insert_of_ne _ _ (by simpa using Ne.symm hxz)]
      exact h.free z hz hkeep
  apart z hz := by
    simp only [List.mem_cons, not_or]
    exact ⟨fun heq => hfree (heq ▸ hz), h.apart z hz⟩

section Shapes

variable {sig : Signature}

theorem RecordType.isImplemented_erase (r : RecordType Term) (f : FieldName) :
    r.erase.isImplemented f = r.isImplemented f := by
  simp only [RecordType.isImplemented, RecordType.impl?, RecordType.erase]
  induction r.impls with
  | nil => rfl
  | cons e es ih =>
    rw [List.map_cons, List.lookup_cons, List.lookup_cons]
    cases f == e.1 with
    | true => rfl
    | false => exact ih

/-- A fixed record type lists its implementations in the order in which a copy looks them
up. -/
theorem RecordType.Fixed.sorted_eq {r : RecordType Term} (h : r.erase.Fixed sig) :
    r.sorted sig = r := by
  have hnodup := h.nodup
  have horder := h.order
  rw [funext r.isImplemented_erase] at horder
  simp only [RecordType.erase, List.map_map, Function.comp_def] at hnodup horder
  exact RecordType.sorted_eq hnodup horder.symm

theorem Node.Fixed.sorted_eq {n : Node Term} (h : n.erase.Fixed sig) : n.sorted sig = n := by
  cases n with
  | record r => rw [Node.sorted, RecordType.Fixed.sorted_eq h]
  | new renewed type => rw [Node.sorted, RecordType.Fixed.sorted_eq h]
  | _ => rfl

mutual

theorem Tree.Fixed.atLevels_eq (levels : LevelSubst) : ∀ {t : Tree Unit}, t.Fixed →
    t.mapSorts (·.subst levels) = t
  | .leaf ps body, _ => rfl
  | .branch ps children, h => by rw [Tree.mapSorts, Tree.Fixed.allAtLevels_eq levels h]

theorem Tree.Fixed.allAtLevels_eq (levels : LevelSubst) :
    ∀ {children : List (BranchKey × Tree Unit)}, Tree.AllFixed children →
      Tree.mapAllSorts (·.subst levels) children = children
  | [], _ => rfl
  | (key, t) :: rest, h => by
    have hkey : key.mapSorts (·.subst levels) = key := by
      cases key with
      | record r sort implemented => exact congrArg (BranchKey.record r · implemented) (h.1 levels)
      | _ => rfl
    rw [Tree.mapAllSorts, hkey, Tree.Fixed.atLevels_eq levels h.2.1,
      Tree.Fixed.allAtLevels_eq levels h.2.2]

end

theorem RecordType.Fixed.atLevels_eq {r : RecordType Unit} (h : r.Fixed sig)
    (levels : LevelSubst) : r.mapSorts (·.subst levels) = r := by
  rw [RecordType.mapSorts, h.sortArg levels, h.sort levels]

/-- Level substitutions do not change a fixed shape. -/
theorem Node.Fixed.atLevels_eq {n : Shape} (h : n.Fixed sig) (levels : LevelSubst) :
    n.atLevels levels = n := by
  cases n with
  | field | letIn | unknown | delayed => exact h.elim
  | ref | app | proj | ofType | int | hole => rfl
  | call f sort args => exact congrArg (Node.call f · args) (h levels)
  | lam sort ps body => exact congrArg (Node.lam · ps body) (h levels)
  | pi sort ps body => exact congrArg (Node.pi · ps body) (h levels)
  | univ sort => exact congrArg Node.univ (h levels)
  | con c =>
    have hsort : c.sortArg.subst levels = c.sortArg := h levels
    simp only [Node.mapSorts, hsort]
  | data d =>
    have hsort : d.sortArg.subst levels = d.sortArg := h levels
    simp only [Node.mapSorts, hsort]
  | sigma s =>
    have hsort : s.sort.subst levels = s.sort := h levels
    simp only [Node.mapSorts, SigmaType.mapSorts, hsort]
  | tuple fields type =>
    have hsort : type.val.sort.subst levels = type.val.sort := h levels
    simp only [Node.mapSorts, SigmaType.mapSorts, hsort]
  | record r => exact congrArg Node.record (RecordType.Fixed.atLevels_eq h levels)
  | new renewed type =>
    simp only [Node.mapSorts, RecordType.Fixed.atLevels_eq h levels]
  | case c =>
    have helim : c.elim.map (Elim.mapSorts (·.subst levels)) = c.elim := by
      cases he : c.elim with
      | none => rfl
      | some e =>
        have htree : e.tree.map (Tree.mapSorts (·.subst levels)) = e.tree := by
          cases ht : e.tree with
          | none => rfl
          | some t => exact congrArg some (Tree.Fixed.atLevels_eq levels (h e he t ht))
        rw [Option.map_some, Elim.mapSorts, htree]
    simp only [Node.mapSorts, helim]

end Shapes

namespace Traversal

/-- The recursive call of a traversal only renames settled terms. -/
def Renames (sig : Signature) (keeps : Var → Prop)
    (self : Substitution → Term → Traversal Term) : Prop :=
  ∀ {s σ xs ys t}, Agrees keeps σ xs ys → Taken keeps ys s → (t.nameless xs).Settled sig keeps →
    Yields (self σ t) s fun t' s' => s.next ≤ s'.next ∧ t'.nameless ys = t.nameless xs

end Traversal

theorem readAll_rotate (scope : List Var) (ps : List (Scoped Term)) (k : Nat) :
    readAll scope (ps.rotate k) = (readAll scope ps).rotate k := List.map_rotate _ _ _

/-- The parts of a copy read as the parts of the original, if those are settled. -/
theorem Plan.Runs.renamed {self}
    (hren : Traversal.Renames sig keeps self) {p p' : Plan} (hruns : Plan.Runs self σ s p p' s')
    (hσ : Agrees keeps σ xs ys) (hs : Taken keeps ys s)
    (hset : ∀ q ∈ readAll xs p.subterms, q.Settled sig keeps) :
    s.next ≤ s'.next ∧ readAll ys p'.subterms = readAll xs p.subterms := by
  induction hruns generalizing xs ys with
  | done => exact ⟨le_rfl, rfl⟩
  | quiet hquiet _ ih =>
    obtain ⟨hnext, hread⟩ := ih hσ (hs.mono hquiet.next) hset
    exact ⟨hquiet.next.trans hnext, hread⟩
  | term ht _ ih =>
    rw [Plan.subterms, readAll_cons, List.forall_mem_cons] at hset
    obtain ⟨hnext, hread⟩ := hren hσ hs hset.1 _ _ ht
    obtain ⟨hnext', hread'⟩ := ih hσ (hs.mono hnext) hset.2
    refine ⟨hnext.trans hnext', ?_⟩
    rw [Plan.subterms, Plan.subterms, readAll_cons, readAll_cons, hread']
    exact congrArg (· :: _) hread
  | @under σ s s₁ s₂ s₃ x y ref inner inner' rest rest' hquiet hold hnew _ href _ _ ih ih' =>
    rw [Plan.subterms, readAll_append, readAll_inScopeOf, List.forall_mem_append] at hset
    have hy : y ∉ ys := fun hmem => Nat.not_lt.mpr hold (hs.scope y hmem)
    have hfree : ¬ keeps y := fun hkeep => Nat.not_lt.mpr hold (hs.kept y hkeep)
    have hs₁ : Taken keeps (y :: ys) s₁ :=
      ⟨(hs.mono hquiet.next).kept, List.forall_mem_cons.mpr ⟨hnew, (hs.mono hquiet.next).scope⟩⟩
    obtain ⟨hnext, hread⟩ := ih (hσ.bind href hy hfree) hs₁ hset.1
    have hnext := hquiet.next.trans hnext
    obtain ⟨hnext', hread'⟩ := ih' hσ (hs.mono hnext) hset.2
    refine ⟨hnext.trans hnext', ?_⟩
    rw [Plan.subterms, Plan.subterms, readAll_append, readAll_append, readAll_inScopeOf,
      readAll_inScopeOf, hread']
    exact congrArg (· ++ _) hread

namespace Traversal

section Step

variable {sig : Signature} {keeps : Var → Prop} {self}
  (hself : ∀ n, Respects sig .unrestricted (OnStore fun s => n ≤ s.next) self)
variable (hren : Renames sig keeps self)
variable {s : Store} {σ : Substitution} {xs ys : List Var}
variable {n : Node Term} {s₀ : Store} {stamp : Nat}

/-- A node is rebuilt with the same reading. -/
theorem yields_sameReading (stamp : Nat) {n' : Node Term} (hs : s₀.next ≤ s.next)
    (hread : n'.read ys = n.read xs) (hn : ∀ x, n ≠ .ref x) (hn' : ∀ x, n' ≠ .ref x) :
    Yields (Core.build n') s fun t s' =>
      s₀.next ≤ s'.next ∧ t.nameless ys = (Term.mk stamp n).nameless xs := by
  refine Yields.build ⟨Nat.le_succ_of_le hs, ?_⟩
  rw [Term.nameless_node hn, Term.nameless_node hn', hread]

include hself in
theorem yields_renamedRef {x : Var} (hσ : Agrees keeps σ xs ys)
    (hset : ((Term.mk stamp (.ref x)).nameless xs).Settled sig keeps) :
    Yields (step sig self σ (.mk stamp (.ref x))) s fun t s' =>
      s.next ≤ s'.next ∧ t.nameless ys = (Term.mk stamp (.ref x)).nameless xs := by
  rw [Term.nameless_ref] at hset ⊢
  unfold step
  dsimp only [Term.node]
  cases hx : xs.idxOf? x with
  | some i =>
    obtain ⟨stamp', y, hget, hy⟩ := hσ.bound x i hx
    rw [hget]
    exact .pure ⟨le_rfl, by rw [Term.nameless_ref, hy]⟩
  | none =>
    rw [hx] at hset
    obtain ⟨⟩ | ⟨hkeep⟩ := hset
    have hfree : (Term.mk stamp (.ref x)).nameless ys = .free x := by
      rw [Term.nameless_ref, List.idxOf?_eq_none_iff.mpr (hσ.apart x hkeep)]
    rw [hσ.free x hx hkeep]
    dsimp only
    split
    next =>
      have hupdate := keeps_updateClause (x := x) (next_invariant sig s.next) (hself s.next)
        (Region.holds_unrestricted σ.exprs.parts) trivial
      refine Yields.bind (Yields.of_keepsT hupdate le_rfl) ?_
      exact fun _ s' h => .pure ⟨h.1, hfree⟩
    next => exact .pure ⟨le_rfl, hfree⟩

/-- An application whose head is no function is not contracted. -/
theorem yields_renamedApp {fn fn' arg arg' : Term} (hs : s₀.next ≤ s.next)
    (hfn : fn'.nameless ys = fn.nameless xs) (harg : arg'.nameless ys = arg.nameless xs)
    (hlam : (fn.nameless xs).isLam = false) :
    Yields (makeAppFrom self fn' [arg']) s fun t s' =>
      s₀.next ≤ s'.next ∧ t.nameless ys = (Term.mk stamp (.app fn arg)).nameless xs := by
  have hread : (Node.app fn' arg').read ys = (Node.app fn arg).read xs := by
    simp [Node.read, Node.erase, hfn, harg]
  have hbuild := yields_sameReading stamp hs hread (by simp) (by simp)
  rw [makeAppFrom]
  obtain ⟨stamp', node⟩ := fn'
  cases node with
  | lam sort ps body =>
    rw [Term.nameless_node (by simp)] at hfn
    rw [← hfn] at hlam
    cases hlam
  | _ => exact Yields.bind hbuild fun t s' ht => .pure ht

theorem yields_renamedProj {u u' : Term} (index : Int64) (hs : s₀.next ≤ s.next)
    (hu : u'.nameless ys = u.nameless xs) (htuple : (u.nameless xs).isTuple = false) :
    Yields (makeProj u' index) s fun t s' =>
      s₀.next ≤ s'.next ∧ t.nameless ys = (Term.mk stamp (.proj u index)).nameless xs := by
  have hread : (Node.proj u' index).read ys = (Node.proj u index).read xs := by
    simp [Node.read, Node.erase, hu]
  have hbuild := yields_sameReading stamp hs hread (by simp) (by simp)
  rw [makeProj]
  obtain ⟨stamp', node⟩ := u'
  cases node with
  | tuple fields type =>
    rw [Term.nameless_node (by simp)] at hu
    rw [← hu] at htuple
    cases htuple
  | _ => exact hbuild

include hren

/-- A node that is made of copies of its parts. -/
theorem yields_renamedPlain (hplain : n.isPlain) (hσ : Agrees keeps σ xs ys) (hs : Taken keeps ys s)
    (hfixed : n.erase.Fixed sig) (hset : ∀ q ∈ readAll xs n.subterms, q.Settled sig keeps) :
    Yields (step sig self σ (.mk stamp n)) s fun t s' =>
      s.next ≤ s'.next ∧ t.nameless ys = (Term.mk stamp n).nameless xs := by
  have hnode : ∀ n : Node Term, n.isPlain → ∀ x, n ≠ .ref x := by
    rintro _ hn x rfl
    cases hn
  have hsorted := Node.Fixed.sorted_eq hfixed
  refine Yields.mono (rebuilds_step hplain) ?_
  intro t s' hrebuilds
  have hplain' := hrebuilds.isPlain.trans hplain
  have hleading := hrebuilds.leading
  obtain ⟨⟨hruns, -⟩, hshape⟩ := hrebuilds
  rw [hsorted] at hruns hshape hleading
  rw [Node.subterms_eq_rotate hplain, readAll_rotate] at hset
  obtain ⟨hnext, hread⟩ := hruns.renamed hren hσ hs fun q hq => hset q (List.mem_rotate.mpr hq)
  refine ⟨hnext, ?_⟩
  obtain ⟨stamp', n'⟩ := t
  dsimp only [Term.node] at hplain' hleading hshape hread
  rw [Term.nameless_node (hnode n' hplain'), Term.nameless_node (hnode n hplain), Node.read,
    Node.read, hshape, Node.Fixed.atLevels_eq hfixed, Node.subterms_eq_rotate hplain',
    Node.subterms_eq_rotate hplain, readAll_rotate, readAll_rotate, hread, hleading]

include hself in
/-- One step of a traversal only renames, if the term is settled. -/
theorem yields_renamedStep {t : Term} (hσ : Agrees keeps σ xs ys) (hs : Taken keeps ys s)
    (hset : (t.nameless xs).Settled sig keeps) :
    Yields (step sig self σ t) s fun t' s' =>
      s.next ≤ s'.next ∧ t'.nameless ys = t.nameless xs := by
  obtain ⟨stamp, node⟩ := t
  by_cases href : ∃ x, node = .ref x
  · obtain ⟨x, rfl⟩ := href
    exact yields_renamedRef hself hσ hset
  rw [Term.nameless_node fun x hx => href ⟨x, hx⟩, Node.read] at hset
  obtain ⟨⟩ | ⟨⟩ | ⟨hshape, hredex, hparts⟩ := hset
  by_cases hplain : node.isPlain
  · exact yields_renamedPlain hren hplain hσ hs hshape hparts
  cases node with
  | ref x => exact absurd ⟨x, rfl⟩ href
  | field f sortArg arg | letIn strict zs body | unknown v | delayed u exprs levels =>
    exact hshape.elim
  | app fn arg =>
    simp only [Node.subterms, readAll_unscoped, List.map_cons, List.map_nil,
      List.forall_mem_cons] at hparts
    refine Yields.bind (hren hσ hs hparts.1) ?_
    rintro fn' s₁ ⟨hnext, hfn⟩
    refine Yields.bind (hren hσ (hs.mono hnext) hparts.2.1) ?_
    rintro arg' s₂ ⟨hnext', harg⟩
    exact (yields_renamedApp (hnext.trans hnext') hfn harg hredex).lift
  | proj u index =>
    simp only [Node.subterms, readAll_unscoped, List.map_cons, List.map_nil,
      List.forall_mem_cons] at hparts
    refine Yields.bind (hren hσ hs hparts.1) ?_
    rintro u' s₁ ⟨hnext, hu⟩
    exact (yields_renamedProj index hnext hu hredex).lift
  | _ => exact absurd rfl hplain

end Step

/-- Substitution only renames settled terms, by induction on the depth. -/
theorem renames_traverse (fuel : Nat) : Renames sig keeps (traverse sig fuel) := by
  induction fuel with
  | zero => exact fun _ _ _ => .throwT
  | succ fuel ih =>
    intro s σ xs ys t hσ hs hset
    exact yields_renamedStep (fun n => respects_traverse (next_invariant sig n) fuel) ih hσ hs hset

end Traversal

/-- A rewrite of a settled definition is the same definition, up to the names of bound
variables. -/
theorem Rewrites.nameless_eq {R : Region} {e e' : Term} (h : Rewrites sig R e e')
    (hset : (e.nameless []).Settled sig fun x => ¬ R.binds x.serial) :
    e'.nameless [] = e.nameless [] := by
  obtain ⟨fuel, σ, done, done', s, s', hgood, hσ, -, hrun⟩ := h
  have hagrees : Agrees (fun x => ¬ R.binds x.serial) σ [] [] := by
    refine ⟨by simp, fun x _ hx => ?_, by simp⟩
    -- what the substitution replaces are variables of the region
    cases hget : σ.exprs.get? (.local x) with
    | none => rfl
    | some u =>
      have hparts := (Mapping.holds_iff.mp hσ _ (mem_of_lookup hget)).1
      simp only [Variable.binderParts, Region.holds_cons, Part.within_binder] at hparts
      exact absurd hparts.1.1 hx
  have htaken : Taken (fun x => ¬ R.binds x.serial) [] s := by
    refine ⟨fun x hx => Nat.lt_of_not_le fun hle => hx (hgood.binds_fresh _ hle), by simp⟩
  exact (Traversal.renames_traverse fuel hagrees htaken hset e' s'
    ⟨done, done', s, s', rfl, rfl, hrun⟩).2

end Recheck
