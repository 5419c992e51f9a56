import Recheck.Proofs.LetClauses

/-!
# Recheck — substitution on readings

A traversal that copies a term acts on the reading of the term as simultaneous substitution
does: `Traversal.simulates_traverse`.

What makes it hold is a discipline about scopes. The copies of binders come from the store,
so they are newer than everything that was there before, and along the scope of what has
been copied the variables get older. A substitution that meets a let clause of that scope,
which only the contraction of a redex inside of the let expression can do, replaces
variables that are newer than the clause. They do not occur in the definition of the
clause, and updating the definition contracts it at most.

* `Stage` is what a traversal relies on: the scope of the term, the scope of the copy, and
  a substitution that takes one to the other.
* `Redefines` is what a traversal does to the store: the clauses outside of the scope of the copy
  stay as they are, and those inside get other definitions. `Grows` is the case in which they
  are contracted at most.
* `Copied` relates subterms to the parts that they were made from.
-/

namespace Recheck

open Indexed (Env Subst)

variable {s : Store} {hidden scope : List Var} {i : Nat} {x : Var}
  {self : Substitution → Term → Traversal Term} {y : Var}

/-- The let clauses that can be looked up, those of hidden variables apart. -/
def Store.visible (s : Store) (hidden : List Var) (i : Nat) : Option LetClause :=
  if i ∈ hidden.map Var.serial then none else s.clauses.get? i

/-- The view from a scope into the store. -/
def Store.view (s : Store) (hidden : List Var) (age : Nat) (scope : List Var) : View :=
  ⟨s.visible hidden, age, scope⟩

theorem Store.visible_eq_some {c : LetClause} :
    s.visible hidden i = some c ↔ i ∉ hidden.map Var.serial ∧ s.clauses.get? i = some c := by
  unfold Store.visible
  split
  next h => simp [h]
  next h => simp [h]

/-! ## The store -/

/-- A variable that has come into use between two stores. -/
structure NewVar (s s' : Store) (y : Var) : Prop where
  old : s.next ≤ y.serial
  new : y.serial < s'.next
  clauses : ∀ i, i ≠ y.serial → s'.clauses.get? i = s.clauses.get? i

theorem Store.visible_unhide (i : Nat) (c : LetClause)
    (hc : s.visible (y :: hidden) i = some c) : s.visible hidden i = some c := by
  obtain ⟨hi, hc⟩ := Store.visible_eq_some.mp hc
  exact Store.visible_eq_some.mpr ⟨fun hmem => hi (.tail _ hmem), hc⟩

theorem NewVar.visible {s' : Store} (h : NewVar s s' y) (hs : s.Numbered) (i : Nat)
    (c : LetClause) (hc : s.visible hidden i = some c) : s'.visible (y :: hidden) i = some c := by
  obtain ⟨hi, hc⟩ := Store.visible_eq_some.mp hc
  have hne : i ≠ y.serial := Nat.ne_of_lt ((hs i c hc).trans_le h.old)
  refine Store.visible_eq_some.mpr ⟨?_, (h.clauses i hne).trans hc⟩
  simp only [List.map_cons, List.mem_cons, not_or]
  exact ⟨hne, hi⟩

/-- The scope `ys` of a copy. Its variables are hidden and not older than `k`, and from the
inside to the outside they get older. -/
structure Scoping (s : Store) (hidden : List Var) (k : Nat) (ys : List Var) : Prop where
  numbered : s.Numbered
  age : k ≤ s.next
  old : ∀ y ∈ hidden, y.serial < s.next
  young : ∀ y ∈ ys, k ≤ y.serial
  hides : ∀ y ∈ ys, y ∈ hidden
  descending : ys.Pairwise fun y z => z.serial < y.serial

namespace Scoping

variable {s s' : Store} {hidden xs ys : List Var} {k : Nat} {y : Var}

theorem start (hs : s.Numbered) : Scoping s [] s.next [] :=
  ⟨hs, le_rfl, by simp, by simp, by simp, .nil⟩

variable (h : Scoping s hidden k ys)

include h

theorem grow (hnext : s.next ≤ s'.next) (hs' : s'.Numbered) : Scoping s' hidden k ys :=
  ⟨hs', h.age.trans hnext, fun y hy => (h.old y hy).trans_le hnext, h.young,
    h.hides, h.descending⟩

theorem suffix (hxs : xs <:+ ys) : Scoping s hidden k xs :=
  ⟨h.numbered, h.age, h.old, fun y hy => h.young y (hxs.subset hy),
    fun y hy => h.hides y (hxs.subset hy), h.descending.sublist hxs.sublist⟩

theorem older (hy : NewVar s s' y) : ∀ z ∈ ys, z.serial < y.serial :=
  fun z hz => (h.old z (h.hides z hz)).trans_le hy.old

/-- Going under a binder. -/
theorem bind (hy : NewVar s s' y) (hs' : s'.Numbered) : Scoping s' (y :: hidden) k (y :: ys) where
  numbered := hs'
  age := h.age.trans (hy.old.trans hy.new.le)
  old z hz := by
    rcases List.mem_cons.mp hz with rfl | hz
    · exact hy.new
    · exact ((h.old z hz).trans_le hy.old).trans hy.new
  young z hz := by
    rcases List.mem_cons.mp hz with rfl | hz
    · exact h.age.trans hy.old
    · exact h.young z hz
  hides z hz := by
    rcases List.mem_cons.mp hz with rfl | hz
    · exact .head _
    · exact .tail _ (h.hides z hz)
  descending := List.pairwise_cons.mpr ⟨h.older hy, h.descending⟩

end Scoping

/-- A way of reading what a traversal copies, and what the traversal leaves as it is. -/
structure Reading where
  /-- What a term reads as in the scope `ys`, where free variables are older than `k`. The let
  clauses of hidden variables are out of sight. -/
  reads (s : Store) (hidden : List Var) (k : Nat) (ys : List Var) (t : Term) (n : Indexed) : Prop
  /-- What else stays on the way from the one store to the other. -/
  Same : Store → Store → Prop
  /-- What may become of the reading of a definition. -/
  Becomes : Store → Indexed → Indexed → Prop
  /-- The term in a scope with one more variable. -/
  shift : Indexed → Indexed
  mono {s s' : Store} {hidden hidden' ys : List Var} {k : Nat} {t : Term} {n : Indexed}
    (hvisible : ∀ i c, s.visible hidden i = some c → s'.visible hidden' i = some c)
    (hsame : Same s s') : reads s hidden k ys t n → reads s' hidden' k ys t n
  weaken {s : Store} {hidden ys : List Var} {k : Nat} {t : Term} {n : Indexed} {y : Var}
    (hy : y ∉ ys) (hage : k ≤ y.serial) :
    reads s hidden k ys t n → reads s hidden k (y :: ys) t (shift n)
  bound {s : Store} {hidden ys : List Var} {k stamp i : Nat} {x : Var}
    (hx : ys.idxOf? x = some i) : reads s hidden k ys (.mk stamp (.ref x)) (.bound i)
  free {s : Store} {hidden ys : List Var} {k stamp : Nat} {x : Var} (hx : x ∉ ys)
    (hkind : x.kind ≠ .clause) (hage : x.serial < k) :
    reads s hidden k ys (.mk stamp (.ref x)) (.free x)
  same {s s' : Store} : s'.unknowns = s.unknowns → s'.solutions = s.solutions →
    s'.mappings = s.mappings → Same s s'
  same_trans {s s' s'' : Store} : Same s s' → Same s' s'' → Same s s''
  becomes_refl (s : Store) (m : Indexed) : Becomes s m m
  becomes_trans {s : Store} {m m' m'' : Indexed} :
    Becomes s m m' → Becomes s m' m'' → Becomes s m m''
  becomes_later {s s' : Store} {m m' : Indexed} : Same s s' → Becomes s m m' → Becomes s' m m'

/-- What a traversal does to the store, on the way to a copy in the scope `ys`: definitions of
let clauses become others. -/
structure Redefines (L : Reading) (hidden : List Var) (k : Nat) (ys : List Var) (s s' : Store) :
    Prop where
  next : s.next ≤ s'.next
  numbered : s.Numbered → s'.Numbered
  same : L.Same s s'
  frame : ∀ i c, i ∉ ys.map Var.serial → s.clauses.get? i = some c → s'.clauses.get? i = some c
  definition : ∀ x xs, (x :: xs) <:+ ys → x.kind = .clause → ∀ c m,
    s.clauses.get? x.serial = some c → L.reads s hidden k xs c.expr m →
    ∃ e m', s'.clauses.get? x.serial = some { c with expr := e } ∧
      L.reads s' hidden k xs e m' ∧ L.Becomes s' m m'

section Redefines

variable {L : Reading} {hidden xs ys : List Var} {k : Nat} {s s' s'' : Store}

theorem Quiet.redefines {σ : Substitution} (h : Quiet σ s s') (hsame : L.Same s s') :
    Redefines L hidden k ys s s' where
  next := h.next
  numbered hs i c hc := by
    rw [h.clauses] at hc
    exact (hs i c hc).trans_le h.next
  same := hsame
  frame i c _ hc := by
    rw [h.clauses]
    exact hc
  definition x xs _ _ c m hc hm := by
    have hvisible : s'.visible hidden = s.visible hidden := by
      unfold Store.visible
      rw [h.clauses]
    rw [h.clauses]
    exact ⟨c.expr, m, hc, L.mono (fun _ _ => by rw [hvisible]; exact id) hsame hm,
      L.becomes_refl _ m⟩

theorem Redefines.tick (i : Nat) : Redefines L hidden k ys s { s with next := s.next + i } :=
  (Quiet.tick .identity s i).redefines (L.same rfl rfl rfl)

theorem Redefines.refl : Redefines L hidden k ys s s := .tick 0

theorem Redefines.trans (h : Redefines L hidden k ys s s') (h' : Redefines L hidden k ys s' s'') :
    Redefines L hidden k ys s s'' where
  next := h.next.trans h'.next
  numbered hs := h'.numbered (h.numbered hs)
  same := L.same_trans h.same h'.same
  frame i c hi hc := h'.frame i c hi (h.frame i c hi hc)
  definition x xs hx hkind c m hc hm := by
    obtain ⟨e, m', he, hm', hmm'⟩ := h.definition x xs hx hkind c m hc hm
    obtain ⟨e', m'', he', hm'', hmm''⟩ := h'.definition x xs hx hkind _ m' he hm'
    exact ⟨e', m'', he', hm'', L.becomes_trans (L.becomes_later h'.same hmm') hmm''⟩

/-- Clauses that are visible stay as they are. -/
theorem Redefines.visible (h : Redefines L hidden k ys s s') (hsub : ∀ y ∈ ys, y ∈ hidden) (i : Nat)
    (c : LetClause) (hc : s.visible hidden i = some c) : s'.visible hidden i = some c := by
  obtain ⟨hi, hc⟩ := Store.visible_eq_some.mp hc
  refine Store.visible_eq_some.mpr ⟨hi, h.frame i c (fun hmem => hi ?_) hc⟩
  obtain ⟨y, hy, rfl⟩ := List.mem_map.mp hmem
  exact List.mem_map_of_mem (hsub y hy)

variable {y : Var}

/-- Leaving the scope of a variable that came into use on the way. -/
theorem Redefines.close (h : Redefines L (y :: hidden) k (y :: ys) s' s'') (hy : NewVar s s' y)
    (hsame : L.Same s s') (hs : s.Numbered) (hs' : s'.Numbered) :
    Redefines L hidden k ys s s'' where
  next := by
    have := hy.old
    have := hy.new
    have := h.next
    omega
  numbered _ := h.numbered hs'
  same := L.same_trans hsame h.same
  frame i c hi hc := by
    have hne : i ≠ y.serial := Nat.ne_of_lt ((hs i c hc).trans_le hy.old)
    refine h.frame i c ?_ ((hy.clauses i hne).trans hc)
    simp only [List.map_cons, List.mem_cons, not_or]
    exact ⟨hne, hi⟩
  definition x xs hx hkind c m hc hm := by
    have hne : x.serial ≠ y.serial := Nat.ne_of_lt ((hs _ c hc).trans_le hy.old)
    obtain ⟨e, m', he, hm', hmm'⟩ := h.definition x xs (hx.trans (List.suffix_cons y ys)) hkind
      c m ((hy.clauses _ hne).trans hc) (L.mono (hy.visible hs) hsame hm)
    exact ⟨e, m', he, L.mono Store.visible_unhide (L.same rfl rfl rfl) hm', hmm'⟩

/-- The definition of a let clause in scope is rewritten, after what was done to the clauses
around it. -/
theorem Redefines.update {c : LetClause} {e : Term} (h : Redefines L hidden k xs s s')
    (hys : Scoping s hidden k ys) (hsuffix : (x :: xs) <:+ ys)
    (hc : s.clauses.get? x.serial = some c)
    (hread : ∀ m, L.reads s hidden k xs c.expr m →
      ∃ m', L.reads s' hidden k xs e m' ∧ L.Becomes s' m m') :
    Redefines L hidden k ys s
      { s' with clauses := s'.clauses.insert x.serial { c with expr := e } } := by
  let s'' : Store := { s' with clauses := s'.clauses.insert x.serial { c with expr := e } }
  have hx : x ∈ ys := hsuffix.subset (.head _)
  have hxs : ∀ z ∈ xs, z ∈ ys := fun z hz => hsuffix.subset (.tail _ hz)
  have hself : s''.clauses.get? x.serial = some { c with expr := e } :=
    Table.get?_insert_self _ _ _
  have hother : ∀ i, i ≠ x.serial → s''.clauses.get? i = s'.clauses.get? i :=
    fun i hi => Table.get?_insert_of_ne _ _ hi
  have holder := (List.pairwise_cons.mp (hys.descending.sublist hsuffix.sublist)).1
  have hsame : L.Same s' s'' := L.same rfl rfl rfl
  -- the clause itself is hidden, so nothing that is read can tell the difference
  have hvisible : ∀ i c', s'.visible hidden i = some c' → s''.visible hidden i = some c' := by
    intro i c' hc'
    obtain ⟨hi, hc'⟩ := Store.visible_eq_some.mp hc'
    refine Store.visible_eq_some.mpr ⟨hi, (hother i ?_).trans hc'⟩
    rintro rfl
    exact hi (List.mem_map_of_mem (hys.hides x hx))
  refine ⟨h.next, fun hs i c' hc' => ?_, L.same_trans h.same hsame, fun i c' hi hc' => ?_, ?_⟩
  · by_cases hi : i = x.serial
    · rw [hi]
      exact (hys.old x (hys.hides x hx)).trans_le h.next
    · exact h.numbered hs i c' ((hother i hi).symm.trans hc')
  · refine (hother i fun heq => hi (heq ▸ List.mem_map_of_mem hx)).trans ?_
    refine h.frame i c' (fun hmem => hi ?_) hc'
    obtain ⟨z, hz, rfl⟩ := List.mem_map.mp hmem
    exact List.mem_map_of_mem (hxs z hz)
  · intro z zs hz hzkind c' m₁ hc' hm₁
    -- the clause itself, one of those around it, or one that is defined inside of its scope
    have hrewritten : x :: xs = z :: zs → ∃ e' m', s''.clauses.get? z.serial =
        some { c' with expr := e' } ∧ L.reads s'' hidden k zs e' m' ∧ L.Becomes s'' m₁ m' := by
      intro heq
      obtain ⟨rfl, rfl⟩ := List.cons.inj heq
      obtain rfl := Option.some.inj (hc.symm.trans hc')
      obtain ⟨m', hm', hmm'⟩ := hread m₁ hm₁
      exact ⟨e, m', hself, L.mono hvisible hsame hm', L.becomes_later hsame hmm'⟩
    rcases List.suffix_or_suffix_of_suffix hz hsuffix with hz' | hz'
    · rcases List.suffix_cons_iff.mp hz' with heq | hz'
      · exact hrewritten heq.symm
      · have hne : z.serial ≠ x.serial := Nat.ne_of_lt (holder z (hz'.subset (.head _)))
        obtain ⟨e', m', he', hm', hmm'⟩ := h.definition z zs hz' hzkind c' m₁ hc' hm₁
        exact ⟨e', m', (hother _ hne).trans he', L.mono hvisible hsame hm',
          L.becomes_later hsame hmm'⟩
    · rcases List.suffix_cons_iff.mp hz' with heq | hz'
      · exact hrewritten heq
      · have hnewer : x.serial < z.serial :=
          (List.pairwise_cons.mp (hys.descending.sublist hz.sublist)).1 x
            (hz'.subset (.head _))
        have hframe : s'.clauses.get? z.serial = some c' := by
          refine h.frame _ c' (fun hmem => ?_) hc'
          obtain ⟨w, hw, heq⟩ := List.mem_map.mp hmem
          have := holder w hw
          omega
        have hkept := L.mono (h.visible fun y hy => hys.hides y (hxs y hy)) h.same hm₁
        exact ⟨c'.expr, m₁, (hother _ (Nat.ne_of_gt hnewer)).trans hframe,
          L.mono hvisible hsame hkept, L.becomes_refl _ m₁⟩

end Redefines

/-! ## Stages -/

/-- What is looked up further out shows one place further out. -/
theorem idxOf?_cons_of_ne {z : Var} (hz : z ≠ x) (h : (x :: scope).idxOf? z = some i) :
    ∃ j, i = j + 1 ∧ scope.idxOf? z = some j := by
  have hne : (x == z) = false := by simpa using hz.symm
  rw [List.idxOf?_cons] at h
  simp only [hne, Bool.false_eq_true, if_false, Option.map_eq_some_iff] at h
  obtain ⟨j, hj, rfl⟩ := h
  exact ⟨j, rfl, hj⟩

theorem idxOf?_cons_self (h : (x :: scope).idxOf? x = some i) : i = 0 := by
  rw [List.idxOf?_cons, beq_self_eq_true, if_pos rfl] at h
  exact (Option.some.inj h).symm

theorem Substitution.get?_bind_self (σ : Substitution) (x : Var) (t : Term) :
    (σ.bind x t).exprs.get? (.local x) = some t := Mapping.get?_insert_self _ _ _

theorem Substitution.get?_bind_of_ne (σ : Substitution) {z : Var} (t : Term) (h : z ≠ x) :
    (σ.bind x t).exprs.get? (.local z) = σ.exprs.get? (.local z) :=
  Mapping.get?_insert_of_ne _ _ (by simpa using h)

/-- What the substitution puts in place of the variable reads as the indexed term. -/
def Reading.Replaces (L : Reading) (s : Store) (hidden : List Var) (k : Nat) (ys : List Var)
    (σ : Substitution) (x : Var) (n : Indexed) : Prop :=
  ∀ stamp, L.reads s hidden k ys ((σ.exprs.get? (.local x)).getD (.mk stamp (.ref x))) n

/-- The stage of a traversal: it copies terms that are read in the scope `inner` under the view
`V`, into the scope `ys`, where free variables are older than `k`. If it is closed, the let
clauses of the outer part of the scope are out of reach. -/
structure Staging (L : Reading) (s : Store) (σ : Substitution) (bound : Nat → Indexed)
    (free : Var → Indexed) (V : View) (closed : Bool) (inner hidden : List Var) (k : Nat)
    (ys : List Var) : Prop extends Scoping s hidden k ys where
  /-- The let clauses in scope of the copy have definitions. -/
  defined : ∀ x xs, (x :: xs) <:+ ys → x.kind = .clause → ∃ c m,
    s.clauses.get? x.serial = some c ∧ L.reads s hidden k xs c.expr m
  shows : ∀ i c, V.clauses i = some c → s.visible hidden i = some c
  bound : ∀ x i, (inner ++ V.outer).idxOf? x = some i → L.Replaces s hidden k ys σ x (bound i)
  free : ∀ x, x ∉ inner ++ V.outer → x.kind ≠ .clause → x.serial < V.age →
    L.Replaces s hidden k ys σ x (free x)
  /-- The let clauses that the term binds are replaced by their copies. -/
  mapped : ∀ x ∈ inner, x.kind = .clause → (σ.exprs.get? (.local x)).isSome
  /-- The other let clauses are older than what is replaced. -/
  newer : closed = false → ∀ x ∈ V.outer, x.kind = .clause → x ∉ inner →
    (∀ z ∈ inner, x.serial < z.serial) →
    σ.levels = .empty ∧ ∀ z u, σ.exprs.get? (.local z) = some u → x.serial < z.serial

namespace Staging

variable {L : Reading} {s s' : Store} {σ : Substitution} {bound bound' : Nat → Indexed}
  {free free' : Var → Indexed} {V : View} {closed : Bool} {inner hidden xs ys : List Var} {k : Nat}
  (h : Staging L s σ bound free V closed inner hidden k ys)

include h

theorem grow (hs : Redefines L hidden k ys s s') :
    Staging L s' σ bound free V closed inner hidden k ys where
  toScoping := h.toScoping.grow hs.next (hs.numbered h.numbered)
  defined x xs hx hkind := by
    obtain ⟨c, m, hc, hm⟩ := h.defined x xs hx hkind
    obtain ⟨e, m', he, hm', -⟩ := hs.definition x xs hx hkind c m hc hm
    exact ⟨_, m', he, hm'⟩
  shows i c hc := hs.visible h.hides i c (h.shows i c hc)
  bound x i hi stamp := L.mono (hs.visible h.hides) hs.same (h.bound x i hi stamp)
  free x hx hkind hage stamp := L.mono (hs.visible h.hides) hs.same (h.free x hx hkind hage stamp)
  mapped := h.mapped
  newer := h.newer

/-- Going under a binder, whose copy is new. -/
theorem bind {ref : Term} (hy : NewVar s s' y) (hsame : L.Same s s')
    (hs' : s'.Numbered) (href : ref.node = .ref y)
    (hdef : y.kind = .clause → ∃ c m, s'.clauses.get? y.serial = some c ∧
      L.reads s hidden k ys c.expr m)
    (hzero : bound' 0 = .bound 0) (hsucc : ∀ i, bound' (i + 1) = L.shift (bound i))
    (hfree : ∀ x, free' x = L.shift (free x)) :
    Staging L s' (σ.bind x ref) bound' free' V closed (x :: inner) (y :: hidden) k (y :: ys) := by
  obtain ⟨stamp, node⟩ := ref
  obtain rfl : node = .ref y := href
  have hfresh : ∀ z ∈ ys, z.serial < y.serial := h.older hy
  have hnot : y ∉ ys := fun hmem => Nat.lt_irrefl _ (hfresh y hmem)
  have hvisible : ∀ i c, s.visible hidden i = some c → s'.visible (y :: hidden) i = some c :=
    hy.visible h.numbered
  have hreplaces : ∀ z n, z ≠ x → L.Replaces s hidden k ys σ z n →
      L.Replaces s' (y :: hidden) k (y :: ys) (σ.bind x (.mk stamp (.ref y))) z (L.shift n) := by
    intro z n hz hn stamp'
    rw [σ.get?_bind_of_ne _ hz]
    exact L.mono hvisible hsame (L.weaken hnot (h.age.trans hy.old) (hn stamp'))
  refine ⟨h.toScoping.bind hy hs', ?_, fun i c hc => hvisible i c (h.shows i c hc), ?_, ?_, ?_, ?_⟩
  · intro z zs hz hkind
    rcases List.suffix_cons_iff.mp hz with heq | hz
    · obtain ⟨rfl, rfl⟩ := List.cons.inj heq
      obtain ⟨c, m, hc, hm⟩ := hdef hkind
      exact ⟨c, m, hc, L.mono hvisible hsame hm⟩
    · obtain ⟨c, m, hc, hm⟩ := h.defined z zs hz hkind
      have hne : z.serial ≠ y.serial :=
        Nat.ne_of_lt (hfresh z (hz.subset (.head _)))
      exact ⟨c, m, (hy.clauses _ hne).trans hc, L.mono hvisible hsame hm⟩
  · intro z i hi
    rw [List.cons_append] at hi
    by_cases hz : z = x
    · subst hz
      obtain rfl := idxOf?_cons_self hi
      intro stamp'
      rw [σ.get?_bind_self, hzero]
      exact L.bound (by simp [List.idxOf?_cons])
    · obtain ⟨j, rfl, hj⟩ := idxOf?_cons_of_ne hz hi
      exact hsucc j ▸ hreplaces z _ hz (h.bound z j hj)
  · intro z hz hkind hage
    simp only [List.cons_append, List.mem_cons, not_or] at hz
    exact hfree z ▸ hreplaces z _ hz.1 (h.free z hz.2 hkind hage)
  · intro z hz hkind
    by_cases hzx : z = x
    · subst hzx
      rw [σ.get?_bind_self]
      rfl
    · rw [σ.get?_bind_of_ne _ hzx]
      exact h.mapped z ((List.mem_cons.mp hz).resolve_left hzx) hkind
  · intro hopen z hz hkind hnotin hall
    rw [List.forall_mem_cons] at hall
    obtain ⟨hlevels, hkeys⟩ := h.newer hopen z hz hkind
      (fun hmem => hnotin (.tail _ hmem)) hall.2
    refine ⟨hlevels, fun w u hw => ?_⟩
    by_cases hwx : w = x
    · exact hwx ▸ hall.1
    · rw [σ.get?_bind_of_ne _ hwx] at hw
      exact hkeys w u hw

/-- The substitution finds nothing to replace in the definition of a let clause that is older
than all it replaces. -/
theorem definition (hx : (x :: xs) <:+ ys) (hlevels : σ.levels = .empty)
    (hkeys : ∀ z u, σ.exprs.get? (.local z) = some u → x.serial < z.serial) :
    Staging L s σ .bound .free (s.view hidden k xs) false [] hidden k xs := by
  have hxs : xs <:+ ys := (List.suffix_cons x xs).trans hx
  have holder := (List.pairwise_cons.mp (h.descending.sublist hx.sublist)).1
  have hnone : ∀ z : Var, z.serial < x.serial → σ.exprs.get? (.local z) = none := by
    intro z hz
    cases hget : σ.exprs.get? (.local z) with
    | none => rfl
    | some u => exact absurd (hkeys z u hget) (Nat.lt_asymm hz)
  refine ⟨h.toScoping.suffix hxs, fun y ys' hy => h.defined y ys' (hy.trans hxs),
    fun _ _ hc => hc, ?_, ?_, by simp, ?_⟩
  · intro z i hi stamp
    have hi : xs.idxOf? z = some i := hi
    have hmem : z ∈ xs := by
      by_contra hz
      rw [List.idxOf?_eq_none_iff.mpr hz] at hi
      cases hi
    rw [hnone z (holder z hmem)]
    exact L.bound hi
  · intro z hz hkind hage stamp
    have hold : z.serial < x.serial :=
      hage.trans_le (h.young x (hx.subset (.head _)))
    rw [hnone z hold]
    exact L.free hz hkind hage
  · intro _ z hz _ _ _
    exact ⟨hlevels, fun w u hw => (holder z hz).trans (hkeys w u hw)⟩

/-- The stage of a contraction, in which a bound variable is replaced whose binder is
gone. -/
theorem contract {arg : Term} {a : Indexed} (ha : L.reads s hidden k ys arg a)
    (hzero : bound' 0 = a) (hsucc : ∀ i, bound' (i + 1) = .bound i) :
    Staging L s (.single x arg) bound' .free (s.view hidden k ys) false [x] hidden k ys := by
  have hself : (Substitution.single x arg).exprs.get? (.local x) = some arg :=
    Mapping.get?_insert_self _ _ _
  have hother : ∀ z, z ≠ x → (Substitution.single x arg).exprs.get? (.local z) = none :=
    fun z hz => Mapping.get?_insert_of_ne _ _ (by simpa using hz)
  refine ⟨h.toScoping, h.defined, fun _ _ hc => hc, ?_, ?_, ?_, ?_⟩
  · intro z i hi stamp
    rw [List.singleton_append] at hi
    by_cases hz : z = x
    · subst hz
      obtain rfl := idxOf?_cons_self hi
      rw [hself, hzero]
      exact ha
    · obtain ⟨j, rfl, hj⟩ := idxOf?_cons_of_ne hz hi
      rw [hother z hz, hsucc]
      exact L.bound hj
  · intro z hz hkind hage stamp
    rw [List.singleton_append, List.mem_cons, not_or] at hz
    rw [hother z hz.1]
    exact L.free hz.2 hkind hage
  · intro z hz _
    obtain rfl := List.mem_singleton.mp hz
    rw [hself]
    rfl
  · intro _ z _ _ _ hall
    refine ⟨rfl, fun w u hw => ?_⟩
    by_cases hwx : w = x
    · exact hwx ▸ hall x (by simp)
    · rw [hother w hwx] at hw
      cases hw

end Staging

/-! ## Readings without names -/

/-- Terms are read without names, and definitions are contracted at most. -/
def Signature.reading (sig : Signature) : Reading where
  reads s hidden k ys t n := Reads sig (s.view hidden k ys) [] (.term t) n
  Same _ _ := True
  Becomes _ := Relation.ReflTransGen (Subst .id)
  shift := Indexed.shift 0
  mono hvisible _ h := h.mono ⟨hvisible, Nat.le_refl _, rfl⟩
  weaken hy hage h := h.weaken hy hage
  bound hx := .bound hx (by simp)
  free hx hkind hage := .free hx hkind hage
  same _ _ _ := trivial
  same_trans _ _ := trivial
  becomes_refl _ _ := .refl
  becomes_trans := .trans
  becomes_later _ h := h

/-- What a traversal does to the store: the definitions of let clauses are contracted at
most. -/
abbrev Grows (sig : Signature) : List Var → Nat → List Var → Store → Store → Prop :=
  Redefines sig.reading

/-- The stage of a traversal that acts on readings as the environment does. -/
structure Stage (sig : Signature) (s : Store) (σ : Substitution) (ρ : Env) (V : View)
    (inner hidden : List Var) (k : Nat) (ys : List Var) : Prop extends
    Staging sig.reading s σ ρ.bound ρ.free V false inner hidden k ys where
  levels : ρ.levels = σ.levels
  fields : ∀ f, σ.exprs.get? (.field f) = none

section Stages

variable {sig : Signature} {s s' : Store} {σ : Substitution} {ρ : Env} {V : View}
variable {inner hidden xs ys : List Var} {k : Nat} {y : Var}

theorem Quiet.grows (h : Quiet σ s s') : Grows sig hidden k ys s s' := h.redefines trivial

theorem Redefines.view_le {L : Reading} (h : Redefines L hidden k ys s s')
    (hsub : ∀ y ∈ ys, y ∈ hidden) (a : Nat) (scope : List Var) :
    (s.view hidden a scope).Le (s'.view hidden a scope) :=
  ⟨h.visible hsub, le_rfl, rfl⟩

theorem Store.view_unhide (s : Store) (y : Var) (hidden : List Var) (k : Nat)
    (scope : List Var) : (s.view (y :: hidden) k scope).Le (s.view hidden k scope) :=
  ⟨fun _ _ => Store.visible_unhide _ _, le_rfl, rfl⟩

theorem NewVar.view_le (h : NewVar s s' y) (hs : s.Numbered) (hidden : List Var) (k : Nat)
    (scope : List Var) : (s.view hidden k scope).Le (s'.view (y :: hidden) k scope) :=
  ⟨h.visible hs, le_rfl, rfl⟩

variable (h : Stage sig s σ ρ V inner hidden k ys)

include h

theorem Stage.grow (hs : Grows sig hidden k ys s s') : Stage sig s' σ ρ V inner hidden k ys :=
  ⟨h.toStaging.grow hs, h.levels, h.fields⟩

theorem Stage.bind {ref : Term} (hy : NewVar s s' y) (hs' : s'.Numbered) (href : ref.node = .ref y)
    (hdef : y.kind = .clause → ∃ c m, s'.clauses.get? y.serial = some c ∧
      Reads sig (s.view hidden k ys) [] (.term c.expr) m) :
    Stage sig s' (σ.bind x ref) ρ.lift V (x :: inner) (y :: hidden) k (y :: ys) where
  toStaging := h.toStaging.bind hy trivial hs' href hdef rfl (fun _ => rfl) fun _ => rfl
  levels := h.levels
  fields f := by
    rw [Substitution.bind, Mapping.get?_insert_of_ne _ _ (by simp)]
    exact h.fields f

theorem Stage.definition (hx : (x :: xs) <:+ ys) (hlevels : σ.levels = .empty)
    (hkeys : ∀ z u, σ.exprs.get? (.local z) = some u → x.serial < z.serial) :
    Stage sig s σ .id (s.view hidden k xs) [] hidden k xs :=
  ⟨h.toStaging.definition hx hlevels hkeys, hlevels.symm, h.fields⟩

theorem Stage.contract {arg : Term} {a : Indexed}
    (ha : Reads sig (s.view hidden k ys) [] (.term arg) a) :
    Stage sig s (.single x arg) (.single a) (s.view hidden k ys) [x] hidden k ys :=
  ⟨h.toStaging.contract ha rfl fun _ => rfl, rfl, fun _ => Mapping.get?_insert_of_ne _ _ (by simp)⟩

end Stages

/-! ## Copies -/

/-- The subterms read as what substitution makes of the parts. -/
def Copied (sig : Signature) (s : Store) (hidden : List Var) (k : Nat) (ys : List Var) (ρ : Env)
    (parts : List Indexed) (subs : List (Scoped Piece)) : Prop :=
  ∃ parts', ReadsAll sig (s.view hidden k ys) [] subs parts' ∧
    List.Forall₂ (Subst ρ) parts parts'

section Copies

variable {sig : Signature} {s s' : Store} {hidden ys : List Var} {k : Nat} {ρ : Env}
variable {parts parts' : List Indexed} {subs subs' : List (Scoped Piece)}

theorem Copied.nil : Copied sig s hidden k ys ρ [] [] := ⟨[], .nil, .nil⟩

theorem Copied.append (h : Copied sig s hidden k ys ρ parts subs)
    (h' : Copied sig s hidden k ys ρ parts' subs') :
    Copied sig s hidden k ys ρ (parts ++ parts') (subs ++ subs') := by
  obtain ⟨ms, hreads, hsubst⟩ := h
  obtain ⟨ms', hreads', hsubst'⟩ := h'
  exact ⟨ms ++ ms', List.rel_append hreads hreads', List.rel_append hsubst hsubst'⟩

theorem Copied.grow (h : Copied sig s hidden k ys ρ parts subs) (hs : Grows sig hidden k ys s s')
    (hsub : ∀ y ∈ ys, y ∈ hidden) : Copied sig s' hidden k ys ρ parts subs := by
  obtain ⟨ms, hreads, hsubst⟩ := h
  exact ⟨ms, hreads.mono (hs.view_le hsub k ys), hsubst⟩

theorem Copied.term {t : Term} {n n' : Indexed}
    (ht : Reads sig (s.view hidden k ys) [] (.term t) n') (h : Subst ρ n n') :
    Copied sig s hidden k ys ρ [n] (pieces (unscoped [t])) :=
  ⟨[n'], readsAll_terms_iff.mpr (.cons ht .nil), .cons h .nil⟩

/-- Leaving the scope of a binder. -/
theorem Copied.close (h : Copied sig s (y :: hidden) k (y :: ys) ρ.lift parts subs)
    (hy : ∀ z ∈ ys, z.serial < y.serial) :
    Copied sig s hidden k ys ρ (parts.map .abs) (inScopeOf [y] subs) := by
  obtain ⟨ms, hreads, hsubst⟩ := h
  refine ⟨ms.map .abs, readsAll_binder_iff.mpr ⟨ms, rfl, hreads.imp ?_⟩, ?_⟩
  · rintro q m ⟨r, rfl, hr⟩
    refine ⟨r, rfl, ?_⟩
    have hr' : Reads sig (s.view hidden k ys) (q.1 ++ [] ++ [y]) q.2 r :=
      (hr.mono (s.view_unhide y hidden k (y :: ys))).shrink rfl hy
    simpa using hr'
  · rw [List.forall₂_map_left_iff, List.forall₂_map_right_iff]
    exact hsubst.imp fun _ _ => .abs

end Copies

/-! ## Traversals -/

namespace Traversal

/-- The recursive call of a traversal acts on readings as substitution. -/
def Simulates (sig : Signature) (self : Substitution → Term → Traversal Term) : Prop :=
  ∀ {s σ ρ V inner hidden k ys t n}, Stage sig s σ ρ V inner hidden k ys →
    Reads sig V inner (.term t) n → Yields (self σ t) s fun t' s' => Grows sig hidden k ys s s' ∧
      ∃ n', Reads sig (s'.view hidden k ys) [] (.term t') n' ∧ Subst ρ n n'

section Scopes

variable {A : Type} {s : Store} {σ : Substitution}
variable {Q : A → Store → Prop}

theorem yields_enter (x : Var) (ref : Term) :
    Yields (enter σ x ref) s fun σ' s' =>
      σ' = σ.bind x ref ∧ s'.clauses = s.clauses ∧ s'.next = s.next := by
  refine .seq (Yields.modify (.pure ⟨rfl, ?_⟩))
  exact ⟨(Quiet.onShared _ _ _).clauses, Substitution.onShared_next _ _ _⟩

/-- A new let clause and the reference to it. -/
theorem yields_newClause {f : Var → Substitution → Traversal A} (name : String) (expr : Term)
    (type : Option Term) (hs : s.Numbered)
    (hf : ∀ y ref s₁, NewVar s s₁ y → s₁.Numbered → Quiet σ { s with clauses := s₁.clauses } s₁ →
      y.kind = .clause → ref.node = .ref y → s₁.clauses.get? y.serial = some ⟨expr, type⟩ →
      Yields (f y (σ.bind x ref)) s₁ Q) :
    Yields (do
      let y ← Core.newClause name expr type
      let ref ← Core.build (.ref y)
      let σ ← enter σ x ref
      f y σ : Traversal A) s Q := by
  let y : Var := ⟨s.next, .clause, name⟩
  refine .seq (Yields.lift (.seq (Yields.freshVar (.seq (Yields.modify (.pure ?_))))))
  refine .seq (Yields.build ?_).lift
  refine Yields.bind (enters x _).lift ?_
  rintro _ s₁ ⟨rfl, hquiet, -⟩
  have hnext : s.next + 1 + 1 ≤ s₁.next := hquiet.next
  have hget : s₁.clauses.get? y.serial = some ⟨expr, type⟩ := by
    rw [hquiet.clauses]
    exact Table.get?_insert_self _ _ _
  have hother : ∀ i, i ≠ y.serial → s₁.clauses.get? i = s.clauses.get? i := fun i hi => by
    rw [hquiet.clauses]
    exact Table.get?_insert_of_ne _ _ hi
  have hnew : NewVar s s₁ y := ⟨le_rfl, show s.next < s₁.next by omega, hother⟩
  refine hf y _ s₁ hnew (fun i c hc => ?_) ?_ rfl rfl hget
  · by_cases hi : i = y.serial
    · exact hi ▸ hnew.new
    · rw [hother i hi] at hc
      exact ((hs i c hc).trans_le hnew.old).trans hnew.new
  · exact ⟨show s.next ≤ s₁.next by omega, rfl, hquiet.unknowns, hquiet.solutions, hquiet.mappings,
      hquiet.others⟩

/-- The definition of a let clause is rewritten by what the recursive call makes of it, unless
that has been done before. -/
theorem yields_updateClause {Q : Unit → Store → Prop} (hdone : Q () s)
    (hself : ∀ c, s.clauses.get? x.serial = some c → Yields (self σ c.expr) s fun e s₁ =>
      Q () { s₁ with clauses := s₁.clauses.insert x.serial { c with expr := e } }) :
    Yields (updateClause self σ x) s Q := by
  unfold updateClause
  refine .seq (Yields.getT fun done => ?_)
  split
  · refine .seq (Yields.modifyT (.seq (Yields.clause fun c hc => ?_).lift))
    exact (hself c hc).bind fun e s₁ he => Yields.lift (Yields.modify he)
  · exact .pure hdone

/-- Updating the definition of a let clause does to the store what the recursive call does in
the scope of the definition. -/
theorem redefines_updateClause {L : Reading} {bound : Nat → Indexed} {free : Var → Indexed}
    {V : View} {closed : Bool} {inner hidden ys : List Var} {k : Nat}
    (h : Staging L s σ bound free V closed inner hidden k ys) (hx : x ∈ ys) (hkind : x.kind = .clause)
    (hself : ∀ xs t m, (x :: xs) <:+ ys → L.reads s hidden k xs t m → Yields (self σ t) s
      fun t' s₁ => Redefines L hidden k xs s s₁ ∧ ∃ m', L.reads s₁ hidden k xs t' m' ∧
        L.Becomes s₁ m m') :
    Yields (updateClause self σ x) s fun _ s' => Redefines L hidden k ys s s' := by
  obtain ⟨pre, xs, hys⟩ := List.append_of_mem hx
  have hsuffix : (x :: xs) <:+ ys := ⟨pre, hys.symm⟩
  obtain ⟨c, m, hc, hm⟩ := h.defined x xs hsuffix hkind
  refine yields_updateClause .refl fun c' hc' e s₁ he => ?_
  cases hc.symm.trans hc'
  refine (hself xs _ m hsuffix hm e s₁ he).1.update h.toScoping hsuffix hc fun m₁ hm₁ => ?_
  exact (hself xs _ m₁ hsuffix hm₁ e s₁ he).2

end Scopes

end Traversal

/-- The parts of a copy read as what substitution makes of the parts of the original. -/
theorem Plan.Runs.substituted {sig : Signature}
    (hsim : Traversal.Simulates sig self) {s' : Store} {σ : Substitution} {ρ : Env} {V : View}
    {inner ys : List Var} {k : Nat} {p p' : Plan} {parts : List Indexed}
    (hruns : Plan.Runs self σ s p p' s') (hstage : Stage sig s σ ρ V inner hidden k ys)
    (hp : ReadsAll sig V inner (pieces p.subterms) parts) :
    Grows sig hidden k ys s s' ∧ Copied sig s' hidden k ys ρ parts (pieces p'.subterms) := by
  induction hruns generalizing ρ inner hidden ys parts with
  | done =>
    obtain rfl := readsAll_nil_iff.mp hp
    exact ⟨.refl, .nil⟩
  | quiet hquiet _ ih =>
    obtain ⟨hgrows, hcopied⟩ := ih (hstage.grow hquiet.grows) hp
    exact ⟨hquiet.grows.trans hgrows, hcopied⟩
  | term ht _ ih =>
    obtain ⟨_, ms, ⟨n, rfl, hn⟩, hrest, rfl⟩ := List.forall₂_cons_left_iff.mp hp
    obtain ⟨hgrows, n', hn', hsubst⟩ := hsim hstage hn _ _ ht
    obtain ⟨hgrows', hcopied⟩ := ih (hstage.grow hgrows) hrest
    exact ⟨hgrows.trans hgrows',
      ((Copied.term hn' hsubst).grow hgrows' hstage.hides).append hcopied⟩
  | @under σ s s₁ s₂ s₃ x y ref inner₀ inner₁ rest rest' hquiet hold hnew hkind href _ _ ih ih' =>
    rw [Plan.subterms, pieces_append, pieces_inScopeOf] at hp
    obtain ⟨_, ns, rfl, hinner, hrest⟩ := readsAll_append_iff.mp hp
    obtain ⟨ms, rfl, hms⟩ := readsAll_binder_iff.mp hinner
    have hy : NewVar s s₁ y := ⟨hold, hnew, fun i _ => by rw [hquiet.clauses]⟩
    have hquiets : Grows sig hidden k ys s s₁ := hquiet.grows
    have hs₁ := hquiets.numbered hstage.numbered
    have hstage₁ := hstage.bind (x := x) hy hs₁ href
      fun hclause => by rw [hclause] at hkind; simp at hkind
    obtain ⟨hgrows₁, hcopied⟩ := ih hstage₁ hms
    have hgrows := hgrows₁.close hy trivial hstage.numbered hs₁
    obtain ⟨hgrows', hcopied'⟩ := ih' (hstage.grow hgrows) hrest
    refine ⟨hgrows.trans hgrows', ?_⟩
    rw [Plan.subterms, pieces_append, pieces_inScopeOf]
    exact ((hcopied.close (hstage.older hy)).grow hgrows' hstage.hides).append hcopied'

end Recheck
