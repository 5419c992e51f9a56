import Recheck.Store
import Recheck.Proofs.Indexed

/-!
# Recheck — reading terms without names

`Reads` relates terms to indexed terms. Unlike the nameless reading of a term alone, it
looks up the definitions of let clauses, so the same term may read differently in another
store, and it has to be a relation: nothing keeps the definitions of a store from running
in circles.

Not everything can be read. References to let clauses have to be in scope of the clause.
Unknowns and delayed substitutions have no reading, since they wait for more to be known.
And record types implement fields of their own only, which are read in the order of the
declaration.

A term is read in a scope that has two parts, of which the outer one does not change on the way
into the term. Let clauses in the outer part have to be older than everything that the term
binds around a reference to them.
-/

namespace Recheck

variable {x y : Var} {ys : List Var} {body : Term}

/-! ## Layouts -/

/-- What can be read: a term, or what is left of a let expression from a clause on. -/
inductive Piece where
  | term (t : Term)
  | tail (xs : List Var) (body : Term)

/-- Terms as pieces. -/
def pieces (ps : List (Scoped Term)) : List (Scoped Piece) := ps.map fun p => (p.1, .term p.2)

theorem pieces_append (ps qs : List (Scoped Term)) : pieces (ps ++ qs) = pieces ps ++ pieces qs :=
  List.map_append

theorem pieces_inScopeOf (outer : List Var) (ps : List (Scoped Term)) :
    pieces (inScopeOf outer ps) = inScopeOf outer (pieces ps) := by
  simp [pieces, inScopeOf]

/-- The record type with its implementations in the order of the declaration. -/
def RecordType.sorted (sig : Signature) (r : RecordType Term) : RecordType Term :=
  { r with impls := (sig.implemented r).filterMap fun f => (r.impl? f).map (f, ·) }

/-- The record type implements declared fields only. -/
structure RecordType.Proper (sig : Signature) (r : RecordType Term) : Prop where
  nodup : (sig.record r.record).fields.Nodup
  declared : ∀ e ∈ r.impls, e.1 ∈ (sig.record r.record).fields

namespace Node

/-- The node has a reading if its subterms do. -/
def Readable (sig : Signature) : Node Term → Prop
  | .ref _ | .unknown _ | .delayed _ _ _ => False
  | .record r => r.Proper sig
  | .new _ type => type.val.Proper sig
  | _ => True

/-- The node with implementations in the order of the declaration. -/
def sorted (sig : Signature) : Node Term → Node Term
  | .record r => .record (r.sorted sig)
  | .new renewed type => .new renewed { type with val := type.val.sorted sig }
  | n => n

/-- The immediate subterms of a node; the clauses of a let expression belong to them. -/
def pieces : Node Term → List (Scoped Piece)
  | .letIn _ xs body => [([], .tail xs body)]
  | n => Recheck.pieces n.subterms

end Node

/-- What a piece consists of. -/
inductive Layout (sig : Signature) (clauses : Nat → Option LetClause) :
    Piece → Indexed.Head → List (Scoped Piece) → Prop where
  | node {stamp : Nat} {n : Node Term} (hn : n.Readable sig) :
      Layout sig clauses (.term (.mk stamp n)) (.form (n.sorted sig).erase) (n.sorted sig).pieces
  | clause {x : Var} {xs : List Var} {body : Term} {c : LetClause}
      (hc : clauses x.serial = some c) :
      Layout sig clauses (.tail (x :: xs) body) (.clause c.type.isSome)
        (pieces (unscoped (c.expr :: c.type.toList)) ++ [([x], .tail xs body)])

/-! ## Readings -/

/-- What is around a term that is read. -/
structure View where
  /-- The let clauses that are looked up. -/
  clauses : Nat → Option LetClause
  /-- Free variables are older than this. -/
  age : Nat
  /-- The outer part of the scope, the innermost variable first. -/
  outer : List Var

/-- The second view shows at least what the first one shows. -/
structure View.Le (V V' : View) : Prop where
  clauses : ∀ i c, V.clauses i = some c → V'.clauses i = some c
  age : V.age ≤ V'.age
  outer : V.outer = V'.outer

/-- The part of a node that a subterm is, given the reading of the subterm. -/
def assemble (subs : List (Scoped Piece)) (rs : List Indexed) : List Indexed :=
  List.zipWith (fun q r => r.under q.1.length) subs rs

/-- A piece in a scope reads as an indexed term. -/
inductive Reads (sig : Signature) (V : View) : List Var → Piece → Indexed → Prop where
  | bound {scope : List Var} {stamp : Nat} {x : Var} {i : Nat}
      (hx : (scope ++ V.outer).idxOf? x = some i)
      (hnewer : x.kind = .clause → x ∉ scope → ∀ z ∈ scope, x.serial < z.serial) :
      Reads sig V scope (.term (.mk stamp (.ref x))) (.bound i)
  | free {scope : List Var} {stamp : Nat} {x : Var} (hx : x ∉ scope ++ V.outer)
      (hkind : x.kind ≠ .clause) (hage : x.serial < V.age) :
      Reads sig V scope (.term (.mk stamp (.ref x))) (.free x)
  | body {scope : List Var} {t : Term} {n : Indexed} (h : Reads sig V scope (.term t) n) :
      Reads sig V scope (.tail [] t) n
  | node {scope : List Var} {p : Piece} {head : Indexed.Head} {subs : List (Scoped Piece)}
      {rs : List Indexed} (hp : Layout sig V.clauses p head subs)
      (hlength : subs.length = rs.length)
      (h : ∀ q r, (q, r) ∈ subs.zip rs → Reads sig V (q.1 ++ scope) q.2 r) :
      Reads sig V scope p (.node head (assemble subs rs))

variable {sig : Signature} {V V' : View} {scope : List Var} {p : Piece} {n : Indexed}

theorem Layout.mono {clauses clauses' : Nat → Option LetClause} {head : Indexed.Head}
    {subs : List (Scoped Piece)} (h : Layout sig clauses p head subs)
    (hle : ∀ i c, clauses i = some c → clauses' i = some c) :
    Layout sig clauses' p head subs := by
  cases h with
  | node hn => exact .node hn
  | clause hc => exact .clause (hle _ _ hc)

theorem Reads.mono (h : Reads sig V scope p n) (hle : V.Le V') : Reads sig V' scope p n := by
  induction h with
  | bound hx hnewer => exact .bound (hle.outer ▸ hx) hnewer
  | free hx hkind hage => exact .free (hle.outer ▸ hx) hkind (Nat.lt_of_lt_of_le hage hle.age)
  | body _ ih => exact .body ih
  | node hp hlength _ ih => exact .node (hp.mono hle.clauses) hlength ih

/-- The position of a variable after another variable has come into its scope. -/
theorem idxOf?_insert (hy : x ∈ ys → x ≠ y) {i : Nat} (h : (scope ++ ys).idxOf? x = some i) :
    (scope ++ y :: ys).idxOf? x = some (if i < scope.length then i else i + 1) := by
  induction scope generalizing i with
  | nil =>
    have hmem : x ∈ ys := by
      by_contra hx
      rw [List.nil_append, List.idxOf?_eq_none_iff.mpr hx] at h
      cases h
    have hne : (y == x) = false := by simpa using (hy hmem).symm
    simp only [List.nil_append] at h
    simp [List.idxOf?_cons, hne, h]
  | cons z scope ih =>
    rw [List.cons_append, List.idxOf?_cons] at h ⊢
    by_cases hz : z = x
    · subst hz
      obtain rfl : 0 = i := by simpa using h
      simp
    · have hne : (z == x) = false := by simpa using hz
      simp only [hne, Bool.false_eq_true, if_false, Option.map_eq_some_iff] at h ⊢
      obtain ⟨j, hj, rfl⟩ := h
      refine ⟨_, ih hj, ?_⟩
      simp only [List.length_cons, Nat.add_lt_add_iff_right]
      split <;> rfl

/-- What is older than the scope is older than the next variable, too. -/
theorem newer_append {i : Nat} (hx : (scope ++ y :: ys).idxOf? x = some i)
    (hy : ∀ z ∈ ys, z.serial < y.serial) (hnot : x ∉ scope ++ [y])
    (hnewer : ∀ z ∈ scope, x.serial < z.serial) : ∀ z ∈ scope ++ [y], x.serial < z.serial := by
  simp only [List.mem_append, List.mem_singleton, not_or] at hnot ⊢
  have hmem : x ∈ ys := by
    by_contra hys
    have : x ∉ scope ++ y :: ys := by simp [hnot, hys]
    rw [List.idxOf?_eq_none_iff.mpr this] at hx
    cases hx
  rintro z (hz | rfl)
  · exact hnewer z hz
  · exact hy x hmem

theorem shift_assemble (cutoff : Nat) (subs : List (Scoped Piece)) (rs : List Indexed) :
    (assemble subs rs).map (Indexed.shift cutoff) =
      assemble subs (List.zipWith (fun q r => r.shift (q.1.length + cutoff)) subs rs) := by
  induction subs generalizing rs with
  | nil => rfl
  | cons q subs ih =>
    cases rs with
    | nil => rfl
    | cons r rs =>
      have := ih rs
      simp only [assemble] at this ⊢
      simp only [List.zipWith_cons_cons, List.map_cons, this, Indexed.shift_under]

/-- A new variable in the outer part of the scope shifts the reading. -/
theorem Reads.weaken (h : Reads sig V scope p n) (hy : y ∉ V.outer) (hage : V.age ≤ y.serial) :
    Reads sig { V with outer := y :: V.outer } scope p (n.shift scope.length) := by
  induction h with
  | @bound scope stamp x i hx hnewer =>
    have hne : x ∈ V.outer → x ≠ y := fun hmem heq => hy (heq ▸ hmem)
    exact .bound (idxOf?_insert hne hx) hnewer
  | @free scope stamp x hx hkind hage' =>
    refine .free ?_ hkind hage'
    have hne : x ≠ y := by
      rintro rfl
      exact absurd hage' (Nat.not_lt.mpr hage)
    simp only [List.mem_append, List.mem_cons, not_or] at hx ⊢
    exact ⟨hx.1, hne, hx.2⟩
  | body _ ih => exact .body ih
  | @node scope p head subs rs hp hlength _ ih =>
    rw [Indexed.shift, Indexed.shiftAll_eq_map, shift_assemble]
    refine .node hp (by simp [hlength]) fun q r hqr => ?_
    obtain ⟨i, hi, heq⟩ := List.getElem_of_mem hqr
    simp only [List.length_zip, List.length_zipWith] at hi
    simp only [List.getElem_zip, List.getElem_zipWith, Prod.mk.injEq] at heq
    obtain ⟨rfl, rfl⟩ := heq
    have hmem : (subs[i], rs[i]) ∈ subs.zip rs := by
      rw [← List.getElem_zip (h := by simpa [hlength] using hi)]
      exact List.getElem_mem _
    simpa using ih _ _ hmem

/-- The innermost variable of the outer part can be counted as bound by the term. -/
theorem Reads.shrink (h : Reads sig V scope p n) (houter : V.outer = y :: ys)
    (hy : ∀ z ∈ ys, z.serial < y.serial) : Reads sig { V with outer := ys } (scope ++ [y]) p n := by
  induction h with
  | @bound scope stamp x i hx hnewer =>
    rw [houter] at hx
    refine .bound (by simpa using hx) fun hkind hnot => newer_append hx hy hnot ?_
    exact hnewer hkind fun hmem => hnot (List.mem_append_left _ hmem)
  | free hx hkind hage =>
    rw [houter] at hx
    exact .free (by simpa using hx) hkind hage
  | body _ ih => exact .body ih
  | node hp hlength _ ih =>
    exact .node hp hlength fun q r hqr => by simpa using ih q r hqr

/-! ## Readings of the parts of a node -/

/-- A subterm reads as a part of a node. -/
def ReadsPart (sig : Signature) (V : View) (scope : List Var) (q : Scoped Piece)
    (m : Indexed) : Prop :=
  ∃ r, m = r.under q.1.length ∧ Reads sig V (q.1 ++ scope) q.2 r

/-- The subterms read as the parts of a node. -/
def ReadsAll (sig : Signature) (V : View) (scope : List Var) (subs : List (Scoped Piece))
    (parts : List Indexed) : Prop :=
  List.Forall₂ (ReadsPart sig V scope) subs parts

variable {subs subs' : List (Scoped Piece)} {parts : List Indexed} {head : Indexed.Head}

theorem ReadsAll.assembled (h : ReadsAll sig V scope subs parts) :
    ∃ rs, subs.length = rs.length ∧ parts = assemble subs rs ∧
      ∀ q r, (q, r) ∈ subs.zip rs → Reads sig V (q.1 ++ scope) q.2 r := by
  induction h with
  | nil => exact ⟨[], rfl, rfl, by simp⟩
  | @cons q m subs parts hq _ ih =>
    obtain ⟨r, rfl, hr⟩ := hq
    obtain ⟨rs, hlength, rfl, hrs⟩ := ih
    refine ⟨r :: rs, by simp [hlength], rfl, ?_⟩
    intro q' r' hmem
    rw [List.zip_cons_cons, List.mem_cons] at hmem
    rcases hmem with heq | hmem
    · obtain ⟨rfl, rfl⟩ := Prod.mk.injEq .. ▸ heq
      exact hr
    · exact hrs q' r' hmem

theorem readsAll_assemble {rs : List Indexed} (hlength : subs.length = rs.length)
    (h : ∀ q r, (q, r) ∈ subs.zip rs → Reads sig V (q.1 ++ scope) q.2 r) :
    ReadsAll sig V scope subs (assemble subs rs) := by
  induction subs generalizing rs with
  | nil => exact .nil
  | cons q subs ih =>
    cases rs with
    | nil => simp at hlength
    | cons r rs =>
      simp only [List.zip_cons_cons, List.mem_cons] at h
      refine .cons ⟨r, rfl, h q r (.inl rfl)⟩ (ih (by simpa using hlength) ?_)
      exact fun q' r' hmem => h q' r' (.inr hmem)

theorem Reads.of_layout (hp : Layout sig V.clauses p head subs)
    (h : ReadsAll sig V scope subs parts) : Reads sig V scope p (.node head parts) := by
  obtain ⟨rs, hlength, rfl, hrs⟩ := h.assembled
  exact .node hp hlength hrs

/-- A node reads as its form, with the readings of its subterms as parts. -/
theorem reads_node_iff {stamp : Nat} {node : Node Term} (hnode : ∀ x, node ≠ .ref x) :
    Reads sig V scope (.term (.mk stamp node)) n ↔ node.Readable sig ∧
      ∃ parts, n = .node (.form (node.sorted sig).erase) parts ∧
        ReadsAll sig V scope (node.sorted sig).pieces parts := by
  constructor
  · intro h
    cases h with
    | bound | free => exact absurd rfl (hnode _)
    | node hp hlength h =>
      cases hp with
      | node hn => exact ⟨hn, _, rfl, readsAll_assemble hlength h⟩
  · rintro ⟨hn, parts, rfl, hparts⟩
    exact .of_layout (.node hn) hparts

theorem reads_tail_nil_iff :
    Reads sig V scope (.tail [] body) n ↔ Reads sig V scope (.term body) n := by
  constructor
  · intro h
    cases h with
    | body h => exact h
    | node hp => cases hp
  · exact .body

theorem reads_tail_cons_iff {xs : List Var} :
    Reads sig V scope (.tail (x :: xs) body) n ↔ ∃ c parts,
      V.clauses x.serial = some c ∧ n = .node (.clause c.type.isSome) parts ∧
      ReadsAll sig V scope
        (pieces (unscoped (c.expr :: c.type.toList)) ++ [([x], .tail xs body)]) parts := by
  constructor
  · intro h
    cases h with
    | node hp hlength h =>
      cases hp with
      | clause hc => exact ⟨_, _, hc, rfl, readsAll_assemble hlength h⟩
  · rintro ⟨c, parts, hc, rfl, hparts⟩
    exact .of_layout (.clause hc) hparts

theorem ReadsAll.mono (h : ReadsAll sig V scope subs parts) (hle : V.Le V') :
    ReadsAll sig V' scope subs parts :=
  h.imp fun _ _ ⟨r, hm, hr⟩ => ⟨r, hm, hr.mono hle⟩

theorem readsAll_nil_iff : ReadsAll sig V scope [] parts ↔ parts = [] :=
  List.forall₂_nil_left_iff

theorem readsAll_append_iff : ReadsAll sig V scope (subs ++ subs') parts ↔
    ∃ ms ms', parts = ms ++ ms' ∧ ReadsAll sig V scope subs ms ∧
      ReadsAll sig V scope subs' ms' := by
  constructor
  · intro h
    refine ⟨parts.take subs.length, parts.drop subs.length, by simp, ?_, ?_⟩
    · exact (List.forall₂_take_append _ _ _ h.flip).flip
    · exact (List.forall₂_drop_append _ _ _ h.flip).flip
  · rintro ⟨ms, ms', rfl, h, h'⟩
    exact List.rel_append h h'

theorem readsAll_terms_iff {ts : List Term} :
    ReadsAll sig V scope (pieces (unscoped ts)) parts ↔
      List.Forall₂ (fun t => Reads sig V scope (.term t)) ts parts := by
  simp only [pieces, unscoped, List.map_map, ReadsAll, List.forall₂_map_left_iff]
  refine ⟨fun h => h.imp ?_, fun h => h.imp ?_⟩
  · rintro t m ⟨r, rfl, hr⟩
    exact hr
  · intro t m h
    exact ⟨m, rfl, h⟩

theorem readsAll_singleton_iff :
    ReadsAll sig V scope [([], p)] parts ↔ ∃ m, parts = [m] ∧ Reads sig V scope p m := by
  constructor
  · intro h
    obtain _ | ⟨⟨_, rfl, hm⟩, _ | _⟩ := h
    exact ⟨_, rfl, hm⟩
  · rintro ⟨m, rfl, hm⟩
    exact .cons ⟨m, rfl, hm⟩ .nil

/-- What a node binds around several subterms is bound around each part. -/
theorem readsAll_binder_iff :
    ReadsAll sig V scope (inScopeOf [x] subs) parts ↔
      ∃ ms, parts = ms.map .abs ∧ ReadsAll sig V (x :: scope) subs ms := by
  have hpart : ∀ (q : Scoped Piece) m, ReadsPart sig V scope (q.1 ++ [x], q.2) m ↔
      ∃ m', m = .abs m' ∧ ReadsPart sig V (x :: scope) q m' := by
    intro q m
    simp only [ReadsPart, List.length_append, List.length_singleton, Indexed.under,
      List.append_assoc, List.singleton_append]
    constructor
    · rintro ⟨r, rfl, hr⟩
      exact ⟨_, rfl, r, rfl, hr⟩
    · rintro ⟨m', rfl, r, rfl, hr⟩
      exact ⟨r, rfl, hr⟩
  constructor
  · intro h
    rw [ReadsAll, inScopeOf, List.forall₂_map_left_iff] at h
    induction h with
    | nil => exact ⟨[], rfl, .nil⟩
    | cons hq _ ih =>
      obtain ⟨m', rfl, hm'⟩ := (hpart _ _).mp hq
      obtain ⟨ms, rfl, hms⟩ := ih
      exact ⟨m' :: ms, rfl, .cons hm' hms⟩
  · rintro ⟨ms, rfl, h⟩
    rw [ReadsAll, inScopeOf, List.forall₂_map_left_iff, List.forall₂_map_right_iff]
    exact h.imp fun q m hm => (hpart q _).mpr ⟨m, rfl, hm⟩

/-! ## Record types -/

namespace RecordType

variable {r r' : RecordType Term}

theorem sorted_names (r : RecordType Term) (sig : Signature) :
    (r.sorted sig).impls.map Prod.fst = sig.implemented r := by
  have hall : ∀ f ∈ sig.implemented r, r.isImplemented f := fun f hf =>
    (List.mem_filter.mp hf).2
  simp only [sorted]
  generalize sig.implemented r = fs at hall
  induction fs with
  | nil => rfl
  | cons f fs ih =>
    rw [List.forall_mem_cons] at hall
    obtain ⟨t, ht⟩ := Option.isSome_iff_exists.mp hall.1
    rw [List.filterMap_cons, ht]
    simp [ih hall.2]

theorem isImplemented_iff (r : RecordType Term) (f : FieldName) :
    r.isImplemented f ↔ f ∈ r.impls.map Prod.fst := by
  rw [isImplemented, impl?]
  induction r.impls with
  | nil => simp
  | cons e es ih =>
    rw [List.lookup_cons, List.map_cons, List.mem_cons]
    cases hf : f == e.1 with
    | true => simp [beq_iff_eq.mp hf]
    | false =>
      have hne : f ≠ e.1 := by simpa using hf
      simp [hne, ih]

/-- A record type that lists its implementations in the order of the declaration is
sorted. -/
theorem sorted_eq (hnodup : (r.impls.map Prod.fst).Nodup)
    (hnames : sig.implemented r = r.impls.map Prod.fst) : r.sorted sig = r := by
  have hall : ∀ e ∈ r.impls, ((fun f => (r.impl? f).map (f, ·)) ∘ Prod.fst) e = some e := by
    intro e he
    simp only [Function.comp_apply, impl?]
    rw [lookup_of_nodup hnodup he]
    rfl
  rw [sorted, hnames, List.filterMap_map, List.filterMap_congr hall, List.filterMap_some]

theorem sorted_of_names (hnodup : (sig.record r.record).fields.Nodup)
    (hrecord : r'.record = r.record) (hnames : r'.impls.map Prod.fst = sig.implemented r) :
    r'.sorted sig = r' := by
  refine sorted_eq (by rw [hnames]; exact hnodup.filter _) ?_
  rw [Signature.implemented, hrecord, hnames, Signature.implemented]
  refine List.filter_congr fun f hf => ?_
  rw [Bool.eq_iff_iff, isImplemented_iff, hnames, Signature.implemented, List.mem_filter]
  simp [hf]

/-- Sorting does not change what is looked up. -/
theorem Proper.impl?_sorted (h : r.Proper sig) (f : FieldName) :
    (r.sorted sig).impl? f = r.impl? f := by
  have hlookup : ∀ fs : List FieldName,
      (fs.filterMap fun f => (r.impl? f).map (f, ·)).lookup f =
        if f ∈ fs then r.impl? f else none := by
    intro fs
    induction fs with
    | nil => rfl
    | cons g fs ih =>
      rw [List.filterMap_cons]
      by_cases hg : f = g
      · subst hg
        cases hf : r.impl? f with
        | none => simp only [Option.map_none, ih, hf]; simp
        | some t => simp
      · cases hr : r.impl? g with
        | none => simpa [hg] using ih
        | some t =>
          have hne : (f == g) = false := by simpa using hg
          simp only [Option.map_some, List.lookup_cons, hne, ih, List.mem_cons, hg, false_or]
  rw [impl?, sorted, hlookup]
  split
  next => rfl
  next hf =>
    cases hr : r.impl? f with
    | none => rfl
    | some t =>
      have himpl : r.isImplemented f := by rw [isImplemented, hr]; rfl
      obtain ⟨e, he, rfl⟩ := List.mem_map.mp ((r.isImplemented_iff f).mp himpl)
      exact absurd (List.mem_filter.mpr ⟨h.declared e he, himpl⟩) hf

end RecordType

/-! ## What is looked up in a list of parts -/

section Lookup

variable {R : Term → Indexed → Prop} {t : Term} {ms : List Indexed}

/-- The type of a parameter is a part of its own. -/
theorem Param.drop_types (p : Param Term) {types : List Indexed}
    (h : p.type.toList.length = types.length) :
    (types ++ ms).drop p.erase.type.toList.length = ms := by
  have herase : p.erase.type.toList.length = p.type.toList.length := by
    cases hp : p.type <;> simp [Param.erase, hp]
  rw [herase, h, List.drop_left]

theorem component?_tuple {fields : List Term} {type : Stamped (SigmaType Unit)} {index : Int64}
    (rest : List Indexed) (h : List.Forall₂ R fields ms)
    (ht : fields[index.toNatClampNeg]? = some t) : ∃ m, R t m ∧
      (Indexed.node (.form (.tuple (eraseTerms fields) type)) (ms ++ rest)).component? index =
        some m := by
  obtain ⟨hlt, rfl⟩ := List.getElem?_eq_some_iff.mp ht
  have hlt' : index.toNatClampNeg < ms.length := h.length_eq ▸ hlt
  refine ⟨ms[index.toNatClampNeg], (List.forall₂_iff_get.mp h).2 _ hlt hlt', ?_⟩
  rw [Indexed.component?, if_pos (by simpa [eraseTerms] using hlt),
    List.getElem?_append_left hlt', List.getElem?_eq_getElem hlt']

/-- What is looked up among implementations is looked up among the parts. -/
theorem lookup_parts {es : List (FieldName × Term)} (rest : List Indexed)
    (h : List.Forall₂ R (es.map Prod.snd) ms) (f : FieldName) :
    (es.lookup f = none →
        ((es.map Prod.fst).zip (ms.map Indexed.abs ++ rest)).lookup f = none) ∧
      ∀ t, es.lookup f = some t → ∃ b, R t b ∧
        ((es.map Prod.fst).zip (ms.map Indexed.abs ++ rest)).lookup f = some (.abs b) := by
  induction es generalizing ms with
  | nil => simp
  | cons e es ih =>
    obtain ⟨m, ms, hm, hms, rfl⟩ := List.forall₂_cons_left_iff.mp h
    rw [List.map_cons, List.map_cons, List.cons_append, List.zip_cons_cons, List.lookup_cons,
      List.lookup_cons]
    cases f == e.1 with
    | true =>
      refine ⟨by simp, fun t ht => ⟨m, ?_, rfl⟩⟩
      obtain rfl : e.2 = t := Option.some.inj ht
      exact hm
    | false => exact ih hms

end Lookup

end Recheck
