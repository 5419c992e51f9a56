import Recheck.Store

/-!
# Recheck — regions of the store

Terms lead into the store through references to let clauses, and operations on terms
change it: a substitution may update the definition of a clause that it meets. How far an
operation can reach is a matter of what the terms in play mention. A `Region` says which
let clauses they may refer to and which variables they may bind, and `Term.Within` that a
term keeps to it. A store is `Good` for a region if whatever can be read from it keeps to
the region as well.

The immediate parts of a node are listed once, by `Node.parts`; all other notions of this
module are read off that list.
-/

namespace Recheck

variable {t : Term} {x : Var} {A : Type} {a : A} {r : RecordType Term} {f : FieldName}
  {sig : Signature}

/-! ## The parts of a node -/

/-- An immediate part of a node. -/
inductive Part (T : Type) where
  | term (t : T)
  /-- A variable that the node binds, or that a delayed substitution replaces. -/
  | binder (x : Var)
  /-- A let clause that the node refers to, by its variable. -/
  | clause (x : Var)

section Parts

variable {T : Type}

/-- The parts of a telescope: its variables and its types. -/
def Telescope.parts (ps : Telescope T) : List (Part T) :=
  ps.flatMap fun p => .binder p.var :: p.type.toList.map .term

@[simp] theorem Telescope.parts_nil : Telescope.parts ([] : Telescope T) = [] := rfl

@[simp] theorem Telescope.parts_cons (p : Param T) (ps : Telescope T) : Telescope.parts (p :: ps) =
    .binder p.var :: p.type.toList.map .term ++ ps.parts := rfl

/-- The parts of a pattern: its variables and the types of these. -/
def Pattern.parts (p : Pattern T) : List (Part T) :=
  p.bindings.flatMap fun b => [.binder b.1, .term b.2]

/-- The parts of a list of patterns. -/
def Pattern.partsOf (ps : List (Pattern T)) : List (Part T) :=
  (Pattern.bindingsOf ps).flatMap fun b => [.binder b.1, .term b.2]

theorem Pattern.partsOf_cons (p : Pattern T) (ps : List (Pattern T)) :
    Pattern.partsOf (p :: ps) = p.parts ++ Pattern.partsOf ps := by
  simp [Pattern.partsOf, Pattern.parts, Pattern.bindingsOf]

def Clause.parts (c : Clause T) : List (Part T) :=
  Pattern.partsOf c.patterns ++ c.body.toList.map .term

mutual

def Tree.parts : Tree T → List (Part T)
  | .leaf ps body => Telescope.parts ps ++ [.term body]
  | .branch ps children => Telescope.parts ps ++ Tree.partsOf children

/-- The parts of the children of a branch. -/
def Tree.partsOf : List (BranchKey × Tree T) → List (Part T)
  | [] => []
  | (_, t) :: rest => t.parts ++ Tree.partsOf rest

end

def Elim.parts (e : Elim T) : List (Part T) :=
  e.clauses.flatMap Clause.parts ++ e.tree.toList.flatMap Tree.parts

@[simp] def RecordType.parts (r : RecordType T) : List (Part T) :=
  .binder r.this :: r.impls.map fun e => .term e.2

/-- What an entry of a mapping replaces, if it is a variable. -/
@[simp] def Variable.binderParts : Variable → List (Part T)
  | .local x => [.binder x]
  | _ => []

/-- The parts of a mapping: the variables that it replaces, and what replaces them. -/
def Mapping.parts (m : Mapping T) : List (Part T) :=
  m.entries.flatMap fun e => e.1.binderParts ++ [.term e.2]

/-- The parts of a shared mapping: its own, and those of the entries that its log can put
back. -/
def Shared.parts (m : Shared) : List (Part Term) :=
  m.mapping.parts ++
    m.undo.flatMap fun e => e.1.binderParts ++ e.2.toList.map .term

/-- The parts of a mapping that is not shared; a shared one is part of the store. -/
def MappingRef.parts : MappingRef T → List (Part T)
  | .own m => m.parts
  | .shared _ => []

def CaseOf.parts (c : CaseOf T) : List (Part T) :=
  c.args.map .term ++ Telescope.parts c.params ++ [.term c.resultType] ++
    c.levelProof.toList.map .term ++ c.elim.toList.flatMap Elim.parts

/-- The immediate parts of a node. -/
@[simp] def Node.parts : Node T → List (Part T)
  | .ref x => if x.kind = .clause then [.clause x] else []
  | .app fn arg => [.term fn, .term arg]
  | .call _ _ args => args.map .term
  | .con c => c.dataArgs.map .term ++ c.args.map .term
  | .data d => d.args.map .term
  | .field _ _ arg => [.term arg]
  | .record r => r.parts
  | .lam _ ps body => Telescope.parts ps ++ [.term body]
  | .pi _ ps codomain => Telescope.parts ps ++ [.term codomain]
  | .sigma s => Telescope.parts s.params
  | .tuple fields type => fields.map .term ++ Telescope.parts type.val.params
  | .proj t _ => [.term t]
  | .univ _ | .int _ | .unknown _ => []
  | .new renewed type => renewed.toList.map .term ++ type.val.parts
  | .letIn _ xs body => xs.flatMap (fun x => [.binder x, .clause x]) ++ [.term body]
  | .case c => c.parts
  | .ofType t type => [.term t, .term type]
  | .hole _ part => part.toList.map .term
  | .delayed t exprs _ => .term t :: exprs.parts

end Parts

/-! ## Regions -/

/-- What terms may mention, by serial numbers. -/
structure Region where
  /-- The let clauses that may be referred to. -/
  refers : Nat → Prop
  /-- The variables that may be bound or replaced. -/
  binds : Nat → Prop

/-- The variable may be bound. If it is named like a let clause, references to it lead to
that clause. -/
def Region.Binds (R : Region) (x : Var) : Prop :=
  R.binds x.serial ∧ (x.kind = .clause → R.refers x.serial)

/-- The term keeps to the region, all the way down. -/
inductive Term.Within (R : Region) : Term → Prop where
  | mk {stamp : Nat} {node : Node Term}
      (terms : ∀ t, .term t ∈ node.parts → Term.Within R t)
      (binders : ∀ x, .binder x ∈ node.parts → R.Binds x)
      (clauses : ∀ x, .clause x ∈ node.parts → R.refers x.serial) :
      Term.Within R (.mk stamp node)

/-- The part keeps to the region. -/
def Part.Within (R : Region) : Part Term → Prop
  | .term t => t.Within R
  | .binder x => R.Binds x
  | .clause x => R.refers x.serial

/-- All of the parts keep to the region. -/
def Region.Holds (R : Region) (parts : List (Part Term)) : Prop :=
  ∀ p ∈ parts, p.Within R

namespace Region

variable {R : Region}
variable {ps : List (Part Term)} {as : List A}

@[simp] theorem holds_nil : R.Holds [] := by simp [Holds]

@[simp] theorem holds_cons {p : Part Term} : R.Holds (p :: ps) ↔ p.Within R ∧ R.Holds ps := by
  simp [Holds]

@[simp] theorem holds_append {qs : List (Part Term)} :
    R.Holds (ps ++ qs) ↔ R.Holds ps ∧ R.Holds qs := by
  simp [Holds, or_imp, forall_and]

@[simp] theorem holds_flatMap {f : A → List (Part Term)} :
    R.Holds (as.flatMap f) ↔ ∀ a ∈ as, R.Holds (f a) := by
  simp only [Holds, List.mem_flatMap]
  constructor
  · intro h a ha p hp
    exact h p ⟨a, ha, hp⟩
  · rintro h p ⟨a, ha, hp⟩
    exact h a ha p hp

@[simp] theorem holds_map {f : A → Part Term} : R.Holds (as.map f) ↔ ∀ a ∈ as, (f a).Within R := by
  simp [Holds]

end Region

variable {R : Region}

@[simp] theorem Part.within_term : (Part.term t).Within R ↔ t.Within R := Iff.rfl

@[simp] theorem Part.within_binder : (Part.binder x).Within R ↔ R.Binds x := Iff.rfl

@[simp] theorem Part.within_clause : (Part.clause x).Within R ↔ R.refers x.serial := Iff.rfl

/-- A term keeps to a region if the parts of its node do; the stamp does not matter. -/
theorem Term.within_iff : t.Within R ↔ R.Holds t.node.parts := by
  constructor
  · rintro ⟨hterms, hbinders, hclauses⟩ p hp
    cases p with
    | term t => exact hterms t hp
    | binder x => exact hbinders x hp
    | clause x => exact hclauses x hp
  · intro h
    obtain ⟨stamp, node⟩ := t
    exact ⟨fun t ht => h _ ht, fun x hx => h _ hx, fun x hx => h _ hx⟩

theorem Term.Within.parts {node : Node Term} (h : t.Within R) (hnode : t.node = node) :
    R.Holds node.parts := hnode ▸ Term.within_iff.mp h

@[simp] theorem Term.within_mk {stamp : Nat} {node : Node Term} :
    (Term.mk stamp node).Within R ↔ R.Holds node.parts := Term.within_iff

/-- What it takes for a node to keep to a region, form by form. -/
@[simp] def Node.Within (R : Region) : Node Term → Prop
  | .ref x => x.kind = .clause → R.refers x.serial
  | .app t u | .ofType t u => t.Within R ∧ u.Within R
  | .call _ _ args => ∀ t ∈ args, t.Within R
  | .con c => (∀ t ∈ c.dataArgs, t.Within R) ∧ ∀ t ∈ c.args, t.Within R
  | .data d => ∀ t ∈ d.args, t.Within R
  | .field _ _ t | .proj t _ => t.Within R
  | .record r => R.Holds r.parts
  | .lam _ ps body | .pi _ ps body => R.Holds (Telescope.parts ps) ∧ body.Within R
  | .sigma s => R.Holds (Telescope.parts s.params)
  | .tuple fields type =>
    (∀ t ∈ fields, t.Within R) ∧ R.Holds (Telescope.parts type.val.params)
  | .univ _ | .int _ | .unknown _ => True
  | .new renewed type => (∀ t, renewed = some t → t.Within R) ∧ R.Holds type.val.parts
  | .letIn _ xs body => (∀ x ∈ xs, R.Binds x ∧ R.refers x.serial) ∧ body.Within R
  | .case c => R.Holds c.parts
  | .hole _ part => ∀ t, part = some t → t.Within R
  | .delayed t exprs _ => t.Within R ∧ R.Holds exprs.parts

theorem Node.within_iff {n : Node Term} : n.Within R ↔ R.Holds n.parts := by
  cases n with
  | ref x =>
    by_cases hkind : x.kind = .clause <;> simp [hkind]
  | _ => simp

theorem Term.Within.node {t : Term} {node : Node Term} (h : t.Within R)
    (hnode : t.node = node) : node.Within R := Node.within_iff.mpr (h.parts hnode)

/-- A region is part of another one if it allows less. -/
instance : LE Region :=
  ⟨fun R R' => (∀ n, R.refers n → R'.refers n) ∧ ∀ n, R.binds n → R'.binds n⟩

section Mono

variable {R R' : Region}

theorem Region.Binds.mono (h : R.Binds x) (hle : R ≤ R') : R'.Binds x :=
  ⟨hle.2 _ h.1, fun hkind => hle.1 _ (h.2 hkind)⟩

theorem Term.Within.mono (h : t.Within R) (hle : R ≤ R') : t.Within R' := by
  induction h with
  | mk _ binders clauses ih =>
    exact ⟨ih, fun x hx => (binders x hx).mono hle, fun x hx => hle.1 _ (clauses x hx)⟩

theorem Region.Holds.mono {parts : List (Part Term)} (h : R.Holds parts) (hle : R ≤ R') :
    R'.Holds parts := by
  intro p hp
  have hwithin := h p hp
  cases p with
  | term t => exact Term.Within.mono hwithin hle
  | binder x => exact Region.Binds.mono hwithin hle
  | clause x => exact hle.1 _ hwithin

end Mono

/-! ## Telescopes and columns -/

/-- The parts of a column: its variable and the type that it has in its telescope. -/
def Column.parts {T : Type} (c : Column T) : List (Part T) :=
  .binder c.var :: c.type.toList.map .term

section Telescopes

variable {R : Region}
variable {ps : Telescope Term}

theorem Column.holds_iff {c : Column Term} :
    R.Holds c.parts ↔ R.Binds c.var ∧ ∀ t, c.type = some t → t.Within R := by
  simp [Column.parts]

@[simp] theorem Telescope.holds_cons {p : Param Term} :
    R.Holds (Telescope.parts (p :: ps)) ↔
      R.Binds p.var ∧ (∀ t, p.type = some t → t.Within R) ∧
        R.Holds ps.parts := by
  simp

variable (h : R.Holds (Telescope.parts ps))

include h

theorem Telescope.holds_drop (n : Nat) : R.Holds (Telescope.parts (ps.drop n)) := by
  simp only [Telescope.parts, Region.holds_flatMap] at h ⊢
  exact fun p hp => h p (List.mem_of_mem_drop hp)

theorem Telescope.within_headType (ht : ps.headType = some t) : t.Within R := by
  obtain ⟨p, hp, htype⟩ := List.exists_of_findSome?_eq_some ht
  simp only [Telescope.parts, Region.holds_flatMap, Region.holds_cons, Region.holds_map,
    Option.mem_toList] at h
  exact (h p hp).2 t htype

theorem Telescope.holds_columns : R.Holds (ps.columns.flatMap Column.parts) := by
  induction ps with
  | nil => simp [Telescope.columns]
  | cons p ps ih =>
    have hhead : ∀ t, Telescope.headType (p :: ps) = some t → t.Within R :=
      fun t => Telescope.within_headType h
    obtain ⟨hx, -, hps⟩ := Telescope.holds_cons.mp h
    simp only [Telescope.columns, List.flatMap_cons, Region.holds_append]
    exact ⟨by simpa [Column.parts, Column.var] using ⟨hx, hhead⟩, ih hps⟩

theorem Telescope.binds_of_mem_vars (hx : x ∈ ps.vars) : R.Binds x := by
  simp only [Telescope.parts, Region.holds_flatMap, Region.holds_cons] at h
  obtain ⟨p, hp, rfl⟩ := List.mem_map.mp hx
  exact (h p hp).1

end Telescopes

theorem Pattern.holds_of_mem {ps : List (Pattern Term)} {p : Pattern Term}
    (h : R.Holds (Pattern.partsOf ps)) (hp : p ∈ ps) : R.Holds p.parts := by
  induction ps with
  | nil => cases hp
  | cons q ps ih =>
    rw [Pattern.partsOf_cons, Region.holds_append] at h
    rcases List.mem_cons.mp hp with rfl | hp
    · exact h.1
    · exact ih h.2 hp

/-! ## Mappings -/

/-- What is looked up is in the list. -/
theorem mem_of_lookup {K : Type} [DecidableEq K] {entries : List (K × A)} {k : K}
    (h : entries.lookup k = some a) : (k, a) ∈ entries := by
  obtain ⟨before, after, rfl, -⟩ := List.lookup_eq_some_iff.mp h
  simp

namespace Mapping

variable {R : Region} {m : Mapping Term}
variable {v : Variable}

theorem holds_iff : R.Holds m.parts ↔
    ∀ e ∈ m.entries, R.Holds e.1.binderParts ∧ e.2.Within R := by
  simp [Mapping.parts]

@[simp] theorem holds_empty : R.Holds (Mapping.empty : Mapping Term).parts := by
  simp [Mapping.parts, Mapping.empty]

theorem mem_place {T : Type} {t : T} {e : Variable × T} {es : List (Variable × T)}
    (h : e ∈ place v t es) : e = (v, t) ∨ e ∈ es := by
  induction es with
  | nil => exact .inl (List.mem_singleton.mp h)
  | cons e' es ih =>
    unfold place at h
    split at h
    · rcases List.mem_cons.mp h with rfl | h
      · exact .inl rfl
      · exact .inr (List.mem_cons_of_mem _ h)
    · rcases List.mem_cons.mp h with rfl | h
      · exact .inr List.mem_cons_self
      · exact (ih h).imp id (List.mem_cons_of_mem _)

variable (h : R.Holds m.parts)

include h

theorem holds_filter (keep : Variable × Term → Bool) :
    R.Holds (Mapping.mk (m.entries.filter keep)).parts := by
  rw [holds_iff] at h ⊢
  exact fun e he => h e (List.mem_filter.mp he).1

theorem holds_insert (hv : R.Holds (v.binderParts (T := Term)))
    (ht : t.Within R) : R.Holds (m.insert v t).parts := by
  rw [holds_iff] at h ⊢
  intro e he
  rcases mem_place he with rfl | he
  · exact ⟨hv, ht⟩
  · exact h e he

theorem holds_insert_var (hx : R.Binds x) (ht : t.Within R) :
    R.Holds (m.insert (.local x) t).parts :=
  holds_insert h (by simpa using hx) ht

theorem holds_insertVars {xs : List Var} {ts : List Term}
    (hxs : ∀ x ∈ xs, R.Binds x) (hts : ∀ t ∈ ts, t.Within R) :
    R.Holds (m.insertVars xs ts).parts := by
  induction xs generalizing m ts with
  | nil => simpa [insertVars] using h
  | cons x xs ih =>
    cases ts with
    | nil => simpa [insertVars] using h
    | cons t ts =>
      rw [List.forall_mem_cons] at hxs hts
      exact ih (holds_insert_var h hxs.1 hts.1) hxs.2 hts.2

theorem holds_insertAll {other : Mapping Term}
    (ho : R.Holds other.parts) : R.Holds (m.insertAll other).parts := by
  rw [holds_iff] at ho
  rw [insertAll]
  revert ho
  induction other.entries with
  | nil => exact fun _ => h
  | cons e es ih =>
    intro ho
    rw [List.forall_mem_cons] at ho
    exact holds_insert (ih ho.2) ho.1.1 ho.1.2

theorem within_get? (ht : m.get? v = some t) : t.Within R := by
  rw [holds_iff] at h
  exact (h _ (mem_of_lookup ht)).2

theorem binds_vars : ∀ x ∈ m.entries.filterMap fun e => e.1.var?, R.Binds x := by
  intro x hx
  obtain ⟨⟨v, t⟩, hmem, hv⟩ := List.mem_filterMap.mp hx
  have hparts := (holds_iff.mp h _ hmem).1
  cases v with
  | «local» y => simpa [← Option.some.inj hv] using hparts
  | _ => cases hv

end Mapping

namespace Shared

variable {R : Region} {m : Shared} {v : Variable}

theorem holds_iff : R.Holds m.parts ↔ R.Holds m.mapping.parts ∧
    ∀ e ∈ m.undo, R.Holds (e.1.binderParts (T := Term)) ∧ ∀ t, e.2 = some t → t.Within R := by
  simp [Shared.parts]

variable (h : R.Holds m.parts)

include h

theorem holds_bind (hv : R.Holds (v.binderParts (T := Term))) (ht : t.Within R) :
    R.Holds (m.bind v t).parts := by
  rw [holds_iff] at h ⊢
  refine ⟨Mapping.holds_insert h.1 hv ht, List.forall_mem_cons.mpr ⟨⟨hv, fun u hu => ?_⟩, h.2⟩⟩
  exact Mapping.within_get? h.1 hu

theorem holds_release (mark : Nat) : R.Holds (m.release mark).parts := by
  obtain ⟨m, undo⟩ := m
  rw [release]
  induction undo generalizing m with
  | nil => exact h
  | cons e undo ih =>
    unfold undoTo
    split
    · exact h
    rw [holds_iff, List.forall_mem_cons] at h
    obtain ⟨hm, ⟨hv, hold⟩, hundo⟩ := h
    refine ih _ (holds_iff.mpr ⟨?_, hundo⟩)
    split
    next u hu => exact Mapping.holds_insert hm hv (hold u hu)
    next => exact Mapping.holds_filter hm _

theorem holds_commit (mark : Nat) : R.Holds (m.commit mark).parts := by
  rw [holds_iff] at h ⊢
  exact ⟨h.1, fun e he => h.2 e (List.mem_of_mem_drop he)⟩

end Shared

theorem RecordType.within_impl? (h : R.Holds r.parts) (ht : r.impl? f = some t) : t.Within R := by
  simp only [RecordType.parts, Region.holds_cons, Region.holds_map] at h
  exact h.2 (f, t) (mem_of_lookup ht)

theorem RecordType.holds_implement (h : R.Holds r.parts) (ht : t.Within R) :
    R.Holds (r.implement f t).parts := by
  simp only [RecordType.parts, Region.holds_cons, Region.holds_map] at h ⊢
  refine ⟨h.1, fun e he => ?_⟩
  rcases List.mem_append.mp he with he | he
  · exact h.2 e (List.mem_filter.mp he).1
  · rw [List.mem_singleton.mp he]
    exact ht

/-! ## Signatures -/

def Body.parts : Body → List (Part Term)
  | .expr t => [.term t]
  | .elim e => e.parts
  | .interval ps ends otherwise =>
    Telescope.parts ps ++
      ends.flatMap (fun e => e.1.toList.map .term ++ e.2.toList.map .term) ++
      otherwise.toList.flatMap Elim.parts

/-- All declarations of the signature keep to the region. Names that are not declared count
with the empty declarations that they look up. -/
structure Signature.Within (R : Region) (sig : Signature) : Prop where
  data : ∀ d, R.Holds (Telescope.parts (sig.data d).params)
  con : ∀ c, R.Holds (Telescope.parts (sig.con c).params)
  patterns : ∀ c ps, (sig.con c).patterns = some ps → R.Holds (Pattern.partsOf ps)
  this : ∀ r, R.Binds (sig.record r).this
  thisType : ∀ r, (sig.record r).thisType.Within R
  field : ∀ f, (sig.field f).type.Within R
  params : ∀ f, R.Holds (Telescope.parts (sig.func f).params)
  result : ∀ f, (sig.func f).resultType.Within R
  body : ∀ f b, (sig.func f).body = some b → R.Holds b.parts

theorem Signature.Within.mono {R R' : Region} (h : sig.Within R) (hle : R ≤ R') :
    sig.Within R' where
  data d := (h.data d).mono hle
  con c := (h.con c).mono hle
  patterns c ps hps := (h.patterns c ps hps).mono hle
  this r := (h.this r).mono hle
  thisType r := (h.thisType r).mono hle
  field f := (h.field f).mono hle
  params f := (h.params f).mono hle
  result f := (h.result f).mono hle
  body f b hb := (h.body f b hb).mono hle

/-- What holds of all entries of a table and of the default holds of whatever is looked
up. -/
theorem Table.getD_of_forall [Inhabited A] {t : Table A} {P : A → Prop} (h : ∀ e ∈ t.entries, P e.2)
    (hdefault : P default) (k : Nat) : P ((t.get? k).getD default) := by
  cases hk : t.get? k with
  | none => exact hdefault
  | some a => exact h (k, a) (mem_of_lookup hk)

/-- What holds of the entries of a signature and of the defaults holds of whatever is looked
up. -/
theorem Signature.forall_of_entries {H : List (Part Term) → Prop} {X : Var → Prop}
    {P : Term → Prop} {B : Body → Prop} (hnil : H []) (hvar : X default) (hterm : P default)
    (hdata : ∀ e ∈ sig.dataDefs.entries, H e.2.params.parts)
    (hcon : ∀ e ∈ sig.conDefs.entries, H e.2.params.parts ∧
      ∀ ps, e.2.patterns = some ps → H (Pattern.partsOf ps))
    (hrecord : ∀ e ∈ sig.recordDefs.entries, X e.2.this ∧ P e.2.thisType)
    (hfield : ∀ e ∈ sig.fieldDefs.entries, P e.2.type)
    (hfunc : ∀ e ∈ sig.funcDefs.entries, H e.2.params.parts ∧
      P e.2.resultType ∧ ∀ b, e.2.body = some b → B b) :
    (∀ d, H (Telescope.parts (sig.data d).params)) ∧
      (∀ c, H (Telescope.parts (sig.con c).params) ∧
        ∀ ps, (sig.con c).patterns = some ps → H (Pattern.partsOf ps)) ∧
      (∀ r, X (sig.record r).this ∧ P (sig.record r).thisType) ∧ (∀ f, P (sig.field f).type) ∧
      ∀ f, H (Telescope.parts (sig.func f).params) ∧ P (sig.func f).resultType ∧
        ∀ b, (sig.func f).body = some b → B b := by
  refine ⟨fun d => ?_, fun c => ?_, fun r => ?_, fun f => ?_, fun f => ?_⟩
  · unfold Signature.data
    cases h : sig.dataDefs.get? d.serial with
    | none => exact hnil
    | some e => exact hdata (_, e) (mem_of_lookup h)
  · unfold Signature.con
    cases h : sig.conDefs.get? c.serial with
    | none => exact ⟨hnil, fun _ h => by cases h⟩
    | some e => exact hcon (_, e) (mem_of_lookup h)
  · unfold Signature.record
    cases h : sig.recordDefs.get? r.serial with
    | none => exact ⟨hvar, hterm⟩
    | some e => exact hrecord (_, e) (mem_of_lookup h)
  · unfold Signature.field
    cases h : sig.fieldDefs.get? f.serial with
    | none => exact hterm
    | some e => exact hfield (_, e) (mem_of_lookup h)
  · unfold Signature.func
    cases h : sig.funcDefs.get? f.serial with
    | none => exact ⟨hnil, hterm, fun _ h => by cases h⟩
    | some e => exact hfunc (_, e) (mem_of_lookup h)

/-- A signature keeps to the region if each of its entries does. -/
theorem Signature.within_of_entries (hdefault : R.Binds default)
    (hdata : ∀ e ∈ sig.dataDefs.entries, R.Holds e.2.params.parts)
    (hcon : ∀ e ∈ sig.conDefs.entries, R.Holds e.2.params.parts ∧
      ∀ ps, e.2.patterns = some ps → R.Holds (Pattern.partsOf ps))
    (hrecord : ∀ e ∈ sig.recordDefs.entries, R.Binds e.2.this ∧ e.2.thisType.Within R)
    (hfield : ∀ e ∈ sig.fieldDefs.entries, e.2.type.Within R)
    (hfunc : ∀ e ∈ sig.funcDefs.entries, R.Holds e.2.params.parts ∧
      e.2.resultType.Within R ∧ ∀ b, e.2.body = some b → R.Holds b.parts) :
    sig.Within R := by
  have hterm : (default : Term).Within R := Term.within_mk.mpr (by simp)
  obtain ⟨hdata, hcon, hrecord, hfield, hfunc⟩ := forall_of_entries (B := fun b => R.Holds b.parts)
    Region.holds_nil hdefault hterm hdata hcon hrecord hfield hfunc
  exact ⟨hdata, fun c => (hcon c).1, fun c => (hcon c).2, fun r => (hrecord r).1,
    fun r => (hrecord r).2, hfield, fun f => (hfunc f).1, fun f => (hfunc f).2.1,
    fun f => (hfunc f).2.2⟩

theorem Signature.Within.dataColumns (h : sig.Within R) (c : ConName) :
    R.Holds ((sig.dataColumns c).flatMap Column.parts) := by
  rw [Signature.dataColumns]
  split
  · exact Telescope.holds_columns (h.data _)
  next ps hps =>
    have hparts := h.patterns c ps hps
    simp only [Pattern.partsOf, Region.holds_flatMap, Region.holds_cons] at hparts
    simp only [List.flatMap_map, Region.holds_flatMap]
    intro b hb
    simpa [Column.parts, Column.ofTyped, Column.var] using ⟨(hparts b hb).1, (hparts b hb).2.1⟩

/-! ## Stores -/

/-- The type and the definition of a let clause keep to the region. -/
def LetClause.Within (R : Region) (c : LetClause) : Prop :=
  c.expr.Within R ∧ ∀ t, c.type = some t → t.Within R

/-- Whatever can be read from the store by way of the region keeps to it, and new
variables belong to it. -/
structure Good (R : Region) (s : Store) : Prop where
  clause : ∀ n c, R.refers n → s.clauses.get? n = some c → c.Within R
  solution : ∀ n t, s.solutions.get? n = some t → t.Within R
  unknown : ∀ n u t, s.unknowns.get? n = some u → u.type = some t → t.Within R
  mapping : ∀ n m, s.mappings.get? n = some m → R.Holds m.parts
  refers_fresh : ∀ n, s.next ≤ n → R.refers n
  binds_fresh : ∀ n, s.next ≤ n → R.binds n

/-- What holds of all entries of a table and of a new one holds after it is written. -/
theorem Table.forall_insert {t : Table A} {key : Nat} {P : Nat → A → Prop}
    (h : ∀ k b, t.get? k = some b → P k b) (ha : P key a) :
    ∀ k b, (t.insert key a).get? k = some b → P k b := by
  intro k b hb
  by_cases hk : k = key
  · subst hk
    rw [Table.get?_insert_self, Option.some.injEq] at hb
    exact hb ▸ ha
  · rw [Table.get?_insert_of_ne t a hk] at hb
    exact h k b hb

end Recheck
