import Recheck.Proofs.Renumbering.Typing

/-!
# Recheck — checks that are repeated

A term that is there from the start corresponds to itself, wherever the counter stands, if it
does not lead into the store: it is `Plain` if all that it is made of are given variables and
given stamps. `Pairing.again` sets a run beside a later one from another state. Some variables
can be left out of it, and the scopes of the two runs may differ in these.
-/

namespace Recheck

variable {V V' : Var → Prop} {S S' X : Nat → Prop} {n N : Nat} {sig : Signature} {x : Var}

/-! ## What corresponds to itself -/

namespace Part.Fixed

variable {β : Pairing} {R : Term → Term → Prop}

theorem elim {e : Elim Term} (hstamp : β.stamp e.stamp e.stamp) (h : Fixed (Var.Paired β) R e.parts) :
    e.Paired β R e := by
  obtain ⟨n, clauses, t⟩ := e
  refine ⟨hstamp, List.forall₂_same.mpr fun c hc => clause (h.left.flatMap c hc), ?_⟩
  cases t with
  | none => exact .none
  | some t => exact .some (tree t (h.right.flatMap t (by simp)))

theorem record {r : RecordType Term} (h : Fixed (Var.Paired β) R r.parts) : r.Paired β R r := by
  obtain ⟨record, sortArg, impls, sort, universes, this⟩ := r
  refine ⟨List.forall₂_same.mpr fun e he => ⟨rfl, h.terms e.2 ?_⟩, h.binders this ?_⟩
  · exact .tail _ (List.mem_map.mpr ⟨e, he, rfl⟩)
  · exact .head _

theorem caseOf {c : CaseOf Term} (hstamps : ∀ e, c.elim = some e → β.stamp e.stamp e.stamp)
    (h : Fixed (Var.Paired β) R c.parts) : c.Paired β R c := by
  obtain ⟨strict, ps, result, proof, e, args⟩ := c
  have hresult := h.left.left.right.terms result (.head _)
  refine ⟨h.left.left.left.right.telescope, hresult, h.left.right.optional, ?_,
    h.left.left.left.left.all⟩
  cases e with
  | none => exact .none
  | some e => exact .some (elim (hstamps e rfl) (h.right.flatMap e (by simp)))

end Part.Fixed

/-! ## Plain terms -/

/-- The stamps of the types and matches that a node carries. -/
@[simp] def Node.innerStamps : Node Term → List Nat
  | .tuple _ type => [type.stamp]
  | .new _ type => [type.stamp]
  | .case c => c.elim.toList.map Elim.stamp
  | _ => []

/-- The variable that a node refers to. -/
@[simp] def Node.refs : Node Term → List Var
  | .ref x => [x]
  | _ => []

/-- Whether nodes of this form may lead into the store, apart from references. -/
@[simp] def Node.leadsOut : Node Term → Bool
  | .letIn .. | .unknown _ | .delayed .. => true
  | _ => false

/-- The term does not lead into the store, and is made of variables and stamps with the given
properties. -/
inductive Term.Plain (V : Var → Prop) (S : Nat → Prop) : Term → Prop where
  | mk {stamp : Nat} {node : Node Term} (hout : node.leadsOut = false) (hstamp : S stamp)
      (hinner : ∀ n ∈ node.innerStamps, S n) (hrefs : ∀ x ∈ node.refs, V x)
      (hbinders : ∀ x, .binder x ∈ node.parts → V x)
      (hterms : ∀ t, .term t ∈ node.parts → Term.Plain V S t) : Term.Plain V S (.mk stamp node)

/-- The variables and terms among the parts are plain. -/
structure Part.Plain (V : Var → Prop) (S : Nat → Prop) (parts : List (Part Term)) : Prop where
  terms : ∀ t, .term t ∈ parts → t.Plain V S
  binders : ∀ x, .binder x ∈ parts → V x

section Plain

variable {V : Var → Prop} {S : Nat → Prop}
variable {t : Term} {parts : List (Part Term)} {stamp : Nat} {node : Node Term}

@[simp] theorem Part.plain_nil : Part.Plain V S [] := ⟨by simp, by simp⟩

@[simp] theorem Part.plain_term :
    Part.Plain V S (.term t :: parts) ↔ t.Plain V S ∧ Part.Plain V S parts := by
  constructor
  · rintro ⟨hterms, hbinders⟩
    exact ⟨hterms t (by simp), fun u hu => hterms u (by simp [hu]), fun x hx => hbinders x (by simp [hx])⟩
  · rintro ⟨ht, hterms, hbinders⟩
    exact ⟨by simpa using ⟨ht, hterms⟩, by simpa using hbinders⟩

@[simp] theorem Part.plain_binder :
    Part.Plain V S (.binder x :: parts) ↔ V x ∧ Part.Plain V S parts := by
  constructor
  · rintro ⟨hterms, hbinders⟩
    exact ⟨hbinders x (by simp), fun u hu => hterms u (by simp [hu]), fun y hy => hbinders y (by simp [hy])⟩
  · rintro ⟨hx, hterms, hbinders⟩
    exact ⟨by simpa using hterms, by simpa using ⟨hx, hbinders⟩⟩

@[simp] theorem Term.plain_mk : (Term.mk stamp node).Plain V S ↔
    node.leadsOut = false ∧ S stamp ∧ (∀ n ∈ node.innerStamps, S n) ∧ (∀ x ∈ node.refs, V x) ∧
      Part.Plain V S node.parts := by
  constructor
  · rintro ⟨hout, hstamp, hinner, hrefs, hbinders, hterms⟩
    exact ⟨hout, hstamp, hinner, hrefs, hterms, hbinders⟩
  · rintro ⟨hout, hstamp, hinner, hrefs, hterms, hbinders⟩
    exact ⟨hout, hstamp, hinner, hrefs, hbinders, hterms⟩

variable {β : Pairing} (hV : ∀ x, V x → x.Paired β x) (hS : ∀ n, S n → β.stamp n n)

include hV hS

/-- The node of a plain term corresponds to itself. -/
theorem Term.Plain.node_paired {R : Term → Term → Prop} (h : (Term.mk stamp node).Plain V S)
    (hR : ∀ t, t.Plain V S → R t t) : node.Paired β R node := by
  obtain ⟨hout, -, hinner, hrefs, hterms, hbinders⟩ := Term.plain_mk.mp h
  have hfixed : Part.Fixed (Var.Paired β) R node.parts :=
    ⟨fun t ht => hR t (hterms t ht), fun x hx => hV x (hbinders x hx)⟩
  have hstamps : ∀ n ∈ node.innerStamps, β.stamp n n := fun n hn => hS n (hinner n hn)
  cases node with
  | ref x => exact .ref (hV x (hrefs x (List.mem_singleton_self x)))
  | app fn arg =>
    exact .app (hfixed.terms fn (by simp)) (hfixed.terms arg (by simp))
  | call f sort args => exact .call f sort hfixed.all
  | con c => exact .con c.con c.sortArg hfixed.left.all hfixed.right.all
  | data d => exact .data d.data d.sortArg hfixed.all
  | field f sort arg => exact .field f sort (hfixed.terms arg (.head _))
  | record r => exact .record hfixed.record
  | lam sort ps body =>
    exact .lam sort hfixed.left.telescope (hfixed.right.terms body (.head _))
  | pi sort ps codomain =>
    exact .pi sort hfixed.left.telescope (hfixed.right.terms codomain (.head _))
  | sigma s => exact .sigma s.sort (Part.Fixed.telescope hfixed)
  | tuple fields type =>
    exact .tuple type.val.sort hfixed.left.all (hstamps _ (.head _))
      (Part.Fixed.telescope hfixed.right)
  | proj t index => exact .proj (hfixed.terms t (.head _)) index
  | univ sort => exact .univ sort
  | new renewed type =>
    exact .new hfixed.left.optional (hstamps _ (.head _)) hfixed.right.record
  | case c =>
    refine .case (hfixed.caseOf fun e he => hstamps _ ?_)
    simp [he]
  | ofType t type =>
    exact .ofType (hfixed.terms t (by simp)) (hfixed.terms type (by simp))
  | int n => exact .int n
  | hole goal part => exact .hole goal hfixed.optional
  | letIn _ _ _ | unknown _ | delayed _ _ _ => cases hout

/-- A plain term corresponds to itself. -/
theorem Term.Plain.like (h : t.Plain V S) : t.Like β t := by
  refine ⟨fun u u' => u = u' ∧ u.Plain V S, ⟨rfl, h⟩, ?_⟩
  rintro ⟨stamp, node⟩ _ ⟨rfl, hu⟩
  exact ⟨hS _ (Term.plain_mk.mp hu).2.1, hu.node_paired hV hS fun t ht => ⟨rfl, ht⟩⟩

theorem Part.Plain.fixed (h : Part.Plain V S parts) : Part.Fixed (Var.Paired β) (Term.Like β) parts :=
  ⟨fun t ht => (h.terms t ht).like hV hS, fun x hx => hV x (h.binders x hx)⟩

end Plain

theorem Term.Plain.mono {t : Term} (h : t.Plain V S) (hV : ∀ x, V x → V' x) (hS : ∀ n, S n → S' n) :
    t.Plain V' S' := by
  induction h with
  | mk hout hstamp hinner hrefs hbinders _ ih =>
    exact ⟨hout, hS _ hstamp, fun n hn => hS n (hinner n hn), fun x hx => hV x (hrefs x hx),
      fun x hx => hV x (hbinders x hx), ih⟩

theorem Part.Plain.mono {parts : List (Part Term)} (h : Part.Plain V S parts) (hV : ∀ x, V x → V' x)
    (hS : ∀ n, S n → S' n) : Part.Plain V' S' parts :=
  ⟨fun t ht => (h.terms t ht).mono hV hS, fun x hx => hV x (h.binders x hx)⟩

theorem Part.Plain.subset {ps qs : List (Part Term)} (h : Part.Plain V S qs) (hle : ps ⊆ qs) :
    Part.Plain V S ps :=
  ⟨fun t ht => h.terms t (hle ht), fun x hx => h.binders x (hle hx)⟩

/-- The type that a tuple carries. -/
theorem Term.Plain.sigma {fields : List Term} {type : Stamped (SigmaType Term)}
    (h : (Term.mk n (.tuple fields type)).Plain V S) : type.sigma.Plain V S := by
  obtain ⟨-, -, hstamp, -, hparts⟩ := Term.plain_mk.mp h
  refine Term.plain_mk.mpr ⟨rfl, hstamp _ (.head _), by simp,
    by simp, hparts.subset ?_⟩
  exact List.subset_append_right _ _

/-- The type that a record value carries. -/
theorem Term.Plain.record {renewed : Option Term} {type : Stamped (RecordType Term)}
    (h : (Term.mk n (.new renewed type)).Plain V S) : type.record.Plain V S := by
  obtain ⟨-, -, hstamp, -, hparts⟩ := Term.plain_mk.mp h
  refine Term.plain_mk.mpr ⟨rfl, hstamp _ (.head _), by simp,
    by simp, hparts.subset ?_⟩
  exact List.subset_append_right _ _

/-- The stamps of the matches that a function body carries. -/
def Body.innerStamps : Body → List Nat
  | .expr _ => []
  | .elim e => [e.stamp]
  | .interval _ _ otherwise => otherwise.toList.map Elim.stamp

/-- All declarations of the signature are plain. Names that are not declared count with the
empty declarations that they look up. -/
structure Signature.Plain (V : Var → Prop) (S : Nat → Prop) (sig : Signature) : Prop where
  data : ∀ d, Part.Plain V S (Telescope.parts (sig.data d).params)
  con : ∀ c, Part.Plain V S (Telescope.parts (sig.con c).params)
  patterns : ∀ c ps, (sig.con c).patterns = some ps → Part.Plain V S (Pattern.partsOf ps)
  this : ∀ r, V (sig.record r).this
  thisType : ∀ r, (sig.record r).thisType.Plain V S
  field : ∀ f, (sig.field f).type.Plain V S
  params : ∀ f, Part.Plain V S (Telescope.parts (sig.func f).params)
  resultType : ∀ f, (sig.func f).resultType.Plain V S
  body : ∀ f b, (sig.func f).body = some b → Part.Plain V S b.parts ∧ ∀ n ∈ b.innerStamps, S n

/-- A signature is plain if each of its entries is. -/
theorem Signature.plain_of_entries (hvar : V default) (hterm : (default : Term).Plain V S)
    (hdata : ∀ e ∈ sig.dataDefs.entries, Part.Plain V S e.2.params.parts)
    (hcon : ∀ e ∈ sig.conDefs.entries, Part.Plain V S e.2.params.parts ∧
      ∀ ps, e.2.patterns = some ps → Part.Plain V S (Pattern.partsOf ps))
    (hrecord : ∀ e ∈ sig.recordDefs.entries, V e.2.this ∧ e.2.thisType.Plain V S)
    (hfield : ∀ e ∈ sig.fieldDefs.entries, e.2.type.Plain V S)
    (hfunc : ∀ e ∈ sig.funcDefs.entries, Part.Plain V S e.2.params.parts ∧
      e.2.resultType.Plain V S ∧ ∀ b, e.2.body = some b →
        Part.Plain V S b.parts ∧ ∀ n ∈ b.innerStamps, S n) :
    sig.Plain V S := by
  obtain ⟨hdata, hcon, hrecord, hfield, hfunc⟩ := forall_of_entries
    (B := fun b => Part.Plain V S b.parts ∧ ∀ n ∈ b.innerStamps, S n) ⟨by simp, by simp⟩ hvar hterm
    hdata hcon hrecord hfield hfunc
  exact ⟨hdata, fun c => (hcon c).1, fun c => (hcon c).2, fun r => (hrecord r).1,
    fun r => (hrecord r).2, hfield, fun f => (hfunc f).1, fun f => (hfunc f).2.1,
    fun f => (hfunc f).2.2⟩

theorem Signature.Plain.mono (h : sig.Plain V S) (hV : ∀ x, V x → V' x) (hS : ∀ n, S n → S' n) :
    sig.Plain V' S' where
  data d := (h.data d).mono hV hS
  con c := (h.con c).mono hV hS
  patterns c ps hps := (h.patterns c ps hps).mono hV hS
  this r := hV _ (h.this r)
  thisType r := (h.thisType r).mono hV hS
  field f := (h.field f).mono hV hS
  params f := (h.params f).mono hV hS
  resultType f := (h.resultType f).mono hV hS
  body f b hb := ⟨(h.body f b hb).1.mono hV hS, fun n hn => hS n ((h.body f b hb).2 n hn)⟩

theorem Signature.Plain.steady {β : Pairing} (h : sig.Plain V S) (hV : ∀ x, V x → x.Paired β x)
    (hS : ∀ n, S n → β.stamp n n) :
    sig.Steady β where
  data d := ((h.data d).fixed hV hS).telescope
  con c := ((h.con c).fixed hV hS).telescope
  patterns c := by
    cases hps : (sig.con c).patterns with
    | none => exact .none
    | some ps => exact .some (((h.patterns c ps hps).fixed hV hS).patterns ps)
  this r := hV _ (h.this r)
  thisType r := (h.thisType r).like hV hS
  field f := (h.field f).like hV hS
  params f := ((h.params f).fixed hV hS).telescope
  resultType f := (h.resultType f).like hV hS
  body f := by
    cases hb : (sig.func f).body with
    | none => exact .none
    | some b =>
      obtain ⟨hparts, hstamps⟩ := h.body f b hb
      have hfixed := hparts.fixed hV hS
      refine .some ?_
      cases b with
      | expr t => exact .expr (hfixed.terms t (.head _))
      | elim e => exact .elim (hfixed.elim (hS _ (hstamps _ (.head _))))
      | interval ps ends otherwise =>
        refine .interval (List.forall₂_same.mpr fun e he => ?_) ?_
        · have hends := hfixed.left.right.flatMap e he
          exact ⟨hends.left.optional, hends.right.optional⟩
        · cases otherwise with
          | none => exact .none
          | some e =>
            have he := hfixed.right.flatMap e (by simp)
            exact .some (he.elim (hS _ (hstamps _ (by simp [Body.innerStamps]))))

/-! ## Runs from a later state -/

/-- The variable is neither a let clause nor an unknown, has a number below `N` and is not one
of those that are left out. -/
structure Var.Old (N : Nat) (X : Nat → Prop) (x : Var) : Prop where
  kind : x.kind = .param ∨ x.kind = .given
  serial : x.serial < N
  kept : ¬ X x.serial

@[simp] theorem Var.old_iff :
    x.Old N X ↔ (x.kind = .param ∨ x.kind = .given) ∧ x.serial < N ∧ ¬ X x.serial :=
  ⟨fun h => ⟨h.kind, h.serial, h.kept⟩, fun h => ⟨h.1, h.2.1, h.2.2⟩⟩

theorem Var.Old.mono {N' : Nat} {X' : Nat → Prop} (h : x.Old N X) (hN : N ≤ N')
    (hX : ∀ n, X' n → X n) : x.Old N' X' :=
  ⟨h.kind, Nat.lt_of_lt_of_le h.serial hN, fun hx => h.kept (hX _ hx)⟩

theorem Var.Old.later {N' : Nat} (h : x.Old N X) (hN : N ≤ N') : x.Old N' X :=
  h.mono hN fun _ h => h

/-- The state of a run that goes on after the numbers below `N` were taken, under the same
flags. -/
structure SolverState.After (N : Nat) (e : Equations) (s : SolverState) : Prop where
  next : N ≤ s.store.next
  levelsOnly : s.equations.levelsOnly = e.levelsOnly
  deferLevels : s.equations.deferLevels = e.deferLevels

section Again

variable {N : Nat} {s s' : SolverState}

/-- The same number from the time before both runs, or numbers that both took next. -/
def Pairing.Again (N : Nat) (X : Nat → Prop) (s s' : SolverState) (n n' : Nat) : Prop :=
  (n = n' ∧ n < N ∧ ¬ X n) ∨ ∃ k, n = s.store.next + k ∧ n' = s'.store.next + k

theorem Pairing.Again.unique {X : Nat → Prop} (hs : N ≤ s.store.next) (hs' : N ≤ s'.store.next) :
    Relator.BiUnique (Pairing.Again N X s s') := by
  refine ⟨?_, ?_⟩
  · rintro a b c (⟨rfl, ha, -⟩ | ⟨k, rfl, rfl⟩) (⟨rfl, hb, -⟩ | ⟨j, rfl, hj⟩) <;> omega
  · rintro a b c (⟨rfl, ha, -⟩ | ⟨k, rfl, rfl⟩) (⟨rfl, hb, -⟩ | ⟨j, hj, rfl⟩) <;> omega

/-- No number is left out. -/
abbrev Pairing.nothing : Nat → Prop := fun _ => False

/-- Sets a run beside another one from another state. -/
def Pairing.again (X : Nat → Prop) (hs : N ≤ s.store.next) (hs' : N ≤ s'.store.next) :
    Pairing where
  left := s
  right := s'
  var kind n n' := (kind = .param ∨ kind = .given) ∧ Pairing.Again N X s s' n n'
  stamp := Pairing.Again N nothing s s'
  var_kind h := h.1
  var_unique kind := by
    obtain ⟨hleft, hright⟩ := Pairing.Again.unique (X := X) hs hs'
    exact ⟨fun _ _ _ h h' => hleft h.2 h'.2, fun _ _ _ h h' => hright h.2 h'.2⟩
  stamp_unique := Pairing.Again.unique hs hs'
  var_fresh kind hkind k := ⟨hkind, .inr ⟨k, rfl, rfl⟩⟩
  stamp_fresh k := .inr ⟨k, rfl, rfl⟩

variable {X : Nat → Prop} {hs : N ≤ s.store.next} {hs' : N ≤ s'.store.next}

theorem Var.Old.paired (h : x.Old N X) : x.Paired (.again X hs hs') x :=
  .mk ⟨h.kind, .inl ⟨rfl, h.serial, h.kept⟩⟩

theorem Pairing.again_stamp (h : n < N) : (Pairing.again X hs hs').stamp n n :=
  .inl ⟨rfl, h, not_false⟩

/-- The states in which the two runs begin correspond. -/
theorem paired_again (hlevelsOnly : s'.equations.levelsOnly = s.equations.levelsOnly)
    (hdeferLevels : s'.equations.deferLevels = s.equations.deferLevels) :
    s.Paired (.again X hs hs') s' :=
  ⟨⟨0, rfl, rfl⟩, ⟨rfl, hlevelsOnly⟩, ⟨rfl, hdeferLevels⟩⟩

end Again

/-- A check that succeeds can be repeated, if what it does is mirrored. -/
theorem Mirrors.again {e : Equations} {A : Type} {R : A → A → Prop} {x x' : Check A}
    {s s₁ s' : CheckState} {a : A} (hs : s.solver.After N e) (hs' : s'.solver.After N e)
    (h : Mirrors (.again X hs.next hs'.next) x x' R) (hx : x s = .ok a s₁) :
    ∃ a' s₁', x' s' = .ok a' s₁' ∧ R a a' ∧ s₁.solver.After N e ∧ s₁'.solver.After N e := by
  have hpaired : s.solver.Paired (.again X hs.next hs'.next) s'.solver :=
    paired_again (hs'.levelsOnly.trans hs.levelsOnly.symm) (hs'.deferLevels.trans hs.deferLevels.symm)
  have hreflects := h s s' hpaired
  rw [hx] at hreflects
  obtain ⟨a', s₁', hx', ha, hs₁⟩ := hreflects
  obtain ⟨k, hk, hk'⟩ := hs₁.store
  obtain ⟨hlevels, hlevels'⟩ := hs₁.equations.levelsOnly
  obtain ⟨hdefer, hdefer'⟩ := hs₁.equations.deferLevels
  refine ⟨a', s₁', hx', ha, ⟨?_, ?_, ?_⟩, ⟨?_, ?_, ?_⟩⟩
  · exact hk ▸ Nat.le_add_right_of_le hs.next
  · exact hlevels.trans hs.levelsOnly
  · exact hdefer.trans hs.deferLevels
  · exact hk' ▸ Nat.le_add_right_of_le hs'.next
  · exact hlevels'.trans hs.levelsOnly
  · exact hdefer'.trans hs.deferLevels

end Recheck
