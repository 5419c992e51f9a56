import Recheck.Proofs.Renumbering.Pairing
import Recheck.Proofs.Undo
import Recheck.Typing.Context

/-!
# Recheck — looking things up by number

Mappings, telescopes, record types and contexts are searched by the names of variables and
fields. Names that correspond are told apart alike, so whatever is found in one of two
structures that correspond is found at the same place in the other.
-/

variable {x x' : Var}

namespace Recheck

open List (Forall₂)

/-- Finding the first element that a test accepts, where the tests agree. -/
theorem forall₂_find? {A B : Type} {R : A → B → Prop} {p : A → Bool} {p' : B → Bool}
    (hp : ∀ a b, R a b → p a = p' b) {as : List A} {bs : List B} (h : Forall₂ R as bs) :
    Option.Rel R (as.find? p) (bs.find? p') := by
  induction h with
  | nil => exact .none
  | cons hab _ ih =>
    rw [List.find?_cons, List.find?_cons, ← hp _ _ hab]
    split
    · exact .some hab
    · exact ih

theorem forall₂_filter {A B : Type} {R : A → B → Prop} {p : A → Bool} {p' : B → Bool}
    (hp : ∀ a b, R a b → p a = p' b) {as : List A} {bs : List B} (h : Forall₂ R as bs) :
    Forall₂ R (as.filter p) (bs.filter p') :=
  List.rel_filter (fun a b hab => iff_of_eq (congrArg (· = true) (hp a b hab))) h

theorem forall₂_findSome? {A B C D : Type} {R : A → B → Prop} {Q : C → D → Prop}
    {f : A → Option C} {f' : B → Option D} (hf : ∀ a b, R a b → Option.Rel Q (f a) (f' b))
    {as : List A} {bs : List B} (h : Forall₂ R as bs) :
    Option.Rel Q (as.findSome? f) (bs.findSome? f') := by
  induction h with
  | nil => exact .none
  | @cons a b _ _ hab _ ih =>
    rw [List.findSome?_cons, List.findSome?_cons]
    have hfab := hf a b hab
    generalize f a = o, f' b = o' at hfab
    cases hfab with
    | some h => exact .some h
    | none => exact ih

/-- Looking up under keys that are told apart alike. -/
theorem forall₂_lookup {K A : Type} [DecidableEq K] {P : K → K → Prop} {R : A → A → Prop}
    (hP : Relator.BiUnique P) {es es' : List (K × A)}
    (h : Forall₂ (fun e e' => P e.1 e'.1 ∧ R e.2 e'.2) es es') {k k' : K} (hk : P k k') :
    Option.Rel R (es.lookup k) (es'.lookup k') := by
  induction h with
  | nil => exact .none
  | @cons e e' _ _ he _ ih =>
    obtain ⟨j, a⟩ := e
    obtain ⟨j', a'⟩ := e'
    have hj := Relator.rel_eq hP hk he.1
    rw [List.lookup_cons, List.lookup_cons]
    by_cases hkj : k = j
    · rw [beq_iff_eq.mpr hkj, beq_iff_eq.mpr (hj.mp hkj)]
      exact .some he.2
    · rw [beq_eq_false_iff_ne.mpr hkj, beq_eq_false_iff_ne.mpr fun h => hkj (hj.mpr h)]
      exact ih

theorem forall₂_getElem? {A : Type} {R : A → A → Prop} {as as' : List A}
    (h : Forall₂ R as as') (i : Nat) : Option.Rel R as[i]? as'[i]? := by
  induction h generalizing i with
  | nil => exact .none
  | cons ha _ ih =>
    cases i with
    | zero => exact .some ha
    | succ i => exact ih i

/-- The same elements correspond to themselves. -/
theorem forall₂_eq {A : Type} (as : List A) : Forall₂ (fun a a' => a = a') as as :=
  List.forall₂_same.mpr fun _ _ => rfl

theorem forall₂_isEmpty {A : Type} {R : A → A → Prop} {as as' : List A}
    (h : Forall₂ R as as') : as.isEmpty = as'.isEmpty := by cases h <;> rfl

/-! ## Telescopes and patterns -/

section Telescopes

variable {T : Type} {β : Pairing} {R : T → T → Prop} {ps ps' : Telescope T}

theorem Param.Paired.type {p p' : Param T} (h : p.Paired β R p') :
    Option.Rel R p.type p'.type := by
  cases h with
  | mk _ htype => exact htype

theorem Telescope.Paired.headType (h : Telescope.Paired β R ps ps') :
    Option.Rel R ps.headType ps'.headType :=
  forall₂_findSome? (fun _ _ hp => Param.Paired.type hp) h

theorem Telescope.Paired.columns (h : Telescope.Paired β R ps ps') :
    Forall₂ (Column.Paired β R) ps.columns ps'.columns := by
  induction h with
  | nil => exact .nil
  | cons hp hps ih => exact .cons ⟨hp, Telescope.Paired.headType (.cons hp hps)⟩ ih

theorem Column.Paired.var {c c' : Column T} (h : c.Paired β R c') : c.var.Paired β c'.var := by
  cases h with
  | mk hp _ => exact hp.var

theorem Column.Paired.ofTyped {t t' : T} (hx : x.Paired β x') (ht : R t t') :
    (Column.ofTyped x t).Paired β R (Column.ofTyped x' t') :=
  ⟨⟨hx, .some ht⟩, .some ht⟩

mutual

theorem Pattern.Paired.bindings : ∀ {p p' : Pattern T}, p.Paired β R p' →
    Forall₂ (fun b b' => b.1.Paired β b'.1 ∧ R b.2 b'.2) p.bindings p'.bindings
  | .bind .., _, .bind hx ht => .cons ⟨hx, ht⟩ .nil
  | .wild, _, .wild => .nil
  | .absurd, _, .absurd => .nil
  | .con .., _, .con _ h => Pattern.Paired.bindingsOf h
  | .tuple _, _, .tuple h => Pattern.Paired.bindingsOf h
  | .record .., _, .record _ h => Pattern.Paired.bindingsOf h

theorem Pattern.Paired.bindingsOf : ∀ {ps ps' : List (Pattern T)},
    Forall₂ (Pattern.Paired β R) ps ps' →
      Forall₂ (fun b b' => b.1.Paired β b'.1 ∧ R b.2 b'.2) (Pattern.bindingsOf ps)
        (Pattern.bindingsOf ps')
  | [], _, .nil => .nil
  | _ :: _, _, .cons h hs =>
    List.rel_append (Pattern.Paired.bindings h) (Pattern.Paired.bindingsOf hs)

end

mutual

theorem Pattern.Paired.hasAbsurd : ∀ {p p' : Pattern T}, p.Paired β R p' →
    p.hasAbsurd = p'.hasAbsurd
  | .bind .., _, .bind _ _ => rfl
  | .wild, _, .wild => rfl
  | .absurd, _, .absurd => rfl
  | .con .., _, .con _ h => Pattern.Paired.anyAbsurd h
  | .tuple _, _, .tuple h => Pattern.Paired.anyAbsurd h
  | .record .., _, .record _ h => Pattern.Paired.anyAbsurd h

theorem Pattern.Paired.anyAbsurd : ∀ {ps ps' : List (Pattern T)},
    Forall₂ (Pattern.Paired β R) ps ps' →
      Pattern.anyAbsurd ps = Pattern.anyAbsurd ps'
  | [], _, .nil => rfl
  | _ :: _, _, .cons h hs => by
    rw [Pattern.anyAbsurd, Pattern.anyAbsurd, Pattern.Paired.hasAbsurd h,
      Pattern.Paired.anyAbsurd hs]

end

end Telescopes

/-! ## Mappings and record types -/

namespace Mapping.Paired

variable {T : Type} {β : Pairing} {R : T → T → Prop} {m m' : Mapping T} {v v' : Variable}

theorem empty : (Mapping.empty : Mapping T).Paired β R .empty := List.Forall₂.nil

section

variable (h : m.Paired β R m')

include h

theorem isEmpty : m.isEmpty = m'.isEmpty := forall₂_isEmpty h

theorem get? (hv : v.Paired β v') : Option.Rel R (m.get? v) (m'.get? v') :=
  forall₂_lookup (Variable.paired_unique β) h hv

theorem contains (hv : v.Paired β v') : m.contains v = m'.contains v' :=
  Option.Rel.isSome_eq (h.get? hv)

/-- The parts of two mappings on variables that are told apart alike. -/
theorem filter {p p' : Variable → Bool} (hp : ∀ v v', v.Paired β v' → p v = p' v') :
    (Mapping.mk (m.entries.filter fun e => p e.1)).Paired β R
      ⟨m'.entries.filter fun e => p' e.1⟩ :=
  forall₂_filter (fun _ _ he => hp _ _ he.1) h

theorem insert {t t' : T} (hv : v.Paired β v')
    (ht : R t t') : (m.insert v t).Paired β R (m'.insert v' t') :=
  Mapping.forall₂_place h (fun _ _ he => he.1.eq_iff hv) ⟨hv, ht⟩

end

theorem single {t t' : T} (hv : v.Paired β v') (ht : R t t') :
    (Mapping.single v t).Paired β R (Mapping.single v' t') :=
  insert empty hv ht

theorem insertVars {xs xs' : List Var} {ts ts' : List T} (h : m.Paired β R m')
    (hxs : Forall₂ (Var.Paired β) xs xs') (hts : Forall₂ R ts ts') :
    (m.insertVars xs ts).Paired β R (m'.insertVars xs' ts') := by
  induction hxs generalizing m m' ts ts' with
  | nil => exact h
  | cons hx _ ih =>
    cases hts with
    | nil => exact h
    | cons ht hts => exact ih (h.insert (.local hx) ht) hts

theorem insertAll {n n' : Mapping T} (h : m.Paired β R m') (hn : n.Paired β R n') :
    (m.insertAll n).Paired β R (m'.insertAll n') := by
  refine List.rel_foldr (P := Mapping.Paired β R)
    (R := fun (e e' : Variable × T) => e.1.Paired β e'.1 ∧ R e.2 e'.2) ?_ h hn
  exact fun _ _ he _ _ hk => hk.insert he.1 he.2

end Mapping.Paired

namespace RecordType.Paired

variable {T : Type} {β : Pairing} {R : T → T → Prop} {r r' : RecordType T}

variable (h : r.Paired β R r')

include h

theorem record : r.record = r'.record := by cases h; rfl

theorem sortArg : r.sortArg = r'.sortArg := by cases h; rfl

theorem sort : r.sort = r'.sort := by cases h; rfl

theorem universes : r.universes = r'.universes := by cases h; rfl

theorem this : r.this.Paired β r'.this := by
  cases h with
  | mk _ hthis => exact hthis

theorem impls : Forall₂ (fun e e' => e.1 = e'.1 ∧ R e.2 e'.2) r.impls r'.impls := by
  cases h with
  | mk himpls _ => exact himpls

theorem impl? (f : FieldName) : Option.Rel R (r.impl? f) (r'.impl? f) :=
  forall₂_lookup ⟨fun _ _ _ h h' => h.trans h'.symm, fun _ _ _ h h' => h.symm.trans h'⟩ h.impls rfl

theorem isImplemented : r.isImplemented = r'.isImplemented := by
  funext f
  exact Option.Rel.isSome_eq (h.impl? f)

theorem implement (f : FieldName) {t t' : T} (ht : R t t') :
    (r.implement f t).Paired β R (r'.implement f t') := by
  obtain ⟨himpls, hthis⟩ := h
  refine ⟨List.rel_append (forall₂_filter (fun e e' he => ?_) himpls) (.cons ⟨rfl, ht⟩ .nil),
    hthis⟩
  rw [he.1]

end RecordType.Paired

section Records

variable {β : Pairing} {R : Term → Term → Prop} {r r' : RecordType Term} (sig : Signature)

theorem Signature.implemented_eq (h : r.Paired β R r') :
    sig.implemented r = sig.implemented r' := by
  rw [Signature.implemented, Signature.implemented, h.record, h.isImplemented]

theorem Signature.notImplemented_eq (h : r.Paired β R r') :
    sig.notImplemented r = sig.notImplemented r' := by
  rw [Signature.notImplemented, Signature.notImplemented, h.record, h.isImplemented]

end Records

/-! ## Substitutions and contexts -/

/-- The substitutions do the same to variables that correspond. They may differ in what they
do to other ones, which terms that are alike do not mention. -/
structure Substitution.Paired (β : Pairing) (σ σ' : Substitution) : Prop where
  get? : ∀ v v', v.Paired β v' → Option.Rel (Term.Like β) (σ.exprs.get? v) (σ'.exprs.get? v')
  isEmpty : σ.exprs.isEmpty = σ'.exprs.isEmpty
  levels : σ.levels = σ'.levels

namespace Substitution.Paired

variable {β : Pairing} {σ σ' : Substitution}

theorem isIdentity (h : σ.Paired β σ') : σ.isIdentity = σ'.isIdentity := by
  rw [Substitution.isIdentity, Substitution.isIdentity, h.isEmpty, h.levels]

theorem of {m m' : Mapping Term} (hm : m.Like β m') (levels : LevelSubst) :
    (Substitution.of m levels).Paired β (.of m' levels) :=
  ⟨fun _ _ hv => hm.get? hv, hm.isEmpty, rfl⟩

theorem identity : Substitution.identity.Paired β .identity := of .empty _

theorem single {t t' : Term} (hx : x.Paired β x') (ht : t.Like β t') :
    (Substitution.single x t).Paired β (.single x' t') :=
  of (.single (.local hx) ht) _

theorem bind (h : σ.Paired β σ') {t t' : Term} (hx : x.Paired β x')
    (ht : t.Like β t') : (σ.bind x t).Paired β (σ'.bind x' t') := by
  have hempty := (σ.exprs.isEmpty_insert (v := .local x) (t := t)).trans
    (σ'.exprs.isEmpty_insert (v := .local x') (t := t')).symm
  refine ⟨fun v v' hv => ?_, hempty, h.levels⟩
  have hiff := hv.eq_iff (.local hx)
  dsimp only [Substitution.bind]
  by_cases heq : v = .local x
  · rw [heq, hiff.mp heq, Mapping.get?_insert_self, Mapping.get?_insert_self]
    exact .some ht
  · rw [Mapping.get?_insert_of_ne _ _ heq, Mapping.get?_insert_of_ne _ _ (hiff.not.mp heq)]
    exact h.get? v v' hv

end Substitution.Paired

inductive ContextEntry.Paired (β : Pairing) : ContextEntry → ContextEntry → Prop where
  | mk {x x' : Var} {type type' : Option Term} (hx : x.Paired β x')
      (htype : Option.Rel (Term.Like β) type type') : Paired β ⟨x, type⟩ ⟨x', type'⟩

/-- The contexts agree on all variables that correspond. They may differ in other ones, which
terms that are alike do not mention. -/
def Context.Paired (β : Pairing) (Γ Γ' : Context) : Prop :=
  ∀ x x', x.Paired β x' → Option.Rel (ContextEntry.Paired β) (Γ.entry? x) (Γ'.entry? x')

theorem Context.contains_eq_isSome (Γ : Context) (x : Var) :
    Γ.contains x = (Γ.entry? x).isSome := by
  rw [Bool.eq_iff_iff, Context.contains, decide_eq_true_iff, Context.vars, List.mem_map,
    Context.entry?, List.find?_isSome]
  simp only [decide_eq_true_eq]

theorem Context.entry?_cons (Γ : Context) (e : ContextEntry) (x : Var) :
    Context.entry? ⟨e :: Γ.entries⟩ x = if e.var = x then some e else Γ.entry? x := by
  simp only [Context.entry?, List.find?_cons]
  split <;> simp_all

namespace Context.Paired

variable {β : Pairing} {Γ Γ' : Context}

theorem contains (h : Γ.Paired β Γ') (hx : x.Paired β x') : Γ.contains x = Γ'.contains x' := by
  rw [Γ.contains_eq_isSome, Γ'.contains_eq_isSome]
  exact (h x x' hx).isSome_eq

theorem add? (h : Γ.Paired β Γ') {type type' : Option Term} (hx : x.Paired β x')
    (htype : Option.Rel (Term.Like β) type type') :
    Option.Rel (Context.Paired β) (Γ.add? x type) (Γ'.add? x' type') := by
  rw [Context.add?, Context.add?, h.contains hx]
  split
  · exact .none
  refine .some fun y y' hy => ?_
  rw [Context.entry?_cons, Context.entry?_cons]
  by_cases hxy : x = y
  · rw [if_pos hxy, if_pos ((hx.eq_iff hy).mp hxy)]
    exact .some ⟨hx, htype⟩
  · rw [if_neg hxy, if_neg fun h => hxy ((hx.eq_iff hy).mpr h)]
    exact h y y' hy

end Context.Paired

end Recheck
