import Mathlib.Data.List.Forall2
import Recheck.Proofs.Region
import Recheck.Reduction

/-!
# Recheck — matching and evaluating, through a relation

Clauses and decision trees look at their arguments only through heads, and hand a body what
they bound. A `Coupling` is a relation of two evaluations, with all that has to be known about
heads and bodies; `Coupling.ends_clauses` and `Coupling.ends_tree` say that then the
evaluations are related. The relation may change from one moment of the runs to a later one.
An invariant of one run is a relation as well, of the run to itself.
-/

namespace Recheck

open List (Forall₂)

/-! ## Related data -/

section Self

variable {P : Term → Prop} {ts : List Term} {o o' : Option Term}

/-- What has a property is related to itself. -/
theorem forall₂_self (h : ∀ t ∈ ts, P t) : Forall₂ (fun t t' => P t ∧ t = t') ts ts :=
  List.forall₂_same.mpr fun t ht => ⟨h t ht, rfl⟩

theorem rel_self (h : ∀ t, o = some t → P t) : Option.Rel (fun t t' => P t ∧ t = t') o o := by
  cases o with
  | none => exact .none
  | some t => exact .some ⟨h t rfl, rfl⟩

theorem of_rel_self (h : Option.Rel (fun t t' => P t ∧ t = t') o o') : ∀ t, o = some t → P t := by
  rintro t rfl
  cases h with
  | some h => exact h.1

end Self

/-! Binding structure is related by a relation of variables and one of terms. -/

section Structure

variable {A : Type} (V : Var → Var → Prop) (R : A → A → Prop)

inductive Param.Rel : Param A → Param A → Prop where
  | mk {x x' : Var} {type type' : Option A} {explicit : Bool} (hx : V x x')
      (htype : Option.Rel R type type') : Rel ⟨x, type, explicit⟩ ⟨x', type', explicit⟩

/-- The telescopes are related, parameter by parameter. -/
abbrev Telescope.Rel (ps ps' : Telescope A) : Prop := Forall₂ (Param.Rel V R) ps ps'

inductive Pattern.Rel : Pattern A → Pattern A → Prop where
  | bind {x x' : Var} {t t' : A} (hx : V x x') (ht : R t t') : Rel (.bind x t) (.bind x' t')
  | wild : Rel .wild .wild
  | absurd : Rel .absurd .absurd
  | con (c : ConName) {ps ps' : List (Pattern A)} (h : Forall₂ Rel ps ps') :
      Rel (.con c ps) (.con c ps')
  | tuple {ps ps' : List (Pattern A)} (h : Forall₂ Rel ps ps') : Rel (.tuple ps) (.tuple ps')
  | record (fields : List FieldName) {ps ps' : List (Pattern A)} (h : Forall₂ Rel ps ps') :
      Rel (.record fields ps) (.record fields ps')

inductive Clause.Rel : Clause A → Clause A → Prop where
  | mk {ps ps' : List (Pattern A)} {body body' : Option A}
      (hps : Forall₂ (Pattern.Rel V R) ps ps') (hbody : Option.Rel R body body') :
      Rel ⟨ps, body⟩ ⟨ps', body'⟩

mutual

inductive Tree.Rel : Tree A → Tree A → Prop where
  | leaf {ps ps' : Telescope A} {body body' : A} (hps : Telescope.Rel V R ps ps')
      (hbody : R body body') : Tree.Rel (.leaf ps body) (.leaf ps' body')
  | branch {ps ps' : Telescope A} {children children' : List (BranchKey × Tree A)}
      (hps : Telescope.Rel V R ps ps') (hchildren : Tree.RelAll children children') :
      Tree.Rel (.branch ps children) (.branch ps' children')

/-- The children of two branches are related, under the same keys. -/
inductive Tree.RelAll : List (BranchKey × Tree A) → List (BranchKey × Tree A) → Prop where
  | nil : Tree.RelAll [] []
  | cons (key : BranchKey) {t t' : Tree A} {rest rest' : List (BranchKey × Tree A)}
      (ht : Tree.Rel t t') (hrest : Tree.RelAll rest rest') :
      Tree.RelAll ((key, t) :: rest) ((key, t') :: rest')

end

end Structure

section Telescopes

variable {A : Type} {V : Var → Var → Prop} {R : A → A → Prop}

theorem Param.Rel.var {p p' : Param A} (h : p.Rel V R p') : V p.var p'.var := by
  cases h with
  | mk hx _ => exact hx

theorem Telescope.Rel.vars {ps ps' : Telescope A} (h : ps.Rel V R ps') :
    Forall₂ V ps.vars ps'.vars :=
  List.rel_map (fun _ _ hp => Param.Rel.var hp) h

end Telescopes

/-- The variables and terms among the parts are related to themselves. -/
structure Part.Fixed (V : Var → Var → Prop) (R : Term → Term → Prop) (parts : List (Part Term)) :
    Prop where
  terms : ∀ t, .term t ∈ parts → R t t
  binders : ∀ x, .binder x ∈ parts → V x x

namespace Part.Fixed

variable {V : Var → Var → Prop} {R : Term → Term → Prop} {ps qs : List (Part Term)}

theorem subset (h : Fixed V R qs) (hle : ps ⊆ qs) : Fixed V R ps :=
  ⟨fun t ht => h.terms t (hle ht), fun x hx => h.binders x (hle hx)⟩

theorem left (h : Fixed V R (ps ++ qs)) : Fixed V R ps :=
  h.subset (List.subset_append_left ps qs)

theorem right (h : Fixed V R (ps ++ qs)) : Fixed V R qs :=
  h.subset (List.subset_append_right ps qs)

theorem all {ts : List Term} (h : Fixed V R (ts.map .term)) : List.Forall₂ R ts ts :=
  List.forall₂_same.mpr fun t ht => h.terms t (List.mem_map_of_mem ht)

theorem optional {o : Option Term} (h : Fixed V R (o.toList.map .term)) : Option.Rel R o o := by
  cases o with
  | none => exact .none
  | some t => exact .some (h.terms t (by simp))

theorem flatMap {A : Type} {f : A → List (Part Term)} {as : List A}
    (h : Fixed V R (as.flatMap f)) : ∀ a ∈ as, Fixed V R (f a) := by
  intro a ha
  refine h.subset fun p hp => List.mem_flatMap.mpr ⟨a, ha, hp⟩

theorem telescope {ps : Telescope Term} (h : Fixed V R ps.parts) :
    ps.Rel V R ps := by
  refine List.forall₂_same.mpr fun p hp => ?_
  have hp := h.flatMap p hp
  obtain ⟨x, type, explicit⟩ := p
  refine ⟨hp.binders x (by simp), Part.Fixed.optional (hp.subset ?_)⟩
  exact List.subset_cons_self _ _

mutual

theorem pattern : ∀ (p : Pattern Term), Fixed V R p.parts → p.Rel V R p
  | .bind x t, h => .bind (h.binders x (by simp [Pattern.parts]))
    (h.terms t (by simp [Pattern.parts]))
  | .wild, _ => .wild
  | .absurd, _ => .absurd
  | .con c ps, h => .con c (patterns ps h)
  | .tuple ps, h => .tuple (patterns ps h)
  | .record fields ps, h => .record fields (patterns ps h)

theorem patterns : ∀ (ps : List (Pattern Term)), Fixed V R (Pattern.partsOf ps) →
    List.Forall₂ (Pattern.Rel V R) ps ps
  | [], _ => .nil
  | p :: ps, h => by
    rw [Pattern.partsOf_cons] at h
    exact .cons (pattern p h.left) (patterns ps h.right)

end

theorem clause {c : Clause Term} (h : Fixed V R c.parts) : c.Rel V R c :=
  ⟨patterns _ h.left, optional h.right⟩

mutual

theorem tree : ∀ (t : Tree Term), Fixed V R t.parts → t.Rel V R t
  | .leaf ps body, h => by
    rw [Tree.parts] at h
    exact .leaf h.left.telescope (h.right.terms body (.head _))
  | .branch ps children, h => by
    rw [Tree.parts] at h
    exact .branch h.left.telescope (trees children h.right)

theorem trees : ∀ (ts : List (BranchKey × Tree Term)), Fixed V R (Tree.partsOf ts) →
    Tree.RelAll V R ts ts
  | [], _ => .nil
  | (key, t) :: rest, h => by
    rw [Tree.partsOf] at h
    exact .cons key (tree t h.left) (trees rest h.right)

end

end Part.Fixed

section Data

variable (T : Term → Term → Prop)
variable (K : RecordType Term → RecordType Term → Prop) (M : Mapping Term → Mapping Term → Prop)

inductive Match.Rel : Match → Match → Prop where
  | no : Rel .no .no
  | yes {m m' : Mapping Term} (hm : M m m') : Rel (.yes m) (.yes m')
  | maybe {t t' : Term} (ht : T t t') : Rel (.maybe t) (.maybe t')

inductive Head.Rel : Head → Head → Prop where
  | con (c : ConName) {args args' : List Term} (h : Forall₂ T args args') :
      Rel (.con c args) (.con c args')
  | tuple {fields fields' : List Term} (h : Forall₂ T fields fields') :
      Rel (.tuple fields) (.tuple fields')
  | record {value value' : Term} {r r' : RecordType Term} (hvalue : T value value') (hr : K r r') :
      Rel (.record value r) (.record value' r')

/-- The node is neither a tuple nor a record value. -/
def Node.isAtom : Node Term → Bool
  | .tuple .. | .new .. => false
  | _ => true

/-- The nodes are tuples or record values alike. -/
inductive Node.Rel : Node Term → Node Term → Prop where
  | tuple {ts ts' : List Term} {type type' : Stamped (SigmaType Term)} (h : Forall₂ T ts ts') :
      Rel (.tuple ts type) (.tuple ts' type')
  | new {o o' : Option Term} {r r' : Stamped (RecordType Term)} (h : K r.val r'.val) :
      Rel (.new o r) (.new o' r')
  | atom {node node' : Node Term} (h : node.isAtom) (h' : node'.isAtom) : Rel node node'

end Data

/-- What is left of an evaluation when a body is chosen. -/
def resume (sig : Signature) (fuel : Nat) (levels : LevelSubst) (body : Term) (m : Mapping Term)
    (rest : List Term) : Core Evaluation := do
  let t ← body.subst sig fuel (.of m levels)
  return .reduced (← makeApp sig fuel t rest)

/-- A relation of evaluations, and what makes it pass from heads and bodies to whole evaluations. -/
structure Coupling (sig : Signature) (fuel fuel' : Nat) (whnf whnf' : Term → Core Term)
    (levels : LevelSubst) where
  Moment : Type
  Later : Moment → Moment → Prop
  vars : Var → Var → Prop
  bodies : Term → Term → Prop
  terms : Moment → Term → Term → Prop
  records : Moment → RecordType Term → RecordType Term → Prop
  maps : Moment → Mapping Term → Mapping Term → Prop
  Runs {A : Type} : Moment → Core A → Core A → (Moment → A → A → Prop) → Prop
  Ends : Moment → Core Evaluation → Core Evaluation → Prop
  terms_later {w w' t t'} : Later w w' → terms w t t' → terms w' t t'
  records_later {w w' r r'} : Later w w' → records w r r' → records w' r r'
  maps_later {w w' m m'} : Later w w' → maps w m m' → maps w' m m'
  maps_empty (w) : maps w .empty .empty
  maps_insert {w m m' x x' t t'} : maps w m m' → vars x x' → terms w t t' →
    maps w (m.insert (.local x) t) (m'.insert (.local x') t')
  pure {A : Type} {w} {a a' : A} {Q} : Q w a a' → Runs w (pure a) (pure a') Q
  bind {A B : Type} {w} {x x' : Core A} {f f' : A → Core B} {Q S} : Runs w x x' Q →
    (∀ w' a a', Later w w' → Q w' a a' → Runs w' (f a) (f' a') S) → Runs w (x >>= f) (x' >>= f') S
  ends_bind {A : Type} {w} {x x' : Core A} {f f' : A → Core Evaluation} {Q} : Runs w x x' Q →
    (∀ w' a a', Later w w' → Q w' a a' → Ends w' (f a) (f' a')) → Ends w (x >>= f) (x' >>= f')
  stuck {w o o'} : Option.Rel (terms w) o o' → Ends w (Pure.pure (.stuck o)) (Pure.pure (.stuck o'))
  resume {w b b' m m' ts ts'} : bodies b b' → maps w m m' → Forall₂ (terms w) ts ts' →
    Ends w (resume sig fuel levels b m ts) (resume sig fuel' levels b' m' ts')
  reduces {w t t'} : terms w t t' → Runs w (whnf t) (whnf' t') terms
  node {w t t'} : terms w t t' → Node.Rel (terms w) (records w) t.node t'.node
  constructor {w t t'} : terms w t t' → Runs w t.constructor? t'.constructor? fun w =>
    Option.Rel fun c c' => c.1 = c'.1 ∧ Forall₂ (terms w) c.2 c'.2
  name {w r r'} : records w r r' → r.record = r'.record
  implementation {w r r' t t'} (f : FieldName) : records w r r' → terms w t t' →
    Runs w (r.implementation sig fuel f t) (r'.implementation sig fuel' f t') fun w =>
      Option.Rel (terms w)
  malformed {A : Type} {w r r' Q} : records w r r' →
    Runs w (throw .malformed : Core A) (throw .malformed) Q

namespace Coupling

open Reduction

variable {sig : Signature} {fuel fuel' : Nat} {whnf whnf' : Term → Core Term} {levels : LevelSubst}
  (C : Coupling sig fuel fuel' whnf whnf' levels)
variable {w : C.Moment} {t t' : Term} {ts ts' : List Term} {r r' : RecordType Term}
  {m m' : Mapping Term} {S : Term → Term → Prop}

theorem terms_all {w' : C.Moment} (hw : C.Later w w') (h : Forall₂ (C.terms w) ts ts') :
    Forall₂ (C.terms w') ts ts' :=
  h.imp fun _ _ => C.terms_later hw

theorem head_later {w' : C.Moment} (hw : C.Later w w') {head head' : Head}
    (h : head.Rel (C.terms w) (C.records w) head') :
    head.Rel (C.terms w') (C.records w') head' := by
  cases h with
  | con c h => exact .con c (C.terms_all hw h)
  | tuple h => exact .tuple (C.terms_all hw h)
  | record h hr => exact .record (C.terms_later hw h) (C.records_later hw hr)

theorem runs_fieldValues (ht : C.terms w t t') (hr : C.records w r r') (fs : List FieldName) :
    C.Runs w (fieldValues sig fuel t r fs) (fieldValues sig fuel' t' r' fs) fun w =>
      Forall₂ (C.terms w) := by
  induction fs generalizing w with
  | nil => exact C.pure .nil
  | cons f fs ih =>
    rw [fieldValues, fieldValues]
    refine C.bind (C.implementation f hr ht) fun w₁ o o' h₁ ho => ?_
    cases ho with
    | none => exact C.malformed (C.records_later h₁ hr)
    | some hu =>
      refine C.bind (ih (C.terms_later h₁ ht) (C.records_later h₁ hr)) ?_
      exact fun w₂ us us' h₂ hus => C.pure (.cons (C.terms_later h₂ hu) hus)

theorem runs_head? (ht : C.terms w t t') : C.Runs w t.head? t'.head? fun w =>
    Option.Rel (Head.Rel (C.terms w) (C.records w)) := by
  have hcon : C.Runs w (t.constructor? >>= fun o => Pure.pure (o.map fun p => Head.con p.1 p.2))
      (t'.constructor? >>= fun o => Pure.pure (o.map fun p => Head.con p.1 p.2)) fun w =>
        Option.Rel (Head.Rel (C.terms w) (C.records w)) := by
    refine C.bind (C.constructor ht) fun w₁ o o' h₁ ho => C.pure ?_
    cases ho with
    | none => exact .none
    | @some p p' hp =>
      obtain ⟨c, args⟩ := p
      obtain ⟨c', args'⟩ := p'
      obtain ⟨rfl, hargs⟩ : c = c' ∧ Forall₂ (C.terms w₁) args args' := hp
      exact .some (.con c hargs)
  have hnode := C.node ht
  rw [Term.head?, Term.head?]
  generalize t.node = node, t'.node = node' at hnode ⊢
  cases hnode with
  | tuple h => exact C.pure (.some (.tuple h))
  | new hr => exact C.pure (.some (.record ht hr))
  | atom h h' =>
    split
    · cases h
    · cases h
    split
    · cases h'
    · cases h'
    · exact hcon

/-! ## Matching -/

mutual

/-- One pattern; the cases follow the forms of patterns. -/
theorem runs_matchOne : ∀ {w : C.Moment} {m m' : Mapping Term} {p p' : Pattern Term} {t t' : Term},
    C.maps w m m' → p.Rel C.vars S p' → C.terms w t t' →
    C.Runs w (matchOne sig fuel whnf m p t) (matchOne sig fuel' whnf' m' p' t') fun w =>
      Match.Rel (C.terms w) (C.maps w)
  | w, _, _, .bind .., _, _, _, hm, .bind hx _, ht => by
    rw [matchOne, matchOne]
    exact C.pure (.yes (C.maps_insert hm hx ht))
  | w, _, _, .wild, _, _, _, hm, .wild, _ => by
    rw [matchOne, matchOne]
    exact C.pure (.yes hm)
  | w, _, _, .absurd, _, _, _, _, .absurd, _ => by
    rw [matchOne, matchOne]
    exact C.pure .no
  | w, _, _, .con .., _, _, _, hm, .con c hps, ht => by
    rw [matchOne, matchOne]
    refine C.bind (C.reduces ht) fun w₁ u u' h₁ hu => ?_
    refine C.bind (C.constructor hu) fun w₂ o o' h₂ ho => ?_
    cases ho with
    | none => exact C.pure (.maybe (C.terms_later h₂ hu))
    | @some p p' hp =>
      obtain ⟨d, ts⟩ := p
      obtain ⟨d', ts'⟩ := p'
      obtain ⟨rfl, hts⟩ : d = d' ∧ Forall₂ (C.terms w₂) ts ts' := hp
      dsimp only
      rw [hps.length_eq, hts.length_eq]
      split
      · split
        · exact runs_matchAll (C.maps_later h₂ (C.maps_later h₁ hm)) .none hps hts
        · exact C.pure .no
      · exact C.pure .no
  | w, _, _, .tuple _, _, _, _, hm, .tuple hps, ht => by
    rw [matchOne, matchOne]
    refine C.bind (C.reduces ht) fun w₁ u u' h₁ hu => ?_
    have hnode := C.node hu
    generalize u.node = node, u'.node = node' at hnode ⊢
    cases hnode with
    | tuple hts =>
      dsimp only
      rw [hps.length_eq, hts.length_eq]
      split
      · exact runs_matchAll (C.maps_later h₁ hm) .none hps hts
      · exact C.pure .no
    | new _ => exact C.pure (.maybe hu)
    | atom h h' =>
      split
      · cases h
      split
      · cases h'
      · exact C.pure (.maybe hu)
  | w, _, _, .record .., _, _, _, hm, .record fields hps, ht => by
    rw [matchOne, matchOne]
    refine C.bind (C.reduces ht) fun w₁ u u' h₁ hu => ?_
    have hnode := C.node hu
    generalize u.node = node, u'.node = node' at hnode ⊢
    cases hnode with
    | tuple _ => exact C.pure (.maybe hu)
    | new hr =>
      refine C.bind (runs_fieldValues C hu hr fields) fun w₂ ts ts' h₂ hts => ?_
      rw [hps.length_eq, hts.length_eq]
      split
      · exact runs_matchAll (C.maps_later h₂ (C.maps_later h₁ hm)) .none hps hts
      · exact C.pure .no
    | atom h h' =>
      split
      · cases h
      split
      · cases h'
      · exact C.pure (.maybe hu)

theorem runs_matchAll : ∀ {w : C.Moment} {m m' : Mapping Term} {o o' : Option Term}
    {ps ps' : List (Pattern Term)} {ts ts' : List Term}, C.maps w m m' →
    Option.Rel (C.terms w) o o' → Forall₂ (Pattern.Rel C.vars S) ps ps' →
    Forall₂ (C.terms w) ts ts' →
    C.Runs w (matchAll sig fuel whnf m o ps ts) (matchAll sig fuel' whnf' m' o' ps' ts') fun w =>
      Match.Rel (C.terms w) (C.maps w)
  | w, _, _, _, _, [], _, _, _, hm, ho, .nil, _
  | w, _, _, _, _, _ :: _, _, _, _, hm, ho, .cons _ _, .nil => by
    unfold matchAll
    cases ho with
    | none => exact C.pure (.yes hm)
    | some ht => exact C.pure (.maybe ht)
  | w, _, _, _, _, _ :: _, _, _, _, hm, ho, .cons hp hps, .cons ht hts => by
    rw [matchAll, matchAll]
    refine C.bind (runs_matchOne hm hp ht) fun w₁ r r' h₁ hr => ?_
    have hts := C.terms_all h₁ hts
    cases hr with
    | no => exact C.pure .no
    | yes hm =>
      refine runs_matchAll hm ?_ hps hts
      cases ho with
      | none => exact .none
      | some ht => exact .some (C.terms_later h₁ ht)
    | maybe hu =>
      refine runs_matchAll (C.maps_later h₁ hm) ?_ hps hts
      cases ho with
      | none => exact .some hu
      | some ht => exact .some (C.terms_later h₁ ht)

end

theorem runs_matchPatterns {ps ps' : List (Pattern Term)} (hps : Forall₂ (Pattern.Rel C.vars S) ps ps')
    (hts : Forall₂ (C.terms w) ts ts') :
    C.Runs w (Reduction.matchPatterns sig fuel whnf ps ts)
      (Reduction.matchPatterns sig fuel' whnf' ps' ts') fun w =>
      Match.Rel (C.terms w) (C.maps w) := by
  rw [Reduction.matchPatterns, Reduction.matchPatterns, hps.length_eq, hts.length_eq]
  split
  · exact C.runs_matchAll (C.maps_empty w) .none hps hts
  · exact C.pure .no

/-! ## Evaluating -/

theorem ends_clauses {cs cs' : List (Clause Term)} (hts : Forall₂ (C.terms w) ts ts')
    (hcs : Forall₂ (Clause.Rel C.vars C.bodies) cs cs') :
    C.Ends w (clauses sig fuel whnf levels ts cs) (clauses sig fuel' whnf' levels ts' cs') := by
  induction hcs generalizing w with
  | nil => exact C.stuck .none
  | @cons c c' _ _ hc _ ih =>
    obtain ⟨hps, hbody⟩ := hc
    rw [clauses, clauses]
    refine C.ends_bind (C.runs_matchPatterns hps hts) fun w₁ r r' h₁ hr => ?_
    cases hr with
    | no => exact ih (C.terms_all h₁ hts)
    | maybe ht => exact C.stuck (.some ht)
    | yes hm =>
      cases hbody with
      | none => exact C.stuck .none
      | some hbody => exact C.resume hbody hm .nil

theorem rel_bindParams {xs xs' : List Var} (hm : C.maps w m m') (hxs : Forall₂ C.vars xs xs')
    (hts : Forall₂ (C.terms w) ts ts') :
    Option.Rel (fun p p' => C.maps w p.1 p'.1 ∧ Forall₂ (C.terms w) p.2 p'.2)
      (bindParams m xs ts) (bindParams m' xs' ts') := by
  induction hxs generalizing m m' ts ts' with
  | nil => exact .some ⟨hm, hts⟩
  | cons hx _ ih =>
    cases hts with
    | nil => exact .none
    | cons ht hts => exact ih (C.maps_insert hm hx ht) hts

theorem runs_pushed {head head' : Head} (h : head.Rel (C.terms w) (C.records w) head')
    (key : BranchKey) : C.Runs w (pushed sig fuel head key) (pushed sig fuel' head' key) fun w =>
      Option.Rel (Forall₂ (C.terms w)) := by
  cases h with
  | con c hargs =>
    cases key with
    | con d =>
      refine C.pure ?_
      split
      · exact .some hargs
      · exact .none
    | _ => exact C.pure .none
  | tuple hfields =>
    cases key with
    | tuple size =>
      refine C.pure ?_
      rw [hfields.length_eq]
      split
      · exact .some hfields
      · exact .none
    | _ => exact C.pure .none
  | record hvalue hr =>
    cases key with
    | record name sort implemented =>
      rw [pushed, pushed, C.name hr]
      split
      · exact C.bind (C.runs_fieldValues hvalue hr _) fun w₁ us us' _ hus => C.pure (.some hus)
      · exact C.pure .none
    | _ => exact C.pure .none

mutual

theorem ends_tree : ∀ {w : C.Moment} {m m' : Mapping Term} {ts ts' : List Term} {t t' : Tree Term},
    C.maps w m m' → Forall₂ (C.terms w) ts ts' → t.Rel C.vars C.bodies t' →
    C.Ends w (tree sig fuel whnf levels m ts t) (tree sig fuel' whnf' levels m' ts' t')
  | w, m, m', ts, ts', .leaf ps _, .leaf ps' _, hm, hts, .leaf hps hbody => by
    rw [tree, tree]
    have hbind := C.rel_bindParams hm hps.vars hts
    generalize bindParams m (Telescope.vars ps) ts = o,
      bindParams m' (Telescope.vars ps') ts' = o' at hbind ⊢
    cases hbind with
    | none => exact C.stuck .none
    | some hp => exact C.resume hbody hp.1 hp.2
  | w, m, m', ts, ts', .branch ps _, .branch ps' _, hm, hts, .branch hps hchildren => by
    rw [tree, tree]
    have hbind := C.rel_bindParams hm hps.vars hts
    generalize bindParams m (Telescope.vars ps) ts = o,
      bindParams m' (Telescope.vars ps') ts' = o' at hbind ⊢
    cases hbind with
    | none => exact C.stuck .none
    | @some p p' hp =>
      obtain ⟨k, stack⟩ := p
      obtain ⟨k', stack'⟩ := p'
      obtain ⟨hk, hstack⟩ := hp
      cases hstack with
      | nil => exact C.stuck .none
      | cons ht hstack =>
        refine C.ends_bind (C.reduces ht) fun w₁ u u' h₁ hu => ?_
        refine C.ends_bind (C.runs_head? hu) fun w₂ o o' h₂ ho => ?_
        cases ho with
        | none => exact C.stuck (.some (C.terms_later h₂ hu))
        | some hhead =>
          exact ends_branches (C.maps_later h₂ (C.maps_later h₁ hk))
            (C.terms_all h₂ (C.terms_all h₁ hstack)) hhead hchildren

theorem ends_branches : ∀ {w : C.Moment} {m m' : Mapping Term} {ts ts' : List Term}
    {head head' : Head} {cs cs' : List (BranchKey × Tree Term)}, C.maps w m m' →
    Forall₂ (C.terms w) ts ts' → head.Rel (C.terms w) (C.records w) head' →
    Tree.RelAll C.vars C.bodies cs cs' →
    C.Ends w (branches sig fuel whnf levels m ts head cs)
      (branches sig fuel' whnf' levels m' ts' head' cs')
  | w, _, _, _, _, _, _, [], _, _, _, _, .nil => by
    rw [branches, branches]
    exact C.stuck .none
  | w, _, _, _, _, _, _, _ :: _, _, hm, hts, hhead, .cons key ht hrest => by
    rw [branches, branches]
    refine C.ends_bind (C.runs_pushed hhead key) fun w₁ o o' h₁ ho => ?_
    have hm := C.maps_later h₁ hm
    have hts := C.terms_all h₁ hts
    cases ho with
    | some hargs => exact ends_tree hm (List.rel_append hargs hts) ht
    | none => exact ends_branches hm hts (C.head_later h₁ hhead) hrest

end

/-- A match that is related to itself, on related arguments. -/
theorem ends_elim {e : Elim Term} (he : Part.Fixed C.vars C.bodies e.parts)
    (hts : Forall₂ (C.terms w) ts ts') :
    C.Ends w (elim sig fuel whnf levels ts e) (elim sig fuel' whnf' levels ts' e) := by
  obtain ⟨n, cs, o⟩ := e
  cases o with
  | some t =>
    exact C.ends_tree (C.maps_empty w) hts (Part.Fixed.tree t (he.right.flatMap t (by simp)))
  | none =>
    exact C.ends_clauses hts (List.forall₂_same.mpr fun c hc => (he.left.flatMap c hc).clause)

end Coupling

end Recheck
