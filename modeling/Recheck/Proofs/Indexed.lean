import Recheck.Proofs.Nameless
import Mathlib.Data.List.Forall2
import Mathlib.Logic.Relation

/-!
# Recheck — indexed terms and their substitution

An `Indexed` term is a term without names: a bound variable is the number of binders
between it and its own, and every binder shows as an abstraction around the part that is
in its scope. The definition of a let clause is part of the term, in front of what is in
scope of the clause.

`Indexed.Subst` is simultaneous substitution, read off the indices alone. An environment
says what replaces the variables; it is shifted on the way under a binder, and nothing can
be captured. Nodes are put together again from the parts, with three exceptions: the
application of a function, the projection of a tuple and the projection of a field of a
record value are contracted as soon as they come about.

One thing is left open. A contraction may go on in the definitions of the let clauses in
whose scope it takes place, and contract what it finds there. So a definition is
determined up to further contractions only (`Subst.again`). Everything else is determined
(`Subst.unique`).
-/

namespace Recheck

variable {levels : LevelSubst}

/-- What a node of an indexed term is made of, apart from its parts. -/
inductive Indexed.Head where
  | form (shape : Shape)
  /-- A let clause: its definition, its type if there is one, and what is in its scope. -/
  | clause (typed : Bool)

/-- A term without the names of bound variables. -/
inductive Indexed where
  /-- A bound variable, by its distance from the innermost binder. -/
  | bound (index : Nat)
  | free (x : Var)
  /-- What is in scope of one more binder. -/
  | abs (body : Indexed)
  | node (head : Indexed.Head) (parts : List Indexed)

/-! ## Sorts and levels -/

section Sorts

variable {T : Type} (f : USort → USort)

def BranchKey.mapSorts : BranchKey → BranchKey
  | .record r sort implemented => .record r (f sort) implemented
  | key => key

mutual

def Tree.mapSorts : Tree T → Tree T
  | .leaf ps body => .leaf ps body
  | .branch ps children => .branch ps (Tree.mapAllSorts children)

/-- The children of a branch with other sorts. -/
def Tree.mapAllSorts : List (BranchKey × Tree T) → List (BranchKey × Tree T)
  | [] => []
  | (key, t) :: rest => (key.mapSorts f, t.mapSorts) :: Tree.mapAllSorts rest

end

def Elim.mapSorts (e : Elim T) : Elim T := { e with tree := e.tree.map (Tree.mapSorts f) }

def RecordType.mapSorts (r : RecordType T) : RecordType T :=
  { r with sortArg := f r.sortArg, sort := f r.sort }

def SigmaType.mapSorts (s : SigmaType T) : SigmaType T := { s with sort := f s.sort }

/-- The node with other sorts, its subterms apart. -/
def Node.mapSorts : Node T → Node T
  | .call g sortArg args => .call g (f sortArg) args
  | .con c => .con { c with sortArg := f c.sortArg }
  | .data d => .data { d with sortArg := f d.sortArg }
  | .field g sortArg arg => .field g (f sortArg) arg
  | .record r => .record (r.mapSorts f)
  | .lam sort ps body => .lam (f sort) ps body
  | .pi sort ps codomain => .pi (f sort) ps codomain
  | .sigma s => .sigma (s.mapSorts f)
  | .tuple fields type => .tuple fields { type with val := type.val.mapSorts f }
  | .univ sort => .univ (f sort)
  | .new renewed type => .new renewed { type with val := type.val.mapSorts f }
  | .case c => .case { c with elim := c.elim.map (Elim.mapSorts f) }
  | n => n

def Indexed.Head.mapSorts : Indexed.Head → Indexed.Head
  | .form shape => .form (shape.mapSorts f)
  | .clause typed => .clause typed

end Sorts

section Levels

variable {T : Type} (levels : LevelSubst)

abbrev Tree.atLevels (t : Tree T) : Tree T := t.mapSorts fun s => s.subst levels

abbrev Elim.atLevels (e : Elim T) : Elim T := e.mapSorts fun s => s.subst levels

abbrev RecordType.atLevels (r : RecordType T) : RecordType T := r.mapSorts fun s => s.subst levels

/-- The node with levels in place of level variables, its subterms apart. -/
abbrev Node.atLevels (n : Node T) : Node T := n.mapSorts fun s => s.subst levels

abbrev Indexed.Head.atLevels (head : Indexed.Head) : Indexed.Head :=
  head.mapSorts fun s => s.subst levels

end Levels

theorem Level.subst_of_isEmpty (h : levels.isEmpty) (l : Level) : l.subst levels = l := by
  obtain ⟨entries⟩ := levels
  obtain rfl : entries = [] := by simpa [LevelSubst.isEmpty] using h
  cases l <;> rfl

theorem USort.subst_of_isEmpty (h : levels.isEmpty) (s : USort) : s.subst levels = s := by
  rw [USort.subst, Level.subst_of_isEmpty h, Level.subst_of_isEmpty h]

/-! ## Environments -/

namespace Indexed

variable {ns ns' rest : List Indexed} {n m n' : Indexed} {typed : Bool}

mutual

/-- The term in a scope with one more variable, around the `cutoff` innermost ones. -/
def shift (cutoff : Nat) : Indexed → Indexed
  | .bound i => .bound (if i < cutoff then i else i + 1)
  | .free x => .free x
  | .abs body => .abs (body.shift (cutoff + 1))
  | .node head parts => .node head (shiftAll cutoff parts)

/-- The terms of a list in a scope with one more variable. -/
def shiftAll (cutoff : Nat) : List Indexed → List Indexed
  | [] => []
  | n :: ns => n.shift cutoff :: shiftAll cutoff ns

end

theorem shiftAll_eq_map (cutoff : Nat) (ns : List Indexed) :
    shiftAll cutoff ns = ns.map (shift cutoff) := by
  induction ns with
  | nil => rfl
  | cons n ns ih => rw [shiftAll, ih, List.map_cons]

/-- What is in scope of a number of binders. -/
def under : Nat → Indexed → Indexed
  | 0, n => n
  | k + 1, n => .abs (under k n)

theorem shift_under (cutoff k : Nat) (n : Indexed) :
    (under k n).shift cutoff = under k (n.shift (k + cutoff)) := by
  induction k generalizing cutoff with
  | zero => rw [under, under, Nat.zero_add]
  | succ k ih => rw [under, shift, ih, under, Nat.add_assoc, Nat.add_comm 1]

/-- What replaces the bound variables, the free variables and the level variables of a
term. -/
structure Env where
  bound : Nat → Indexed
  free : Var → Indexed
  levels : LevelSubst

namespace Env

/-- Replaces nothing. -/
protected def id : Env := ⟨.bound, .free, .empty⟩

/-- Replaces the innermost bound variable, whose binder is gone. -/
def single (n : Indexed) : Env where
  bound i := match i with
    | 0 => n
    | i + 1 => .bound i
  free := .free
  levels := .empty

/-- The environment under one more binder. -/
def lift (ρ : Env) : Env where
  bound i := match i with
    | 0 => .bound 0
    | i + 1 => (ρ.bound i).shift 0
  free x := (ρ.free x).shift 0
  levels := ρ.levels

end Env

/-! ## Substitution -/

def isLam : Indexed → Bool
  | .node (.form (.lam _ _ _)) _ => true
  | _ => false

/-- The component of a tuple at an index. -/
def component? (index : Int64) : Indexed → Option Indexed
  | .node (.form (.tuple fields _)) parts =>
    if index.toNatClampNeg < fields.length then parts[index.toNatClampNeg]? else none
  | _ => none

/-- The implementation of a field of a record value, in scope of the instance. -/
def impl? (f : FieldName) : Indexed → Option Indexed
  | .node (.form (.new renewed type)) parts =>
    ((type.val.impls.map Prod.fst).zip (parts.drop renewed.toList.length)).lookup f
  | _ => none

/-- Whether a node is put together from its parts whatever they are. -/
def isRebuilt : Head → Bool
  | .form (.app _ _) | .form (.proj _ _) | .form (.field _ _ _) => false
  | _ => true

/-- The second term is the first one with variables replaced as the environment says. -/
inductive Subst : Env → Indexed → Indexed → Prop where
  | bound {ρ : Env} (i : Nat) : Subst ρ (.bound i) (ρ.bound i)
  | free {ρ : Env} (x : Var) : Subst ρ (.free x) (ρ.free x)
  | abs {ρ : Env} {n n' : Indexed} (h : Subst ρ.lift n n') : Subst ρ (.abs n) (.abs n')
  | node {ρ : Env} {head : Head} {ns ns' : List Indexed} (hhead : isRebuilt head)
      (hlength : ns.length = ns'.length) (h : ∀ n n', (n, n') ∈ ns.zip ns' → Subst ρ n n') :
      Subst ρ (.node head ns) (.node (head.atLevels ρ.levels) ns')
  | app {ρ : Env} {f a f' a' : Indexed} (hf : Subst ρ f f') (ha : Subst ρ a a')
      (hlam : f'.isLam = false) :
      Subst ρ (.node (.form (.app () ())) [f, a]) (.node (.form (.app () ())) [f', a'])
  /-- The application of a function of one parameter. -/
  | beta {ρ : Env} {f a a' b r : Indexed} {sort : USort} {p : Param Unit} {parts : List Indexed}
      (hf : Subst ρ f (.node (.form (.lam sort [p] ())) parts)) (ha : Subst ρ a a')
      (hparts : parts.drop p.type.toList.length = [.abs b]) (h : Subst (.single a') b r) :
      Subst ρ (.node (.form (.app () ())) [f, a]) r
  /-- The application of a function of more parameters, of which all but the first are
  left. -/
  | betaRest {ρ : Env} {f a a' : Indexed} {sort : USort} {p q : Param Unit}
      {ps : List (Param Unit)} {parts bs rs : List Indexed}
      (hf : Subst ρ f (.node (.form (.lam sort (p :: q :: ps) ())) parts)) (ha : Subst ρ a a')
      (hparts : parts.drop p.type.toList.length = bs.map .abs)
      (hlength : bs.length = rs.length)
      (h : ∀ b r, (b, r) ∈ bs.zip rs → Subst (.single a') b r) :
      Subst ρ (.node (.form (.app () ())) [f, a]) (.node (.form (.lam sort (q :: ps) ())) rs)
  | proj {ρ : Env} {t t' : Indexed} {index : Int64} (h : Subst ρ t t')
      (hnone : t'.component? index = none) :
      Subst ρ (.node (.form (.proj () index)) [t]) (.node (.form (.proj () index)) [t'])
  | component {ρ : Env} {t t' u : Indexed} {index : Int64} (h : Subst ρ t t')
      (hsome : t'.component? index = some u) : Subst ρ (.node (.form (.proj () index)) [t]) u
  | field {ρ : Env} {t t' : Indexed} {f : FieldName} {sort : USort} (h : Subst ρ t t')
      (hnone : t'.impl? f = none) :
      Subst ρ (.node (.form (.field f sort ())) [t])
        (.node (.form (.field f (sort.subst ρ.levels) ())) [t'])
  | impl {ρ : Env} {t t' b r : Indexed} {f : FieldName} {sort : USort} (h : Subst ρ t t')
      (hsome : t'.impl? f = some (.abs b)) (hb : Subst (.single t') b r) :
      Subst ρ (.node (.form (.field f sort ())) [t]) r
  /-- The definition of a let clause may be contracted further. -/
  | again {ρ : Env} {n m m' : Indexed} {typed : Bool} {rest : List Indexed}
      (h : Subst ρ n (.node (.clause typed) (m :: rest))) (hm : Subst .id m m') :
      Subst ρ n (.node (.clause typed) (m' :: rest))

variable {ρ : Env}

theorem Subst.of_parts {head : Head} (hhead : isRebuilt head) (h : List.Forall₂ (Subst ρ) ns ns') :
    Subst ρ (.node head ns) (.node (head.atLevels ρ.levels) ns') :=
  .node hhead h.length_eq fun _ _ hmem => (List.forall₂_iff_zip.mp h).2 hmem

/-- The definition of a let clause may be contracted any number of times. -/
theorem Subst.again_many {m' : Indexed} (h : Subst ρ n (.node (.clause typed) (m :: rest)))
    (hm : Relation.ReflTransGen (Subst .id) m m') :
    Subst ρ n (.node (.clause typed) (m' :: rest)) := by
  induction hm with
  | refl => exact h
  | tail _ hstep ih => exact ih.again hstep

/-! ## Uniqueness -/

/-- No let clause occurs in the term. -/
inductive LetFree : Indexed → Prop where
  | bound (i : Nat) : LetFree (.bound i)
  | free (x : Var) : LetFree (.free x)
  | abs {n : Indexed} (h : LetFree n) : LetFree (.abs n)
  | node {shape : Shape} {ns : List Indexed} (h : ∀ n ∈ ns, LetFree n) :
      LetFree (.node (.form shape) ns)

namespace LetFree

theorem parts {head : Head} (h : LetFree (.node head ns)) : ∀ n ∈ ns, n.LetFree := by
  cases h with
  | node h => exact h

theorem shift (h : n.LetFree) (cutoff : Nat) : (n.shift cutoff).LetFree := by
  induction h generalizing cutoff with
  | bound i => exact .bound _
  | free x => exact .free x
  | abs _ ih => exact .abs (ih _)
  | node _ ih =>
    rw [Indexed.shift, shiftAll_eq_map]
    refine .node fun n hn => ?_
    obtain ⟨m, hm, rfl⟩ := List.mem_map.mp hn
    exact ih m hm cutoff

theorem component {n u : Indexed} {index : Int64} (h : n.LetFree)
    (hu : n.component? index = some u) : u.LetFree := by
  unfold component? at hu
  split at hu
  next =>
    split at hu
    · exact h.parts u (List.mem_of_getElem? hu)
    · cases hu
  next => cases hu

theorem impl {n b : Indexed} {f : FieldName} (h : n.LetFree) (hb : n.impl? f = some (.abs b)) :
    b.LetFree := by
  unfold impl? at hb
  split at hb
  next =>
    obtain ⟨before, after, hzip, -⟩ := List.lookup_eq_some_iff.mp hb
    have hmem := (List.of_mem_zip (hzip ▸ List.mem_append_right before (.head _))).2
    cases h.parts _ (List.mem_of_mem_drop hmem) with
    | abs h => exact h
  next => cases hb

end LetFree

/-- The environment puts no let clauses in place of variables. -/
def Env.LetFree (ρ : Env) : Prop := (∀ i, (ρ.bound i).LetFree) ∧ ∀ x, (ρ.free x).LetFree

theorem Env.LetFree.lift (h : ρ.LetFree) : ρ.lift.LetFree := by
  refine ⟨fun i => ?_, fun x => (h.2 x).shift 0⟩
  cases i with
  | zero => exact .bound 0
  | succ i => exact (h.1 i).shift 0

theorem Env.LetFree.single (h : n.LetFree) : (Env.single n).LetFree := by
  refine ⟨fun i => ?_, .free⟩
  cases i with
  | zero => exact h
  | succ i => exact .bound i

/-- The body of a function is a part of it. -/
theorem abs_mem_of_drop {i : Nat} (hn : n ∈ ns) (hdrop : ns'.drop i = ns.map Indexed.abs) :
    Indexed.abs n ∈ ns' :=
  List.mem_of_mem_drop (hdrop ▸ List.mem_map_of_mem hn)

theorem mem_zip_of_mem_right (hlength : ns.length = ns'.length) (hn' : n' ∈ ns') :
    ∃ n, (n, n') ∈ ns.zip ns' := by
  obtain ⟨i, hi, rfl⟩ := List.getElem_of_mem hn'
  refine ⟨ns[i], ?_⟩
  rw [← List.getElem_zip (h := by simpa [hlength] using hi)]
  exact List.getElem_mem _

/-- A term without let clauses becomes one. -/
theorem Subst.letFree (h : Subst ρ n n') (hn : n.LetFree) (hρ : ρ.LetFree) : n'.LetFree := by
  induction h with
  | bound i => exact hρ.1 i
  | free x => exact hρ.2 x
  | abs _ ih =>
    cases hn with
    | abs hn => exact .abs (ih hn hρ.lift)
  | @node _ head ns ns' _ hlength _ ih =>
    have hparts : ∀ n' ∈ ns', n'.LetFree := by
      intro n' hn'
      obtain ⟨n, hmem⟩ := mem_zip_of_mem_right hlength hn'
      exact ih n n' hmem (hn.parts n (List.of_mem_zip hmem).1) hρ
    cases hn with
    | node => exact .node hparts
  | app _ _ _ ihf iha =>
    have hf := ihf (hn.parts _ (by simp)) hρ
    have ha := iha (hn.parts _ (by simp)) hρ
    exact .node (List.forall_mem_cons.mpr ⟨hf, List.forall_mem_singleton.mpr ha⟩)
  | @beta _ f a a' b r sort p parts _ _ hparts _ ihf iha ih =>
    have hf := ihf (hn.parts _ (by simp)) hρ
    have ha := iha (hn.parts _ (by simp)) hρ
    cases hf.parts _ (abs_mem_of_drop (List.mem_singleton_self b) hparts) with
    | abs hb => exact ih hb (.single ha)
  | @betaRest _ f a a' sort p q ps parts bs rs _ _ hparts hlength _ ihf iha ih =>
    have hf := ihf (hn.parts _ (by simp)) hρ
    have ha := iha (hn.parts _ (by simp)) hρ
    refine .node fun r hr => ?_
    obtain ⟨b, hmem⟩ := mem_zip_of_mem_right hlength hr
    cases hf.parts _ (abs_mem_of_drop (List.of_mem_zip hmem).1 hparts) with
    | abs hb => exact ih b r hmem hb (.single ha)
  | proj _ _ ih => exact .node (List.forall_mem_singleton.mpr (ih (hn.parts _ (by simp)) hρ))
  | component _ hsome ih => exact (ih (hn.parts _ (by simp)) hρ).component hsome
  | field _ _ ih => exact .node (List.forall_mem_singleton.mpr (ih (hn.parts _ (by simp)) hρ))
  | impl _ hsome _ ih ihb =>
    have ht := ih (hn.parts _ (by simp)) hρ
    exact ihb (ht.impl hsome) (.single ht)
  | again _ _ ih => cases ih hn hρ

theorem eq_of_zip {ns₁ ns₂ : List Indexed} (h₁ : ns.length = ns₁.length)
    (h₂ : ns.length = ns₂.length) {S : Indexed → Indexed → Prop}
    (hS : ∀ n n₂, (n, n₂) ∈ ns.zip ns₂ → S n n₂)
    (h : ∀ n n₁, (n, n₁) ∈ ns.zip ns₁ → ∀ n₂, S n n₂ → n₁ = n₂) : ns₁ = ns₂ := by
  induction ns generalizing ns₁ ns₂ with
  | nil =>
    rw [List.length_nil, eq_comm, List.length_eq_zero_iff] at h₁ h₂
    rw [h₁, h₂]
  | cons n ns ih =>
    cases ns₁ with
    | nil => cases h₁
    | cons n₁ ns₁ =>
      cases ns₂ with
      | nil => cases h₂
      | cons n₂ ns₂ =>
        simp only [List.zip_cons_cons, List.mem_cons] at hS h
        have hhead := h n n₁ (.inl rfl) n₂ (hS n n₂ (.inl rfl))
        have htail := ih (Nat.succ.inj h₁) (Nat.succ.inj h₂)
          (fun m m₂ hm => hS m m₂ (.inr hm)) fun m m₁ hm => h m m₁ (.inr hm)
        rw [hhead, htail]

theorem Subst.not_clause (h : Subst ρ n (.node (.clause typed) (m :: rest)))
    (hn : n.LetFree) (hρ : ρ.LetFree) : False := by
  cases h.letFree hn hρ

/-- Without let clauses, the result of a substitution is determined. -/
theorem Subst.unique {n₁ n₂ : Indexed} (h₁ : Subst ρ n n₁) (h₂ : Subst ρ n n₂)
    (hn : n.LetFree) (hρ : ρ.LetFree) : n₁ = n₂ := by
  induction h₁ generalizing n₂ with
  | bound i =>
    cases h₂ with
    | bound => rfl
    | again h => cases h.not_clause hn hρ
  | free x =>
    cases h₂ with
    | free => rfl
    | again h => cases h.not_clause hn hρ
  | abs _ ih =>
    cases h₂ with
    | abs h =>
      cases hn with
      | abs hn => rw [ih h hn hρ.lift]
    | again h => cases h.not_clause hn hρ
  | @node ρ head ns ns₁ hhead hlength _ ih =>
    cases h₂ with
    | node _ hlength' h =>
      refine congrArg _ (eq_of_zip hlength hlength' h fun n n₁ hmem n₂ hn₂ => ?_)
      exact ih n n₁ hmem hn₂ (hn.parts n (List.of_mem_zip hmem).1) hρ
    | again h => cases h.not_clause hn hρ
    | _ => cases hhead
  | @app ρ f a f₁ a₁ hf ha hlam ihf iha =>
    have hfn : f.LetFree := hn.parts f (by simp)
    have harg : a.LetFree := hn.parts a (by simp)
    cases h₂ with
    | node hhead => cases hhead
    | app hf' ha' => rw [ihf hf' hfn hρ, iha ha' harg hρ]
    | beta hf' | betaRest hf' =>
      obtain rfl := ihf hf' hfn hρ
      cases hlam
    | again h => cases h.not_clause hn hρ
  | @beta ρ f a a₁ b r sort p parts hf ha hparts _ ihf iha ih =>
    have hfn : f.LetFree := hn.parts f (by simp)
    have harg : a.LetFree := hn.parts a (by simp)
    cases h₂ with
    | node hhead => cases hhead
    | app hf' _ hlam =>
      obtain rfl := ihf hf' hfn hρ
      cases hlam
    | beta hf' ha' hparts' h' =>
      cases ihf hf' hfn hρ
      cases iha ha' harg hρ
      rw [hparts] at hparts'
      cases hparts'
      have habs := abs_mem_of_drop (List.mem_singleton_self b) hparts
      cases (hf.letFree hfn hρ).parts _ habs with
      | abs hb => exact ih h' hb (.single (ha.letFree harg hρ))
    | betaRest hf' => cases ihf hf' hfn hρ
    | again h => cases h.not_clause hn hρ
  | @betaRest ρ f a a₁ sort p q ps parts bs rs hf ha hparts hlength _ ihf iha ih =>
    have hfn : f.LetFree := hn.parts f (by simp)
    have harg : a.LetFree := hn.parts a (by simp)
    cases h₂ with
    | node hhead => cases hhead
    | app hf' _ hlam =>
      obtain rfl := ihf hf' hfn hρ
      cases hlam
    | beta hf' => cases ihf hf' hfn hρ
    | @betaRest _ _ _ a₂ sort' p' q' ps' parts' bs' rs' hf' ha' hparts' hlength' h' =>
      cases ihf hf' hfn hρ
      cases iha ha' harg hρ
      have hinjective : Function.Injective Indexed.abs := fun _ _ h => Indexed.abs.inj h
      obtain rfl := hinjective.list_map (hparts.symm.trans hparts')
      refine congrArg _ (eq_of_zip hlength hlength' h' fun b r hmem r' hr' => ?_)
      have habs := abs_mem_of_drop (List.of_mem_zip hmem).1 hparts
      cases (hf.letFree hfn hρ).parts _ habs with
      | abs hb => exact ih b r hmem hr' hb (.single (ha.letFree harg hρ))
    | again h => cases h.not_clause hn hρ
  | @proj ρ t t₁ index ht hnone ih =>
    have ht' : t.LetFree := hn.parts t (by simp)
    cases h₂ with
    | node hhead => cases hhead
    | proj h => rw [ih h ht' hρ]
    | component h hsome =>
      rw [← ih h ht' hρ, hnone] at hsome
      cases hsome
    | again h => cases h.not_clause hn hρ
  | @component ρ t t₁ u index ht hsome ih =>
    have ht' : t.LetFree := hn.parts t (by simp)
    cases h₂ with
    | node hhead => cases hhead
    | proj h hnone =>
      rw [← ih h ht' hρ, hsome] at hnone
      cases hnone
    | component h hsome' =>
      rw [← ih h ht' hρ, hsome] at hsome'
      exact Option.some.inj hsome'
    | again h => cases h.not_clause hn hρ
  | @field ρ t t₁ f sort ht hnone ih =>
    have ht' : t.LetFree := hn.parts t (by simp)
    cases h₂ with
    | node hhead => cases hhead
    | field h => rw [ih h ht' hρ]
    | impl h hsome =>
      rw [← ih h ht' hρ, hnone] at hsome
      cases hsome
    | again h => cases h.not_clause hn hρ
  | @impl ρ t t₁ b r f sort ht hsome _ ih ihb =>
    have ht' : t.LetFree := hn.parts t (by simp)
    cases h₂ with
    | node hhead => cases hhead
    | field h hnone =>
      rw [← ih h ht' hρ, hsome] at hnone
      cases hnone
    | impl h hsome' hb' =>
      cases ih h ht' hρ
      rw [hsome] at hsome'
      cases hsome'
      have ht₁ := ht.letFree ht' hρ
      exact ihb hb' (ht₁.impl hsome) (.single ht₁)
    | again h => cases h.not_clause hn hρ
  | again h => exact (h.not_clause hn hρ).elim

end Indexed

end Recheck
