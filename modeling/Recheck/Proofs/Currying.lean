import Recheck.Proofs.Copies
import Recheck.Proofs.Curried
import Recheck.Proofs.Introduction

/-!
# Recheck — curried readings

`Curries` relates the terms of the function fragment to curried terms. The fragment consists
of references to variables other than let clauses, applications, functions, function and
tuple types, universes, and constructors and data types with their arguments.

The reading keeps account of two things that the reading alone would not show.

* A `Range` says which variables may be free in the term and which ones it may bind. No
  variable is bound in its own scope.
* A `Heap` knows the reading of every node by its stamp. So nodes with equal stamps read
  alike, whatever scope they are in.

Both are kept by copying: `copies_traverse` says that a traversal, and with it the
application of functions, reads as substitution followed by reduction.
-/

namespace Recheck

open Curried (Env Red Rel)

/-! ## Ranges -/

/-- The variables that may be free in a term, and those that it may bind. -/
structure Range where
  free : Var → Prop
  bound : Var → Prop

namespace Range

/-- What is in scope of a variable refers to it and does not bind it again. -/
def under (R : Range) (x : Var) : Range := ⟨fun y => y = x ∨ R.free y, fun y => y ≠ x ∧ R.bound y⟩

/-- More variables may be bound: those with numbers from `lo` up to `hi`. -/
def grow (R : Range) (lo hi : Nat) : Range :=
  { R with bound := fun x => R.bound x ∨ lo ≤ x.serial ∧ x.serial < hi }

/-- All variables are older than the number. -/
structure Below (R : Range) (n : Nat) : Prop where
  free : ∀ x, R.free x → x.serial < n
  bound : ∀ x, R.bound x → x.serial < n

structure Le (R R' : Range) : Prop where
  free : ∀ x, R.free x → R'.free x
  bound : ∀ x, R.bound x → R'.bound x

variable {R R' R'' : Range} {x : Var} {lo lo' hi hi' n : Nat}

theorem Le.refl : R.Le R := ⟨fun _ hx => hx, fun _ hx => hx⟩

theorem le_grow : R.Le (R.grow lo hi) := ⟨fun _ hx => hx, fun _ hx => .inl hx⟩

theorem grow_le (hle : R.Le R') (hlo : lo' ≤ lo) (hhi : hi ≤ hi') :
    (R.grow lo hi).Le (R'.grow lo' hi') := by
  refine ⟨hle.free, fun x hx => ?_⟩
  rcases hx with hx | ⟨hl, hh⟩
  · exact .inl (hle.bound x hx)
  · exact .inr ⟨hlo.trans hl, hh.trans_le hhi⟩

theorem grow_grow_le (h : lo ≤ lo') (h' : lo' ≤ hi') :
    ((R.grow lo lo').grow lo' hi').Le (R.grow lo hi') := by
  refine ⟨fun _ hx => hx, fun x hx => ?_⟩
  rcases hx with (hx | ⟨hl, hh⟩) | ⟨hl, hh⟩
  · exact .inl hx
  · exact .inr ⟨hl, hh.trans_le h'⟩
  · exact .inr ⟨h.trans hl, hh⟩

theorem le_under (h : ¬ R.bound x) : R.Le (R.under x) := by
  refine ⟨fun _ hy => .inr hy, fun y hy => ⟨?_, hy⟩⟩
  rintro rfl
  exact h hy

theorem under_grow_le (hlo : lo ≤ lo') (hx : x.serial < lo') :
    ((R.under x).grow lo' hi).Le ((R.grow lo hi).under x) := by
  refine ⟨fun _ hy => hy, fun y hy => ?_⟩
  rcases hy with ⟨hne, hy⟩ | ⟨hl, hh⟩
  · exact ⟨hne, .inl hy⟩
  · refine ⟨?_, .inr ⟨hlo.trans hl, hh⟩⟩
    rintro rfl
    omega

theorem Below.not_free (h : R.Below n) (hx : n ≤ x.serial) : ¬ R.free x := fun hfree =>
  Nat.not_lt.mpr hx (h.free x hfree)

theorem Below.not_bound (h : R.Below n) (hx : n ≤ x.serial) : ¬ R.bound x := fun hbound =>
  Nat.not_lt.mpr hx (h.bound x hbound)

theorem Below.mono (h : R.Below n) {n' : Nat} (hle : n ≤ n') : R.Below n' :=
  ⟨fun x hx => (h.free x hx).trans_le hle,
    fun x hx => (h.bound x hx).trans_le hle⟩

theorem Below.grow (h : R.Below lo) (hle : lo ≤ hi) : (R.grow lo hi).Below hi := by
  refine ⟨fun x hx => (h.free x hx).trans_le hle, fun x hx => ?_⟩
  rcases hx with hx | hx
  · exact (h.bound x hx).trans_le hle
  · exact hx.2

theorem Below.under (h : R.Below n) (hx : x.serial < n) : (R.under x).Below n := by
  refine ⟨fun y hy => ?_, fun y hy => h.bound y hy.2⟩
  rcases hy with rfl | hy
  · exact hx
  · exact h.free y hy

end Range

/-! ## Heaps -/

/-- The readings of nodes by their stamps. -/
abbrev Heap := Nat → Option Curried

/-- The heap knows stamps up to a number only. -/
def Heap.Below (H : Heap) (n : Nat) : Prop := ∀ i m, H i = some m → i < n

/-- The heap and the counter after some nodes have been made. -/
structure Grown (H : Heap) (s : Store) (H' : Heap) (s' : Store) : Prop where
  next : s.next ≤ s'.next
  heap : ∀ i m, H i = some m → H' i = some m
  below : H.Below s.next → H'.Below s'.next

namespace Grown

variable {H H' H'' : Heap} {s s' s'' : Store}

protected theorem refl : Grown H s H s := ⟨le_rfl, fun _ _ h => h, id⟩

theorem trans (h : Grown H s H' s') (h' : Grown H' s' H'' s'') : Grown H s H'' s'' :=
  ⟨h.next.trans h'.next, fun i m hi => h'.heap i m (h.heap i m hi),
    fun hH => h'.below (h.below hH)⟩

/-- Numbers that nothing is read under may go by. -/
theorem skip (hnext : s.next ≤ s'.next) : Grown H s H s' :=
  ⟨hnext, fun _ _ h => h, fun hH i m hi => (hH i m hi).trans_le hnext⟩

end Grown

/-- A new node of a known reading. -/
theorem yields_node {H : Heap} {s : Store} {node : Node Term} {Q : Term → Store → Prop}
    (m : Curried) (hH : H.Below s.next) (h : ∀ H' stamp, Grown H s H' { s with next := s.next + 1 } →
      H' stamp = some m → Q (.mk stamp node) { s with next := s.next + 1 }) :
    Yields (Core.build node) s Q := by
  refine Yields.build (h (fun i => if i = s.next then some m else H i) s.next ?_ (if_pos rfl))
  refine ⟨Nat.le_succ _, fun i m' hi => ?_, fun _ i m' hi => ?_⟩
  · rw [if_neg (Nat.ne_of_lt (hH i m' hi))]
    exact hi
  · by_cases heq : i = s.next
    · rw [heq]
      exact Nat.lt_succ_self _
    · rw [if_neg heq] at hi
      exact Nat.lt_succ_of_lt (hH i m' hi)

/-! ## Readings -/

/-- What can be read: a term, a list of arguments, or a telescope with what is behind it. -/
inductive Phrase where
  | term (t : Term)
  | args (ts : List Term)
  | tele (binding : Curried.Binding) (ps : Telescope Term) (inner : Option Term)

/-- An atom with its arguments or parameters. -/
abbrev Curried.node (a : Curried.Atom) (parts : Curried) : Curried := .pair .node (.atom a) parts

/-- The phrase reads as the curried term. A parameter without a type has the type of the
parameter after it, which does not mention it. -/
inductive Curries (H : Heap) : Range → Phrase → Curried → Prop where
  | ref {R : Range} {stamp : Nat} {x : Var} (hx : R.free x) (hkind : x.kind ≠ .clause)
      (hH : H stamp = some (.free x)) : Curries H R (.term (.mk stamp (.ref x))) (.free x)
  | univ {R : Range} {stamp : Nat} {sort : USort} (hH : H stamp = some (.atom .univ)) :
      Curries H R (.term (.mk stamp (.univ sort))) (.atom .univ)
  | app {R : Range} {stamp : Nat} {fn arg : Term} {f a : Curried}
      (hf : Curries H R (.term fn) f) (ha : Curries H R (.term arg) a)
      (hH : H stamp = some (.app f a)) : Curries H R (.term (.mk stamp (.app fn arg))) (.app f a)
  | con {R : Range} {stamp : Nat} {c : ConApp Term} {m : Curried}
      (h : Curries H R (.args c.args) m) (hH : H stamp = some (.node (.con c.con) m)) :
      Curries H R (.term (.mk stamp (.con c))) (.node (.con c.con) m)
  | data {R : Range} {stamp : Nat} {d : DataType Term} {m : Curried}
      (h : Curries H R (.args d.args) m) (hH : H stamp = some (.node (.data d.data) m)) :
      Curries H R (.term (.mk stamp (.data d))) (.node (.data d.data) m)
  | lam {R : Range} {stamp : Nat} {sort : USort} {ps : Telescope Term} {body : Term} {m : Curried}
      (hps : ps ≠ []) (h : Curries H R (.tele .lam ps (some body)) m) (hH : H stamp = some m) :
      Curries H R (.term (.mk stamp (.lam sort ps body))) m
  | pi {R : Range} {stamp : Nat} {sort : USort} {ps : Telescope Term} {codomain : Term}
      {m : Curried} (hps : ps ≠ []) (h : Curries H R (.tele .pi ps (some codomain)) m)
      (hH : H stamp = some m) : Curries H R (.term (.mk stamp (.pi sort ps codomain))) m
  | sigma {R : Range} {stamp : Nat} {type : SigmaType Term} {m : Curried}
      (h : Curries H R (.tele .sigma type.params none) m)
      (hH : H stamp = some (.node .sigma m)) :
      Curries H R (.term (.mk stamp (.sigma type))) (.node .sigma m)
  | nil {R : Range} : Curries H R (.args []) .nil
  | cons {R : Range} {t : Term} {ts : List Term} {m n : Curried} (ht : Curries H R (.term t) m)
      (hts : Curries H R (.args ts) n) : Curries H R (.args (t :: ts)) (.pair .cons m n)
  | inner {R : Range} {k : Curried.Binding} {t : Term} {m : Curried}
      (h : Curries H R (.term t) m) : Curries H R (.tele k [] (some t)) m
  | done {R : Range} {k : Curried.Binding} : Curries H R (.tele k [] none) .nil
  | typed {R : Range} {k : Curried.Binding} {x : Var} {type : Term} {explicit : Bool}
      {ps : Telescope Term} {inner : Option Term} {d m : Curried} (hx : R.bound x)
      (hkind : x.kind ≠ .clause) (htype : Curries H R (.term type) d)
      (h : Curries H (R.under x) (.tele k ps inner) m) :
      Curries H R (.tele k (⟨x, some type, explicit⟩ :: ps) inner) (.bind k d (m.close x))
  | untyped {R : Range} {k : Curried.Binding} {x : Var} {explicit : Bool} {ps : Telescope Term}
      {inner : Option Term} {d m : Curried} (hx : R.bound x) (hkind : x.kind ≠ .clause)
      (hps : ps ≠ []) (hd : d.Over fun y => y ≠ x ∧ R.free y)
      (h : Curries H (R.under x) (.tele k ps inner) (.bind k d m)) :
      Curries H R (.tele k (⟨x, none, explicit⟩ :: ps) inner)
        (.bind k d ((Curried.bind k d m).close x))

namespace Curries

variable {H H' : Heap} {R R' : Range} {p : Phrase} {m n : Curried}

theorem overFree (h : Curries H R p n) : n.Over R.free := by
  induction h with
  | ref hx => exact hx
  | univ | nil | done => trivial
  | app _ _ _ ihf iha => exact ⟨ihf, iha⟩
  | cons _ _ iht ihts => exact ⟨iht, ihts⟩
  | con _ _ ih | data _ _ ih | sigma _ _ ih => exact ⟨trivial, ih⟩
  | lam _ _ _ ih | pi _ _ _ ih | inner _ ih => exact ih
  | typed _ _ _ _ ihtype ih => exact ⟨ihtype, Curried.over_close.mpr ih⟩
  | untyped _ _ _ hd _ ih => exact ⟨hd.mono fun _ h => h.2, Curried.over_close.mpr ih⟩

/-- The range can be any that the free variables of the reading are in and that lets as much
be bound; the heap may know more. -/
theorem transfer (h : Curries H R p n) (hover : n.Over R'.free)
    (hbound : ∀ x, R.bound x → R'.bound x) (hheap : ∀ i m, H i = some m → H' i = some m) :
    Curries H' R' p n := by
  induction h generalizing R' with
  | ref _ hkind hH => exact .ref hover hkind (hheap _ _ hH)
  | univ hH => exact .univ (hheap _ _ hH)
  | app _ _ hH ihf iha => exact .app (ihf hover.1 hbound) (iha hover.2 hbound) (hheap _ _ hH)
  | con _ hH ih => exact .con (ih hover.2 hbound) (hheap _ _ hH)
  | data _ hH ih => exact .data (ih hover.2 hbound) (hheap _ _ hH)
  | sigma _ hH ih => exact .sigma (ih hover.2 hbound) (hheap _ _ hH)
  | lam hps _ hH ih => exact .lam hps (ih hover hbound) (hheap _ _ hH)
  | pi hps _ hH ih => exact .pi hps (ih hover hbound) (hheap _ _ hH)
  | nil => exact .nil
  | cons _ _ iht ihts => exact .cons (iht hover.1 hbound) (ihts hover.2 hbound)
  | inner _ ih => exact .inner (ih hover hbound)
  | done => exact .done
  | typed hx hkind _ _ ihtype ih =>
    refine .typed (hbound _ hx) hkind (ihtype hover.1 hbound)
      (ih (Curried.over_close.mp hover.2) ?_)
    exact fun y hy => ⟨hy.1, hbound y hy.2⟩
  | @untyped R k x _ ps inner d m hx hkind hps hd _ ih =>
    have hd' : d.Over fun y => y ≠ x ∧ R'.free y :=
      (Curried.over_and.mpr ⟨hd.mono fun _ h => h.1, hover.1⟩)
    refine .untyped (hbound _ hx) hkind hps hd' (ih (Curried.over_close.mp hover.2) ?_)
    exact fun y hy => ⟨hy.1, hbound y hy.2⟩

theorem mono (h : Curries H R p n) (hle : R.Le R') : Curries H R' p n :=
  h.transfer (h.overFree.mono hle.free) hle.bound fun _ _ h => h

theorem grown {s s' : Store} (h : Curries H R p n) (hs : Grown H s H' s') : Curries H' R p n :=
  h.transfer h.overFree (fun _ hx => hx) hs.heap

/-- The first parameter of a telescope, with its type and what is in its scope. -/
theorem cons_inv {k : Curried.Binding} {q : Param Term} {ps : Telescope Term}
    {inner : Option Term} (h : Curries H R (.tele k (q :: ps) inner) n) :
    ∃ d m, n = .bind k d (m.close q.var) ∧ R.bound q.var ∧
      q.var.kind ≠ .clause ∧ Curries H (R.under q.var) (.tele k ps inner) m ∧
      ∀ type, Telescope.headType (q :: ps) = some type → Curries H R (.term type) d := by
  induction ps generalizing q R n with
  | nil =>
    cases h with
    | typed hx hkind htype hrest =>
      refine ⟨_, _, rfl, hx, hkind, hrest, fun type heq => ?_⟩
      cases heq
      exact htype
    | untyped _ _ hps => exact absurd rfl hps
  | cons q' ps ih =>
    cases h with
    | typed hx hkind htype hrest =>
      refine ⟨_, _, rfl, hx, hkind, hrest, fun type heq => ?_⟩
      cases heq
      exact htype
    | untyped hx hkind hps hd hrest =>
      obtain ⟨d₁, m₁, heq, -, -, -, htype⟩ := ih hrest
      obtain ⟨-, rfl, -⟩ := Curried.bind.inj heq
      refine ⟨_, _, rfl, hx, hkind, hrest, fun type heq => ?_⟩
      exact (htype type heq).transfer (hd.mono fun _ h => h.2) (fun _ h => h.2) fun _ _ h => h

/-- The reading of a node is the one that the heap knows. -/
theorem heap {t : Term} (h : Curries H R (.term t) n) : H t.stamp = some n := by
  cases h with
  | ref _ _ hH | univ hH | app _ _ hH | con _ hH | data _ hH | lam _ _ hH | pi _ _ hH
  | sigma _ hH => exact hH

end Curries

/-! ## Copies -/

/-- The substitution puts terms of the second range in place of what may be free in the first
one, and they read as `θ` says. -/
def Substitution.Sends (σ : Substitution) (H : Heap) (θ : Var → Curried) (R R' : Range) : Prop :=
  ∀ x, R.free x → (∀ u, σ.exprs.get? (.local x) = some u → Curries H R' (.term u) (θ x)) ∧
    (σ.exprs.get? (.local x) = none → R'.free x ∧ θ x = .free x)

/-- The phrase reads as a reduct of the curried term. It was made since the store was `s`, out
of what has the range `R`. -/
def Makes (H : Heap) (s : Store) (R : Range) (m : Curried) (p : Phrase) (s' : Store) : Prop :=
  ∃ H' n, Grown H s H' s' ∧ Curries H' (R.grow s.next s'.next) p n ∧ Red m n

namespace Currying

variable {H : Heap} {s : Store} {σ : Substitution} {θ : Var → Curried} {R R' : Range}
variable {x y : Var}

/-- The recursive call of a traversal reads as substitution and reduction. -/
def Copies (self : Substitution → Term → Traversal Term) : Prop :=
  ∀ {H s σ θ R R' t n}, H.Below s.next → R'.Below s.next → σ.Sends H θ R R' →
    Curries H R (.term t) n →
    Yields (self σ t) s fun t' s' => Makes H s R' (n.subst (.ofFree θ)) (.term t') s'

section

variable (h : σ.Sends H θ R R')

include h

theorem Sends.grown {H' : Heap} {s' : Store} (hs : Grown H s H' s') : σ.Sends H' θ R R' :=
  fun x hx => ⟨fun u hu => ((h x hx).1 u hu).grown hs, (h x hx).2⟩

/-- What the substitution puts in place of variables is in the second range. -/
theorem Sends.over (hx : R.free x) : (θ x).Over R'.free := by
  cases hget : σ.exprs.get? (.local x) with
  | some u => exact ((h x hx).1 u hget).overFree
  | none =>
    obtain ⟨hfree, heq⟩ := (h x hx).2 hget
    rw [heq]
    exact hfree

/-- Going under a binder, whose copy is new. -/
theorem Sends.under {stamp : Nat} (hy : ¬ R'.bound y)
    (hkind : y.kind ≠ .clause) (hH : H stamp = some (.free y)) :
    (σ.bind x (.mk stamp (.ref y))).Sends H (Function.update θ x (.free y)) (R.under x)
      (R'.under y) := by
  intro z hz
  by_cases hzx : z = x
  · subst hzx
    rw [σ.get?_bind_self, Function.update_self]
    constructor
    · intro u hu
      cases hu
      exact .ref (.inl rfl) hkind hH
    · intro hnone
      cases hnone
  · rw [σ.get?_bind_of_ne _ hzx, Function.update_of_ne hzx]
    have hfree : R.free z := hz.resolve_left hzx
    refine ⟨fun u hu => ((h z hfree).1 u hu).mono (Range.le_under hy), fun hnone => ?_⟩
    obtain ⟨hz', heq⟩ := (h z hfree).2 hnone
    exact ⟨.inr hz', heq⟩

/-- Substitution under a binder, and binding the copy of the variable. -/
theorem subst_close {m : Curried} (hm : m.Over (R.under x).free) (hy : ¬ R'.free y) :
    (m.close x).subst (Env.ofFree θ).lift =
      (m.subst (.ofFree (Function.update θ x (.free y)))).close y := by
  rw [Curried.close, Curried.close, Curried.subst_subst, Curried.subst_subst]
  refine Curried.subst_congr hm (fun i => rfl) fun z hz => ?_
  show ((Env.close x).free z).subst (Env.ofFree θ).lift =
    (Function.update θ x (.free y) z).subst (Env.close y)
  by_cases hzx : z = x
  · subst hzx
    rw [Env.close_self, Function.update_self]
    exact (Env.close_self y).symm
  · rw [Env.close_of_ne hzx, Function.update_of_ne hzx]
    exact (Curried.close_eq_shift (Sends.over h (hz.resolve_left hzx)) hy).symm

end

/-- The type of a parameter without one does not mention the parameter. -/
theorem subst_update {d : Curried} (hd : d.Over fun z => z ≠ x ∧ R.free z) :
    d.subst (.ofFree (Function.update θ x (.free y))) = d.subst (.ofFree θ) :=
  Curried.subst_congr hd (fun _ => rfl) fun _ hz => Function.update_of_ne hz.1 _ _

/-- Copies a binder and goes on in its scope. -/
theorem yields_under {A : Type} {f : Var → Substitution → Traversal A} {Q : A → Store → Prop}
    (name : String) (hH : H.Below s.next) (hR : R'.Below s.next) (hσ : σ.Sends H θ R R')
    (hf : ∀ y σ₁ H₁ s₁, s.next ≤ y.serial → y.serial < s₁.next → y.kind ≠ .clause →
      Grown H s H₁ s₁ →
      σ₁.Sends H₁ (Function.update θ x (.free y)) (R.under x) (R'.under y) →
      Yields (f y σ₁) s₁ Q) :
    Yields (do
      let y ← Core.freshVar .param name
      let ref ← Core.build (.ref y)
      let σ ← Traversal.enter σ x ref
      f y σ : Traversal A) s Q := by
  refine Yields.bind (Yields.freshVar (Q := fun y s₁ => y = ⟨s.next, .param, name⟩ ∧
    s₁ = { s with next := s.next + 1 }) ⟨rfl, rfl⟩).lift ?_
  rintro _ s₁ ⟨rfl, hs₁⟩
  have hskip : Grown H s H s₁ := .skip (by rw [hs₁]; exact Nat.le_succ _)
  refine Yields.bind (yields_node (.free ⟨s.next, .param, name⟩) (hskip.below hH)
    (Q := fun ref s₂ => ∃ stamp H₂, ref = .mk stamp (.ref ⟨s.next, .param, name⟩) ∧
      Grown H s H₂ s₂ ∧ s.next < s₂.next ∧ H₂ stamp = some (.free ⟨s.next, .param, name⟩)) ?_).lift ?_
  · intro H₂ stamp hgrown hH₂
    refine ⟨stamp, H₂, rfl, hskip.trans hgrown, ?_, hH₂⟩
    rw [hs₁]
    exact Nat.lt_succ_of_lt (Nat.lt_succ_self _)
  rintro _ s₂ ⟨stamp, H₂, rfl, hgrown, hlt, hH₂⟩
  refine Yields.bind (Traversal.yields_enter x _).lift ?_
  rintro _ s₃ ⟨rfl, -, hnext⟩
  have hparam : (⟨s.next, .param, name⟩ : Var).kind ≠ .clause := fun h => by cases h
  have hskip' : Grown H₂ s₂ H₂ s₃ := .skip hnext.symm.le
  refine hf _ _ H₂ s₃ le_rfl (by rw [hnext]; exact hlt) hparam
    (hgrown.trans hskip') ?_
  exact Sends.under (Sends.grown hσ hgrown) (hR.not_bound le_rfl) hparam hH₂

section Step

variable {self} (hself : Copies self)
variable {m a : Curried} {k : Curried.Binding} {ps : Telescope Term} {arg body : Term}

include hself

theorem yields_args {ts : List Term} (hH : H.Below s.next) (hR : R'.Below s.next)
    (hσ : σ.Sends H θ R R') (hts : Curries H R (.args ts) m) :
    Yields (ts.mapM (self σ)) s fun ts' s' => Makes H s R' (m.subst (.ofFree θ)) (.args ts') s' := by
  induction ts generalizing H s m with
  | nil =>
    cases hts
    exact .pure ⟨H, _, .refl, .nil, .refl _⟩
  | cons t ts ih =>
    cases hts with
    | cons ht hts =>
      rw [List.mapM_cons]
      refine Yields.bind (hself hH hR hσ ht) ?_
      rintro t' s₁ ⟨H₁, n₁, hgrown, ht', hred⟩
      have hR₁ := hR.mono hgrown.next
      refine Yields.bind (ih (hgrown.below hH) hR₁ (Sends.grown hσ hgrown) (hts.grown hgrown)) ?_
      rintro ts' s₂ ⟨H₂, n₂, hgrown', hts', hred'⟩
      refine .pure ⟨H₂, _, hgrown.trans hgrown', .cons ?_ ?_, .pair _ hred hred'⟩
      · exact (ht'.grown hgrown').mono (Range.grow_le .refl le_rfl
          hgrown'.next)
      · exact hts'.mono (Range.grow_le .refl hgrown.next le_rfl)

/-- What is behind a telescope has been reached, and whatever is made of it can be bound
again. -/
structure Opened (H : Heap) (s : Store) (R : Range) (m : Curried) (k : Curried.Binding)
    (inner : Option Term) (r : Telescope Term × Substitution) (s₁ : Store) (H₁ : Heap)
    (θ₁ : Var → Curried) (R₁ R₁' : Range) (m₁ : Curried) : Prop where
  grown : Grown H s H₁ s₁
  below : R₁'.Below s₁.next
  sends : r.2.Sends H₁ θ₁ R₁ R₁'
  reads : Curries H₁ R₁ (.tele k [] inner) m₁
  closes : ∀ {H₂ s₂ inner' n₁}, Grown H₁ s₁ H₂ s₂ →
    Curries H₂ (R₁'.grow s₁.next s₂.next) (.tele k [] inner') n₁ →
    Red (m₁.subst (.ofFree θ₁)) n₁ →
    ∃ n, Curries H₂ (R.grow s.next s₂.next) (.tele k r.1 inner') n ∧ Red m n

theorem yields_params {inner : Option Term} (hH : H.Below s.next) (hR : R'.Below s.next)
    (hσ : σ.Sends H θ R R') (hps : Curries H R (.tele k ps inner) m) :
    Yields (Traversal.params self σ ps) s fun r s₁ => (ps ≠ [] → r.1 ≠ []) ∧
      ∃ H₁ θ₁ R₁ R₁' m₁, Opened H s R' (m.subst (.ofFree θ)) k inner r s₁ H₁ θ₁ R₁ R₁' m₁ := by
  induction ps generalizing H s σ θ R R' m with
  | nil =>
    refine .pure ⟨id, H, θ, R, R', m, .refl, hR, hσ, hps, ?_⟩
    exact fun {H₂ s₂ inner' n₁} _ hn hred => ⟨n₁, hn, hred⟩
  | cons p ps ih =>
    cases hps with
    | @typed _ _ x type explicit _ _ d m hx hkind htype hrest =>
      rw [Traversal.params]
      refine Yields.bind (P := fun o s₁ => ∃ type', o = some type' ∧
        Makes H s R' (d.subst (.ofFree θ)) (.term type') s₁)
        (Yields.map ((hself hH hR hσ htype).mono fun type' _ h => ⟨type', rfl, h⟩)) ?_
      rintro _ s₁ ⟨type', rfl, H₁, d', hgrown₁, htype', hd'⟩
      have hR₁ := hR.mono hgrown₁.next
      refine yields_under _ (hgrown₁.below hH) hR₁ (Sends.grown hσ hgrown₁) ?_
      intro y σ₁ H₂ s₂ hlo hhi hkind' hgrown₂ hσ₁
      have hgrown := hgrown₁.trans hgrown₂
      refine Yields.bind (ih (hgrown.below hH) ((hR.mono hgrown.next).under hhi) hσ₁
        (hrest.grown hgrown)) ?_
      rintro ⟨ps', σ₂⟩ s₃ ⟨-, H₃, θ₁, R₁, R₁', m₁, hopened⟩
      refine .pure ⟨by simp, H₃, θ₁, R₁, R₁', m₁, hgrown.trans hopened.grown, hopened.below,
        hopened.sends, hopened.reads, ?_⟩
      intro H₄ s₄ inner' n₁ hgrown₄ hn₁ hred₁
      obtain ⟨n, hn, hred⟩ := hopened.closes hgrown₄ hn₁ hred₁
      have hgrown₃ := hgrown₂.trans (hopened.grown.trans hgrown₄)
      refine ⟨.bind k d' (n.close y), .typed ?_ hkind' ?_ ?_, ?_⟩
      · refine .inr ⟨hgrown₁.next.trans hlo, hhi.trans_le ?_⟩
        exact (hopened.grown.trans hgrown₄).next
      · exact (htype'.grown hgrown₃).mono (Range.grow_le .refl le_rfl hgrown₃.next)
      · exact hn.mono (Range.under_grow_le hgrown.next hhi)
      · refine .bind k hd' ?_
        rw [subst_close hσ hrest.overFree (hR.not_free (hgrown₁.next.trans hlo))]
        exact hred.subst _
    | @untyped _ _ x explicit _ _ d m hx hkind hne hd hrest =>
      rw [Traversal.params]
      refine Yields.bind (P := fun o s₁ => o = none ∧ s₁ = s) (.pure ⟨rfl, rfl⟩) ?_
      rintro _ _ ⟨rfl, rfl⟩
      refine yields_under _ hH hR hσ ?_
      intro y σ₁ H₂ s₂ hlo hhi hkind' hgrown hσ₁
      refine Yields.bind (ih (hgrown.below hH) ((hR.mono hgrown.next).under hhi) hσ₁
        (hrest.grown hgrown)) ?_
      rintro ⟨ps', σ₂⟩ s₃ ⟨hps', H₃, θ₁, R₁, R₁', m₁, hopened⟩
      refine .pure ⟨by simp, H₃, θ₁, R₁, R₁', m₁, hgrown.trans hopened.grown, hopened.below,
        hopened.sends, hopened.reads, ?_⟩
      intro H₄ s₄ inner' n₁ hgrown₄ hn₁ hred₁
      obtain ⟨n, hn, hred⟩ := hopened.closes hgrown₄ hn₁ hred₁
      obtain ⟨d', m', rfl, hd', hm'⟩ := Red.of_bind hred
      rw [subst_update hd] at hd'
      have hy : ¬ R'.free y := hR.not_free hlo
      refine ⟨.bind k d' ((Curried.bind k d' m').close y), .untyped ?_ hkind' (hps' hne) ?_ ?_, ?_⟩
      · refine .inr ⟨hlo, hhi.trans_le ?_⟩
        exact (hopened.grown.trans hgrown₄).next
      · refine Red.over hd' (hd.subst (fun _ => trivial) fun z hz => ?_)
        refine (Sends.over hσ hz.2).mono fun w hw => ⟨?_, hw⟩
        rintro rfl
        exact hy hw
      · exact hn.mono (Range.under_grow_le hgrown.next hhi)
      · refine .bind k hd' ?_
        rw [subst_close hσ hrest.overFree hy]
        exact hred.subst _

omit hself in
theorem Sends.single (harg : Curries H R (.term arg) a) :
    (Substitution.single x arg).Sends H (Function.update .free x a) (R.under x) R := by
  intro z hz
  by_cases hzx : z = x
  · subst hzx
    have hget : (Substitution.single z arg).exprs.get? (.local z) = some arg :=
      Mapping.get?_insert_self _ _ _
    rw [hget, Function.update_self]
    constructor
    · intro u hu
      cases hu
      exact harg
    · intro hnone
      cases hnone
  · have hget : (Substitution.single x arg).exprs.get? (.local z) = none :=
      Mapping.get?_insert_of_ne _ _ (by simpa using hzx)
    rw [hget, Function.update_of_ne hzx]
    constructor
    · intro u hu
      cases hu
    · exact fun _ => ⟨hz.resolve_left hzx, rfl⟩

/-- Copies a telescope with what is behind it, and makes a node of both. -/
theorem yields_behind (make : LevelSubst → Telescope Term → Term → Node Term) (hH : H.Below s.next)
    (hR : R'.Below s.next) (hσ : σ.Sends H θ R R') (hps : ps ≠ [])
    (h : Curries H R (.tele k ps (some body)) m)
    (hmake : ∀ {H' R'' levels ps' body' stamp n}, ps' ≠ [] →
      Curries H' R'' (.tele k ps' (some body')) n → H' stamp = some n →
      Curries H' R'' (.term (.mk stamp (make levels ps' body'))) n) :
    Yields (do
      let (ps, σ) ← Traversal.params self σ ps
      let body ← self σ body
      Core.build (make σ.levels ps body) : Traversal Term) s fun t' s' =>
        Makes H s R' (m.subst (.ofFree θ)) (.term t') s' := by
  refine Yields.bind (yields_params hself hH hR hσ h) ?_
  rintro ⟨ps', σ₁⟩ s₁ ⟨hps', H₁, θ₁, R₁, R₁', m₁, hopened⟩
  cases hopened.reads with
  | inner hinner =>
    refine Yields.bind (hself (hopened.grown.below hH) hopened.below hopened.sends hinner) ?_
    rintro body' s₂ ⟨H₂, n₁, hgrown, hbody', hred₁⟩
    obtain ⟨n, hn, hred⟩ := hopened.closes hgrown (.inner hbody') hred₁
    have hgrown := hopened.grown.trans hgrown
    refine (yields_node n (hgrown.below hH) ?_).lift
    intro H₃ stamp hgrown₃ hstamp
    refine ⟨H₃, n, hgrown.trans hgrown₃, hmake (hps' hps) ?_ hstamp, hred⟩
    exact (hn.grown hgrown₃).mono (Range.grow_le .refl le_rfl hgrown₃.next)

/-- A function of at least one parameter is applied. -/
theorem yields_beta {p : Param Term} (sort : USort) (hH : H.Below s.next) (hR : R.Below s.next)
    (hbody : Curries H (R.under p.var) (.tele .lam ps (some body)) m)
    (harg : Curries H R (.term arg) a) :
    Yields (Traversal.beta self sort body arg (p :: ps)) s fun t s' =>
      Makes H s R ((m.close p.var).inst a) (.term t) s' := by
  rw [Curried.inst_close]
  have hσ := Sends.single (x := p.var) harg
  cases ps with
  | nil =>
    cases hbody with
    | inner hbody => exact (hself hH hR hσ hbody).start
  | cons q ps =>
    exact (yields_behind hself (fun _ => .lam sort) hH hR hσ (by simp) hbody .lam).start

theorem yields_makeApp {fn : Term} {f : Curried} (hH : H.Below s.next) (hR : R.Below s.next)
    (hfn : Curries H R (.term fn) f) (harg : Curries H R (.term arg) a) :
    Yields (Traversal.makeAppFrom self fn [arg]) s fun t s' =>
      Makes H s R (.app f a) (.term t) s' := by
  have hbuild : Yields (Core.build (.app fn arg)) s fun t s' =>
      Makes H s R (.app f a) (.term t) s' := by
    refine yields_node (.app f a) hH fun H₁ stamp hgrown hstamp => ?_
    refine ⟨H₁, .app f a, hgrown, ?_, .refl _⟩
    exact (Curries.app (hfn.grown hgrown) (harg.grown hgrown) hstamp).mono Range.le_grow
  cases hfn with
  | @lam _ _ sort ps body _ hps h hstamp =>
    refine Yields.bind ?_ fun t s' h => .pure h
    cases ps with
    | nil => exact absurd rfl hps
    | cons p ps =>
      obtain ⟨d, m, rfl, -, -, hbody, -⟩ := h.cons_inv
      refine (yields_beta hself _ hH hR hbody harg).mono ?_
      rintro t s' ⟨H', n, hgrown, hn, hred⟩
      exact ⟨H', n, hgrown, hn, (Rel.beta d _ a).trans hred⟩
  | _ => exact Yields.bind hbuild fun t s' h => .pure h

omit hself in
theorem Makes.onShared {p : Phrase} {s' : Store} {f : Shared → Shared} (h : Makes H s R m p s') :
    Makes H s R m p (σ.onShared f s') := by
  obtain ⟨H', n, hgrown, hn, hred⟩ := h
  have hnext := σ.onShared_next f s'
  refine ⟨H', n, hgrown.trans (.skip hnext.symm.le), ?_, hred⟩
  rw [hnext]
  exact hn

theorem yields_step {sig : Signature} {t : Term} {n : Curried}
    (hkeeps : ∀ n σ t, Preserves (OnStore fun s => n ≤ s.next) (self σ t))
    (hH : H.Below s.next)
    (hR : R'.Below s.next) (hσ : σ.Sends H θ R R') (ht : Curries H R (.term t) n) :
    Yields (Traversal.step sig self σ t) s fun t' s' =>
      Makes H s R' (n.subst (.ofFree θ)) (.term t') s' := by
  cases ht with
  | @ref _ stamp x hx hkind hstamp =>
    unfold Traversal.step
    dsimp only [Term.node]
    cases hget : σ.exprs.get? (.local x) with
    | some u => exact .pure ⟨H, _, .refl, ((hσ x hx).1 u hget).mono Range.le_grow, .refl _⟩
    | none =>
      obtain ⟨hfree, heq⟩ := (hσ x hx).2 hget
      dsimp only
      rw [if_neg hkind]
      refine .pure ⟨H, .free x, .refl, .ref hfree hkind hstamp, ?_⟩
      show Red (θ x) (.free x)
      rw [heq]
      exact .refl _
  | @univ _ stamp sort hstamp =>
    unfold Traversal.step
    dsimp only [Term.node]
    split
    · exact .pure ⟨H, _, .refl, .univ hstamp, .refl _⟩
    · refine (yields_node (.atom .univ) hH fun H₁ stamp' hgrown hstamp' => ?_).lift
      exact ⟨H₁, _, hgrown, .univ hstamp', .refl _⟩
  | app hf ha hstamp =>
    refine Yields.bind (hself hH hR hσ hf) ?_
    rintro fn' s₁ ⟨H₁, f', hgrown₁, hf', hredf⟩
    refine Yields.bind (hself (hgrown₁.below hH) (hR.mono hgrown₁.next) (Sends.grown hσ hgrown₁)
      (ha.grown hgrown₁)) ?_
    rintro arg' s₂ ⟨H₂, a', hgrown₂, ha', hreda⟩
    have hgrown := hgrown₁.trans hgrown₂
    have hf' := (hf'.grown hgrown₂).mono (Range.grow_le .refl le_rfl hgrown₂.next)
    have ha' := ha'.mono (Range.grow_le .refl hgrown₁.next le_rfl)
    refine ((yields_makeApp hself (hgrown.below hH) (hR.grow hgrown.next) hf' ha').mono ?_).lift
    rintro t s₃ ⟨H₃, n, hgrown₃, hn, hred⟩
    refine ⟨H₃, n, hgrown.trans hgrown₃, ?_, (Rel.pair .app hredf hreda).trans hred⟩
    exact hn.mono (Range.grow_grow_le hgrown.next hgrown₃.next)
  | @con _ stamp c m h hstamp =>
    have hdata : Preserves (OnStore fun s₁ => s.next ≤ s₁.next) (c.dataArgs.mapM (self σ)) :=
      (Keeps.mapM fun u _ => hkeeps s.next σ u).mono fun _ _ => trivial
    refine Yields.bind (Yields.of_keepsT hdata le_rfl) ?_
    intro dataArgs s₁ hs₁
    have hskip : Grown H s H s₁ := .skip hs₁.1
    refine Yields.bind (yields_args hself (hskip.below hH) (hR.mono hskip.next) hσ h) ?_
    rintro args s₂ ⟨H₂, m', hgrown, hargs, hred⟩
    have hgrown := hskip.trans hgrown
    refine (yields_node (.node (.con c.con) m') (hgrown.below hH) fun H₃ stamp' hgrown₃ hstamp' => ?_).lift
    refine ⟨H₃, _, hgrown.trans hgrown₃, .con ?_ hstamp', .pair .node (.refl _) hred⟩
    exact (hargs.grown hgrown₃).mono (Range.grow_le .refl hskip.next hgrown₃.next)
  | @data _ stamp d m h hstamp =>
    refine Yields.bind (yields_args hself hH hR hσ h) ?_
    rintro args s₁ ⟨H₁, m', hgrown, hargs, hred⟩
    refine (yields_node (.node (.data d.data) m') (hgrown.below hH) fun H₂ stamp' hgrown₂ hstamp' => ?_).lift
    refine ⟨H₂, _, hgrown.trans hgrown₂, .data ?_ hstamp', .pair .node (.refl _) hred⟩
    exact (hargs.grown hgrown₂).mono (Range.grow_le .refl le_rfl hgrown₂.next)
  | @lam _ _ sort _ _ _ hps h hstamp =>
    refine Traversal.yields_inScope ?_ fun _ _ => Makes.onShared
    exact yields_behind hself (fun levels => .lam (sort.subst levels)) hH hR hσ hps h .lam
  | @pi _ _ sort _ _ _ hps h hstamp =>
    refine Traversal.yields_inScope ?_ fun _ _ => Makes.onShared
    exact yields_behind hself (fun levels => .pi (sort.subst levels)) hH hR hσ hps h .pi
  | @sigma _ stamp type m h hstamp =>
    refine Traversal.yields_inScope ?_ fun _ _ => Makes.onShared
    refine Yields.bind (yields_params hself hH hR hσ h) ?_
    rintro ⟨ps', σ₁⟩ s₁ ⟨-, H₁, θ₁, R₁, R₁', m₁, hopened⟩
    cases hopened.reads with
    | done =>
      obtain ⟨n, hn, hred⟩ := hopened.closes .refl .done (.refl _)
      refine (yields_node (.node .sigma n) (hopened.grown.below hH) fun H₂ stamp' hgrown₂ hstamp' => ?_).lift
      refine ⟨H₂, _, hopened.grown.trans hgrown₂, .sigma ?_ hstamp', .pair .node (.refl _) hred⟩
      exact (hn.grown hgrown₂).mono (Range.grow_le .refl le_rfl hgrown₂.next)

end Step

/-- A traversal reads as substitution and reduction, by induction on the depth. -/
theorem copies_traverse (sig : Signature) (fuel : Nat) : Copies (Traversal.traverse sig fuel) := by
  induction fuel with
  | zero => exact fun _ _ _ _ => Yields.throwT
  | succ fuel ih =>
    intro H s σ θ R R' t n hH hR hσ ht
    exact yields_step ih (fun n σ t => keeps_next_traverse n fuel σ t) hH hR hσ ht

end Currying

end Recheck
