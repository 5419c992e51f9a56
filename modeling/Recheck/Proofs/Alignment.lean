import Recheck.Proofs.Currying

/-!
# Recheck — terms that are compared

Two references are taken for the same when they refer to the same variable, or when their
variables were bound at the same time. Whether that says anything about the terms depends on
what else binds these variables.

* `Range.Apart` is the plain case: no variable that one of the terms binds occurs in the
  other one.
* `Aligned` lets the terms have variables in common as well, if they bind them in the same
  places, which is so for functions and types that share a telescope.
* `Matched` is what a comparison keeps on its way under binders. The environments that it
  speaks of put the same bound variable in place of two variables that correspond.
-/

namespace Recheck

open Curried (Env)

/-! ## Ranges of two terms -/

namespace Range

/-- What one of the terms binds does not occur in the other one. -/
structure Apart (R R' : Range) : Prop where
  left : ∀ x, R.bound x → ¬ R'.free x ∧ ¬ R'.bound x
  right : ∀ x, R'.bound x → ¬ R.free x ∧ ¬ R.bound x

/-- The variables can be bound at the same time: they are the same, or neither of them occurs
in the other term. -/
structure Meets (R R' : Range) (x y : Var) : Prop where
  left : R.bound x
  right : R'.bound y
  apart : x ≠ y → (¬ R'.free x ∧ ¬ R'.bound x) ∧ ¬ R.free y ∧ ¬ R.bound y

namespace Apart

variable {R R' : Range} {x y : Var} {n : Nat}

variable (h : R.Apart R')

include h

protected theorem symm : R'.Apart R := ⟨h.right, h.left⟩

theorem meets (hx : R.bound x) (hy : R'.bound y) : R.Meets R' x y :=
  ⟨hx, hy, fun _ => ⟨h.left x hx, h.right y hy⟩⟩

theorem under (hx : R.bound x) (hy : R'.bound y) : (R.under x).Apart (R'.under y) := by
  constructor
  · intro z hz
    refine ⟨?_, fun hbound => (h.left z hz.2).2 hbound.2⟩
    rintro (rfl | hfree)
    · exact (h.left z hz.2).2 hy
    · exact (h.left z hz.2).1 hfree
  · intro z hz
    refine ⟨?_, fun hbound => (h.right z hz.2).2 hbound.2⟩
    rintro (rfl | hfree)
    · exact (h.right z hz.2).2 hx
    · exact (h.right z hz.2).1 hfree

/-- The same variable comes into both scopes. -/
theorem under_same (x : Var) : (R.under x).Apart (R'.under x) := by
  constructor
  · intro z hz
    exact ⟨fun hfree => (h.left z hz.2).1 (hfree.resolve_left hz.1),
      fun hbound => (h.left z hz.2).2 hbound.2⟩
  · intro z hz
    exact ⟨fun hfree => (h.right z hz.2).1 (hfree.resolve_left hz.1),
      fun hbound => (h.right z hz.2).2 hbound.2⟩

/-- One of the terms binds new variables. -/
theorem grow (hR' : R'.Below n) (n' : Nat) : (R.grow n n').Apart R' := by
  constructor
  · intro z hz
    rcases hz with hz | hz
    · exact h.left z hz
    · exact ⟨hR'.not_free hz.1, hR'.not_bound hz.1⟩
  · intro z hz
    refine ⟨(h.right z hz).1, fun hgrow => ?_⟩
    rcases hgrow with hbound | hnew
    · exact (h.right z hz).2 hbound
    · exact hR'.not_bound hnew.1 hz

end Apart

end Range

/-! ## Variables that correspond -/

/-- The ranges of two terms that are compared, with a correspondence between their variables.
All variables are older than `n`. -/
structure Matched (n : Nat) (ρ : Renaming) (R R' : Range) (e e' : Env) : Prop where
  below : R.Below n
  below' : R'.Below n
  known : ∀ q ∈ ρ.pairs, q.1.serial < n ∧ q.2.serial < n
  /-- A variable that corresponds to another one is not bound again. -/
  fresh : ∀ q ∈ ρ.pairs, ∀ x, R.bound x ∨ R'.bound x → q.1 ≠ x ∧ q.2 ≠ x
  bounds : ∀ i, e.bound i = e'.bound i
  shared : ∀ x, R.free x → R'.free x → e.free x = e'.free x
  paired : ∀ q ∈ ρ.pairs, (R.free q.1 → R'.free q.2 → e.free q.1 = e'.free q.2) ∧
    (R'.free q.1 → R.free q.2 → e'.free q.1 = e.free q.2)

namespace Matched

variable {n n' : Nat} {ρ : Renaming} {R R' S S' : Range} {e e' : Env} {x y : Var}

/-- At the start of a comparison. -/
theorem empty (hR : R.Below n) (hR' : R'.Below n) :
    Matched n .empty R R' ⟨.bound, .free⟩ ⟨.bound, .free⟩ where
  below := hR
  below' := hR'
  known q hq := by cases hq
  fresh q hq := by cases hq
  bounds _ := rfl
  shared _ _ _ := rfl
  paired q hq := by cases hq

variable (h : Matched n ρ R R' e e')

include h

theorem mono (hle : n ≤ n') : Matched n' ρ R R' e e' :=
  { h with
    below := h.below.mono hle
    below' := h.below'.mono hle
    known := fun q hq => ⟨(h.known q hq).1.trans_le hle,
      (h.known q hq).2.trans_le hle⟩ }

theorem narrow (hS : S.Le R) (hS' : S'.Le R') : Matched n ρ S S' e e' where
  below := ⟨fun x hx => h.below.free x (hS.free x hx), fun x hx => h.below.bound x (hS.bound x hx)⟩
  below' :=
    ⟨fun x hx => h.below'.free x (hS'.free x hx), fun x hx => h.below'.bound x (hS'.bound x hx)⟩
  known := h.known
  fresh q hq x hx := h.fresh q hq x (hx.imp (hS.bound x) (hS'.bound x))
  bounds := h.bounds
  shared x hx hx' := h.shared x (hS.free x hx) (hS'.free x hx')
  paired q hq :=
    ⟨fun hfree hfree' => (h.paired q hq).1 (hS.free _ hfree) (hS'.free _ hfree'),
      fun hfree hfree' => (h.paired q hq).2 (hS'.free _ hfree) (hS.free _ hfree')⟩

/-- The sides are exchanged, which the correspondence does not follow. -/
protected theorem symm : Matched n ρ R' R e' e where
  below := h.below'
  below' := h.below
  known := h.known
  fresh q hq x hx := h.fresh q hq x hx.symm
  bounds i := (h.bounds i).symm
  shared x hx hx' := (h.shared x hx' hx).symm
  paired q hq := ⟨(h.paired q hq).2, (h.paired q hq).1⟩

/-- One of the terms binds new variables. -/
theorem grow (hle : n ≤ n') : Matched n' ρ (R.grow n n') R' e e' :=
  { h.mono hle with
    below := h.below.grow hle
    fresh := by
      intro q hq x hx
      rcases hx with (hx | hx) | hx
      · exact h.fresh q hq x (.inl hx)
      · have hknown := h.known q hq
        constructor
        · rintro rfl
          exact Nat.not_lt.mpr hx.1 hknown.1
        · rintro rfl
          exact Nat.not_lt.mpr hx.1 hknown.2
      · exact h.fresh q hq x (.inr hx) }

theorem bounds_behind (x y : Var) (i : Nat) :
    (e.behind x).bound i = (e'.behind y).bound i := congrArg Curried.shift (h.bounds i)

/-- What was paired before stays so when other variables are bound. -/
theorem paired_behind (hx : R.bound x) (hy : R'.bound y ∨ R.bound y)
    (q : Var × Var) (hq : q ∈ ρ.pairs) :
    ((R.under x).free q.1 → (R'.under y).free q.2 →
      (e.behind x).free q.1 = (e'.behind y).free q.2) ∧
    ((R'.under y).free q.1 → (R.under x).free q.2 →
      (e'.behind y).free q.1 = (e.behind x).free q.2) := by
  obtain ⟨h₁, h₂⟩ := h.fresh q hq x (.inl hx)
  obtain ⟨h₁', h₂'⟩ := h.fresh q hq y hy.symm
  rw [e.behind_of_ne h₁, e.behind_of_ne h₂, e'.behind_of_ne h₁', e'.behind_of_ne h₂']
  constructor
  · intro hfree hfree'
    rw [(h.paired q hq).1 (hfree.resolve_left h₁) (hfree'.resolve_left h₂')]
  · intro hfree hfree'
    rw [(h.paired q hq).2 (hfree.resolve_left h₁') (hfree'.resolve_left h₂)]

theorem shared_behind {z : Var} (hx : z ≠ x) (hy : z ≠ y)
    (hfree : (R.under x).free z) (hfree' : (R'.under y).free z) :
    (e.behind x).free z = (e'.behind y).free z := by
  rw [e.behind_of_ne hx, e'.behind_of_ne hy, h.shared z (hfree.resolve_left hx)
    (hfree'.resolve_left hy)]

/-- Both terms bind a variable, and the variables correspond. -/
theorem under (hxy : R.Meets R' x y) :
    Matched n (ρ.bind x y) (R.under x) (R'.under y) (e.behind x) (e'.behind y) := by
  have hself : (e.behind x).free x = (e'.behind y).free y := by
    rw [e.behind_self, e'.behind_self]
  have hmem : ∀ q ∈ (ρ.bind x y).pairs, q = (x, y) ∨ q ∈ ρ.pairs := fun q hq =>
    (List.mem_cons.mp hq).imp_right fun hq => (List.mem_filter.mp hq).1
  have hx := h.below.bound x hxy.left
  have hy := h.below'.bound y hxy.right
  refine ⟨h.below.under hx, h.below'.under hy, ?_, ?_, h.bounds_behind x y, ?_, ?_⟩
  · intro q hq
    rcases hmem q hq with rfl | hq
    · exact ⟨hx, hy⟩
    · exact h.known q hq
  · intro q hq z hz
    rcases hmem q hq with rfl | hq
    · by_cases heq : x = y
      · subst heq
        rcases hz with hz | hz
        · exact ⟨hz.1.symm, hz.1.symm⟩
        · exact ⟨hz.1.symm, hz.1.symm⟩
      · obtain ⟨hx', hy'⟩ := hxy.apart heq
        rcases hz with ⟨hne, hz⟩ | ⟨hne, hz⟩
        · refine ⟨hne.symm, ?_⟩
          rintro rfl
          exact hy'.2 hz
        · refine ⟨?_, hne.symm⟩
          rintro rfl
          exact hx'.2 hz
    · exact h.fresh q hq z (hz.imp And.right And.right)
  · intro z hz hz'
    by_cases heq : x = y
    · subst heq
      by_cases hzx : z = x
      · subst hzx
        exact hself
      · exact h.shared_behind hzx hzx hz hz'
    · obtain ⟨hx', hy'⟩ := hxy.apart heq
      have hzx : z ≠ x := by
        rintro rfl
        exact hx'.1 (hz'.resolve_left heq)
      have hzy : z ≠ y := by
        rintro rfl
        exact hy'.1 (hz.resolve_left hzx)
      exact h.shared_behind hzx hzy hz hz'
  · intro q hq
    rcases hmem q hq with rfl | hq
    · refine ⟨fun _ _ => hself, fun hfree hfree' => ?_⟩
      by_cases heq : x = y
      · subst heq
        exact hself.symm
      · exact absurd (hfree.resolve_left heq) (hxy.apart heq).1.1
    · exact h.paired_behind hxy.left (.inl hxy.right) q hq

/-- One of the terms binds a variable, and the other one is applied to it. -/
theorem applied (hx : R.bound x) :
    Matched n ρ (R.under x) (R'.under x) (e.behind x) (e'.behind x) := by
  have hlt := h.below.bound x hx
  refine ⟨h.below.under hlt, h.below'.under hlt, h.known, ?_, h.bounds_behind x x, ?_, ?_⟩
  · exact fun q hq z hz => h.fresh q hq z (hz.imp And.right And.right)
  · intro z hz hz'
    by_cases hzx : z = x
    · subst hzx
      rw [e.behind_self, e'.behind_self]
    · exact h.shared_behind hzx hzx hz hz'
  · exact h.paired_behind hx (.inr hx)

/-- A term that both sides have reads the same on both sides. -/
theorem subst_eq {m : Curried} (hm : m.Over R.free)
    (hm' : m.Over R'.free) : m.subst e = m.subst e' :=
  Curried.subst_congr (Curried.over_and.mpr ⟨hm, hm'⟩) h.bounds fun x hx => h.shared x hx.1 hx.2

theorem free_eq_of_relates (hx : R.free x) (hy : R'.free y)
    (hxy : x == y || ρ.relates x y) : e.free x = e'.free y := by
  rw [Bool.or_eq_true] at hxy
  rcases hxy with heq | hrelates
  · obtain rfl := eq_of_beq heq
    exact h.shared x hx hy
  · have hlookup : ρ.pairs.lookup x = some y := eq_of_beq hrelates
    obtain ⟨l₁, l₂, heq, -⟩ := List.lookup_eq_some_iff.mp hlookup
    refine (h.paired (x, y) ?_).1 hx hy
    rw [heq]
    exact List.mem_append_right _ (.head _)

end Matched

/-! ## Binding in the same places -/

/-- Two phrases with their readings, such that the variables that both of them bind are bound
in the same places. These are reached from the outside through functions, types and
constructors; other parts are apart. -/
inductive Aligned (H : Heap) : Range → Range → Phrase → Phrase → Curried → Curried → Prop where
  | apart {R R' S S' : Range} {p q : Phrase} {m n : Curried} (hS : S.Le R) (hS' : S'.Le R')
      (h : S.Apart S') (hp : Curries H S p m) (hq : Curries H S' q n) : Aligned H R R' p q m n
  | lam {R R' : Range} {i j : Nat} {sort sort' : USort} {ps qs : Telescope Term} {a b : Term}
      {m n : Curried} (hp : Curries H R (.term (.mk i (.lam sort ps a))) m)
      (hq : Curries H R' (.term (.mk j (.lam sort' qs b))) n)
      (h : Aligned H R R' (.tele .lam ps (some a)) (.tele .lam qs (some b)) m n) :
      Aligned H R R' (.term (.mk i (.lam sort ps a))) (.term (.mk j (.lam sort' qs b))) m n
  | pi {R R' : Range} {i j : Nat} {sort sort' : USort} {ps qs : Telescope Term} {a b : Term}
      {m n : Curried} (hp : Curries H R (.term (.mk i (.pi sort ps a))) m)
      (hq : Curries H R' (.term (.mk j (.pi sort' qs b))) n)
      (h : Aligned H R R' (.tele .pi ps (some a)) (.tele .pi qs (some b)) m n) :
      Aligned H R R' (.term (.mk i (.pi sort ps a))) (.term (.mk j (.pi sort' qs b))) m n
  | sigma {R R' : Range} {i j : Nat} {c d : SigmaType Term} {m n : Curried}
      (hp : Curries H R (.term (.mk i (.sigma c))) (.node .sigma m))
      (hq : Curries H R' (.term (.mk j (.sigma d))) (.node .sigma n))
      (h : Aligned H R R' (.tele .sigma c.params none) (.tele .sigma d.params none) m n) :
      Aligned H R R' (.term (.mk i (.sigma c))) (.term (.mk j (.sigma d))) (.node .sigma m)
        (.node .sigma n)
  | con {R R' : Range} {i j : Nat} {c d : ConApp Term} {m n : Curried}
      (hp : Curries H R (.term (.mk i (.con c))) (.node (.con c.con) m))
      (hq : Curries H R' (.term (.mk j (.con d))) (.node (.con d.con) n))
      (h : Aligned H R R' (.args c.args) (.args d.args) m n) :
      Aligned H R R' (.term (.mk i (.con c))) (.term (.mk j (.con d))) (.node (.con c.con) m)
        (.node (.con d.con) n)
  | data {R R' : Range} {i j : Nat} {c d : DataType Term} {m n : Curried}
      (hp : Curries H R (.term (.mk i (.data c))) (.node (.data c.data) m))
      (hq : Curries H R' (.term (.mk j (.data d))) (.node (.data d.data) n))
      (h : Aligned H R R' (.args c.args) (.args d.args) m n) :
      Aligned H R R' (.term (.mk i (.data c))) (.term (.mk j (.data d))) (.node (.data c.data) m)
        (.node (.data d.data) n)
  | cons {R R' : Range} {t u : Term} {ts us : List Term} {m m' n n' : Curried}
      (h : Aligned H R R' (.term t) (.term u) m n)
      (hs : Aligned H R R' (.args ts) (.args us) m' n') :
      Aligned H R R' (.args (t :: ts)) (.args (u :: us)) (.pair .cons m m') (.pair .cons n n')
  | inner {R R' : Range} {k : Curried.Binding} {t u : Term} {m n : Curried}
      (h : Aligned H R R' (.term t) (.term u) m n) :
      Aligned H R R' (.tele k [] (some t)) (.tele k [] (some u)) m n
  | param {R R' : Range} {k : Curried.Binding} {p q : Param Term} {ps qs : Telescope Term}
      {a b : Option Term} {d d' m n : Curried} (hxy : R.Meets R' p.var q.var)
      (hp : Curries H R (.tele k (p :: ps) a) (.bind k d (m.close p.var)))
      (hq : Curries H R' (.tele k (q :: qs) b) (.bind k d' (n.close q.var)))
      (htypes : ∀ type type', Telescope.headType (p :: ps) = some type →
        Telescope.headType (q :: qs) = some type' →
        Aligned H R R' (.term type) (.term type') d d')
      (h : Aligned H (R.under p.var) (R'.under q.var) (.tele k ps a) (.tele k qs b) m n) :
      Aligned H R R' (.tele k (p :: ps) a) (.tele k (q :: qs) b) (.bind k d (m.close p.var))
        (.bind k d' (n.close q.var))

namespace Aligned

variable {H H' : Heap} {R R' : Range} {p q : Phrase} {m n : Curried}

theorem left (h : Aligned H R R' p q m n) : Curries H R p m := by
  induction h with
  | apart hS _ _ hp => exact hp.mono hS
  | lam hp | pi hp | sigma hp | con hp | data hp | param _ hp => exact hp
  | cons _ _ ih ihs => exact .cons ih ihs
  | inner _ ih => exact .inner ih

theorem right (h : Aligned H R R' p q m n) : Curries H R' q n := by
  induction h with
  | apart _ hS' _ _ hq => exact hq.mono hS'
  | lam _ hq | pi _ hq | sigma _ hq | con _ hq | data _ hq | param _ _ hq => exact hq
  | cons _ _ ih ihs => exact .cons ih ihs
  | inner _ ih => exact .inner ih

theorem grown {s s' : Store} (h : Aligned H R R' p q m n) (hs : Grown H s H' s') :
    Aligned H' R R' p q m n := by
  induction h with
  | apart hS hS' h hp hq => exact .apart hS hS' h (hp.grown hs) (hq.grown hs)
  | lam hp hq _ ih => exact .lam (hp.grown hs) (hq.grown hs) ih
  | pi hp hq _ ih => exact .pi (hp.grown hs) (hq.grown hs) ih
  | sigma hp hq _ ih => exact .sigma (hp.grown hs) (hq.grown hs) ih
  | con hp hq _ ih => exact .con (hp.grown hs) (hq.grown hs) ih
  | data hp hq _ ih => exact .data (hp.grown hs) (hq.grown hs) ih
  | cons _ _ ih ihs => exact .cons ih ihs
  | inner _ ih => exact .inner ih
  | param hxy hp hq _ _ ihtypes ih => exact .param hxy (hp.grown hs) (hq.grown hs) ihtypes ih

/-- The first parameters of two telescopes, with what is in their scopes. -/
theorem param_inv {k : Curried.Binding} {p q : Param Term} {ps qs : Telescope Term}
    {a b : Option Term} (h : Aligned H R R' (.tele k (p :: ps) a) (.tele k (q :: qs) b) m n) :
    ∃ S S' d d' l l', m = .bind k d (l.close p.var) ∧ n = .bind k d' (l'.close q.var) ∧
      S.Le R ∧ S'.Le R' ∧ S.Meets S' p.var q.var ∧
      (∀ type type', Telescope.headType (p :: ps) = some type →
        Telescope.headType (q :: qs) = some type' →
        Aligned H S S' (.term type) (.term type') d d') ∧
      Aligned H (S.under p.var) (S'.under q.var) (.tele k ps a) (.tele k qs b) l l' := by
  cases h with
  | @apart _ _ S S' _ _ _ _ hS hS' h hp hq =>
    obtain ⟨d, l, rfl, hx, -, hrest, htype⟩ := hp.cons_inv
    obtain ⟨d', l', rfl, hy, -, hrest', htype'⟩ := hq.cons_inv
    refine ⟨S, S', d, d', l, l', rfl, rfl, hS, hS', h.meets hx hy, ?_, ?_⟩
    · intro type type' heq heq'
      exact .apart .refl .refl h (htype type heq) (htype' type' heq')
    · exact .apart .refl .refl (h.under hx hy) hrest hrest'
  | param hxy _ _ htypes h => exact ⟨R, R', _, _, _, _, rfl, rfl, .refl, .refl, hxy, htypes, h⟩

theorem cons_inv {t u : Term} {ts us : List Term}
    (h : Aligned H R R' (.args (t :: ts)) (.args (u :: us)) m n) :
    ∃ l l' k k', m = .pair .cons l k ∧ n = .pair .cons l' k' ∧
      Aligned H R R' (.term t) (.term u) l l' ∧ Aligned H R R' (.args ts) (.args us) k k' := by
  cases h with
  | apart hS hS' h hp hq =>
    cases hp with
    | cons ht hts =>
      cases hq with
      | cons hu hus =>
        exact ⟨_, _, _, _, rfl, rfl, .apart hS hS' h ht hu, .apart hS hS' h hts hus⟩
  | cons h hs => exact ⟨_, _, _, _, rfl, rfl, h, hs⟩

end Aligned

end Recheck
