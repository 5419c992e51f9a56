import Recheck.Proofs.Introduction
import Recheck.Proofs.Reflexivity.Reduction

/-!
# Recheck — comparing a term with a copy of it

A comparison reduces first the one term and then the other. If the terms are copies of each
other, the second reduction repeats the first, with numbers that were handed out later. What
has been paired up so far is kept in a `Register`, which grows by the numbers that the two
reductions have taken.

A copy of a tame term is never refused: a comparison of the two answers `true`, or ends in a
fault.
-/

namespace Recheck

open Pairing (nothing)

variable {A : Type} {s : Store} {m : Type → Type}

/-! ## Terms that are alike, by the numbers that they are made of -/

section Narrowing

variable {N : Nat} {D : Vars}
variable {t : Term}

theorem Telescope.site_of_part {pending : List Var} {ps : Telescope Term}
    (ht : .term t ∈ ps.parts) : ∃ E, (E, t) ∈ ps.sites D pending := by
  induction ps generalizing D pending with
  | nil => cases ht
  | cons p ps ih =>
    rw [Telescope.parts, List.flatMap_cons, List.mem_append] at ht
    rw [Telescope.sites]
    cases hp : p.type with
    | none =>
      rw [hp] at ht
      exact ih (ht.resolve_left (by simp))
    | some type =>
      rw [hp] at ht
      rcases ht with ht | ht
      · obtain rfl : t = type := by simpa using ht
        exact ⟨_, .head _⟩
      · obtain ⟨E, hE⟩ := ih ht
        exact ⟨E, .tail _ hE⟩

theorem RecordType.site_of_part {r : RecordType Term} (ht : .term t ∈ r.parts) :
    ∃ E, (E, t) ∈ r.sites D := by
  obtain ⟨e, he, heq⟩ := List.mem_map.mp ((List.mem_cons.mp ht).resolve_left (by simp))
  cases heq
  exact ⟨_, List.mem_map_of_mem he⟩

/-- Every immediate subterm has its scope. -/
theorem Node.site_of_part {node : Node Term} (hform : node.isTame) (ht : .term t ∈ node.parts) :
    ∃ E, (E, t) ∈ node.sites D := by
  have hmap (ts : List Term) (ht : Part.term t ∈ ts.map Part.term) :
      ∃ E, (E, t) ∈ ts.map (D, ·) := by
    obtain ⟨u, hu, heq⟩ := List.mem_map.mp ht
    cases heq
    exact ⟨D, List.mem_map_of_mem hu⟩
  have happend {as bs : List (Part Term)} {cs ds : List (Vars × Term)}
      (ha : .term t ∈ as → ∃ E, (E, t) ∈ cs) (hb : .term t ∈ bs → ∃ E, (E, t) ∈ ds)
      (ht : .term t ∈ as ++ bs) : ∃ E, (E, t) ∈ cs ++ ds := by
    rcases List.mem_append.mp ht with h | h
    · exact (ha h).imp fun E hE => List.mem_append_left _ hE
    · exact (hb h).imp fun E hE => List.mem_append_right _ hE
  cases node with
  | letIn | case | unknown | delayed => cases hform
  | ref x =>
    rw [Node.parts] at ht
    split at ht <;> simp at ht
  | univ | int => cases ht
  | app fn arg => exact hmap [fn, arg] ht
  | ofType u type => exact hmap [u, type] ht
  | field f sort arg => exact hmap [arg] ht
  | proj u index => exact hmap [u] ht
  | call | data | hole => exact hmap _ ht
  | con c => exact happend (hmap _) (hmap _) ht
  | record r => exact RecordType.site_of_part ht
  | lam sort ps body | pi sort ps body =>
    refine happend Telescope.site_of_part (fun h => ?_) ht
    obtain rfl : t = body := by simpa using h
    exact ⟨_, .head _⟩
  | sigma s => exact Telescope.site_of_part ht
  | tuple fields type => exact happend (hmap _) Telescope.site_of_part ht
  | new renewed type => exact happend (hmap _) RecordType.site_of_part ht

theorem forall₂_imp_of_mem {B : Type} {R S : A → B → Prop} {as : List A} {bs : List B}
    (h : List.Forall₂ R as bs) (himp : ∀ a ∈ as, ∀ b, R a b → S a b) : List.Forall₂ S as bs :=
  ((List.forall₂_and_left as bs).mpr ⟨fun _ ha => ha, h⟩).imp fun a b hab => himp a hab.1 b hab.2

/-- What is known of the numbers and subterms of a part carries over to another pairing. -/
structure Part.Narrows (β β' : Pairing) (R R' : Term → Term → Prop) (parts : List (Part Term)) :
    Prop where
  terms : ∀ t, .term t ∈ parts → ∀ t', R t t' → R' t t'
  binders : ∀ x, .binder x ∈ parts → ∀ x', x.Paired β x' → x.Paired β' x'

section Parts

variable {β β' : Pairing} {R R' : Term → Term → Prop} {parts qs : List (Part Term)}

theorem Part.Narrows.subset (h : Part.Narrows β β' R R' parts) (hle : qs ⊆ parts) :
    Part.Narrows β β' R R' qs :=
  ⟨fun t ht => h.terms t (hle ht), fun x hx => h.binders x (hle hx)⟩

theorem Part.Narrows.left (h : Part.Narrows β β' R R' (parts ++ qs)) :
    Part.Narrows β β' R R' parts := h.subset (List.subset_append_left _ _)

theorem Part.Narrows.right (h : Part.Narrows β β' R R' (parts ++ qs)) :
    Part.Narrows β β' R R' qs := h.subset (List.subset_append_right _ _)

theorem Part.Narrows.forall₂ {ts ts' : List Term} (h : Part.Narrows β β' R R' (ts.map .term))
    (hts : List.Forall₂ R ts ts') : List.Forall₂ R' ts ts' :=
  forall₂_imp_of_mem hts fun t ht t' hR => h.terms t (List.mem_map_of_mem ht) t' hR

theorem Part.Narrows.optional {o o' : Option Term}
    (h : Part.Narrows β β' R R' (o.toList.map .term)) (ho : Option.Rel R o o') :
    Option.Rel R' o o' := by
  cases ho with
  | none => exact .none
  | some ht => exact .some (h.terms _ (by simp) _ ht)

theorem Part.Narrows.telescope {ps ps' : Telescope Term}
    (h : Part.Narrows β β' R R' ps.parts) (hps : Telescope.Paired β R ps ps') :
    Telescope.Paired β' R' ps ps' := by
  refine forall₂_imp_of_mem hps fun p hp p' hpair => ?_
  have hp : Part.Narrows β β' R R' (.binder p.var :: p.type.toList.map .term) :=
    h.subset fun part hpart => List.mem_flatMap.mpr ⟨p, hp, hpart⟩
  obtain ⟨hx, htype⟩ := hpair
  exact ⟨hp.binders _ List.mem_cons_self _ hx,
    (hp.subset (List.subset_cons_self _ _)).optional htype⟩

theorem Part.Narrows.record {r r' : RecordType Term} (h : Part.Narrows β β' R R' r.parts)
    (hr : r.Paired β R r') : r.Paired β' R' r' := by
  obtain ⟨himpls, hthis⟩ := hr
  refine ⟨forall₂_imp_of_mem himpls fun e he e' hpair => ⟨hpair.1, ?_⟩, ?_⟩
  · exact h.terms _ (List.mem_cons_of_mem _ (List.mem_map_of_mem he)) _ hpair.2
  · exact h.binders _ List.mem_cons_self _ hthis

theorem Node.Paired.narrow {node node' : Node Term} (hnode : node.Paired β R node') (hform : node.isTame)
    (h : Part.Narrows β β' R R' node.parts)
    (hinner : ∀ k ∈ node.innerStamps, ∀ k', β.stamp k k' → β'.stamp k k')
    (hrefs : ∀ x ∈ node.refs, ∀ x', x.Paired β x' → x.Paired β' x') :
    node.Paired β' R' node' := by
  cases hnode with
  | case => cases hform
  | ref hx => exact .ref (hrefs _ (.head _) _ hx)
  | app hfn harg =>
    exact .app (h.terms _ (by simp) _ hfn) (h.terms _ (by simp) _ harg)
  | call f sort hargs => exact .call f sort (h.forall₂ hargs)
  | con c sort hdata hargs => exact .con c sort (h.left.forall₂ hdata) (h.right.forall₂ hargs)
  | data d sort hargs => exact .data d sort (h.forall₂ hargs)
  | field f sort harg => exact .field f sort (h.terms _ (by simp) _ harg)
  | record hr => exact .record (h.record hr)
  | lam sort hps hbody =>
    exact .lam sort (h.left.telescope hps) (h.right.terms _ (.head _) _ hbody)
  | pi sort hps hcodomain =>
    exact .pi sort (h.left.telescope hps) (h.right.terms _ (.head _) _ hcodomain)
  | sigma sort hps => exact .sigma sort (h.telescope hps)
  | tuple sort hfields hn hps =>
    exact .tuple sort (h.left.forall₂ hfields) (hinner _ (.head _) _ hn)
      (h.right.telescope hps)
  | proj ht index => exact .proj (h.terms _ (by simp) _ ht) index
  | univ sort => exact .univ sort
  | new hrenewed hn hr =>
    exact .new (h.left.optional hrenewed) (hinner _ (.head _) _ hn)
      (h.right.record hr)
  | ofType ht htype =>
    exact .ofType (h.terms _ (by simp) _ ht) (h.terms _ (by simp) _ htype)
  | int n => exact .int n
  | hole goal hpart => exact .hole goal (h.optional hpart)

end Parts

/-- A pairing may be replaced by another one that has the numbers of the term. -/
theorem Term.Like.narrow {β β' : Pairing} {t' : Term} (h : t.Like β t') (ht : t.Tame N D)
    (hvar : ∀ kind n n', n < N → β.var kind n n' → β'.var kind n n')
    (hstamp : ∀ n n', n < N → β.stamp n n' → β'.stamp n n') : t.Like β' t' := by
  have hpaired (x : Var) (hx : x.Old N nothing) (x' : Var) (hpair : x.Paired β x') :
      x.Paired β' x' := by
    obtain @⟨n, n', kind, name, hn⟩ := hpair
    exact .mk (hvar kind n n' hx.serial hn)
  refine ⟨fun u u' => u.Like β u' ∧ ∃ E, u.Tame N E, ⟨h, D, ht⟩, ?_⟩
  rintro u u' ⟨hu, E, htame⟩
  have hnode := hu.node
  have hpair := hu.stamp
  obtain ⟨hform, hn, hinner, hrefs, hbinders, hsites⟩ := htame
  refine ⟨hstamp _ _ hn hpair, hnode.narrow hform ⟨fun v hv v' hlike => ⟨hlike, ?_⟩, ?_⟩ ?_ ?_⟩
  · obtain ⟨F, hF⟩ := Node.site_of_part hform hv
    exact ⟨F, hsites F v hF⟩
  · exact fun x hx x' => hpaired x (hbinders x hx) x'
  · exact fun k hk k' => hstamp k k' (hinner k hk)
  · exact fun x hx x' => hpaired x (hrefs x hx).2 x'

end Narrowing

/-! ## Registers -/

/-- Which numbers below a limit belong to each other: those of a term and those of its copy.
Numbers below `N` are the same in both. -/
structure Register (N : Nat) where
  limit : Nat
  pairs : Nat → Nat → Prop
  unique : Relator.BiUnique pairs
  below : ∀ n n', pairs n n' → n < limit ∧ n' < limit
  fixed : ∀ n < N, pairs n n

namespace Register

variable {N : Nat} (L : Register N)
variable {m m' : Nat} {s' : Store}

/-- The pairs of the register, and numbers that two runs take next. -/
def Next (m m' n n' : Nat) : Prop := L.pairs n n' ∨ ∃ k, n = m + k ∧ n' = m' + k

variable {L} in
theorem Next.unique (hm : L.limit ≤ m) (hm' : L.limit ≤ m') : Relator.BiUnique (L.Next m m') := by
  refine ⟨?_, ?_⟩
  · rintro a b c (ha | ⟨k, rfl, rfl⟩) (hb | ⟨j, rfl, hj⟩)
    · exact L.unique.1 ha hb
    · have := (L.below _ _ ha).2
      omega
    · have := (L.below _ _ hb).2
      omega
    · omega
  · rintro a b c (ha | ⟨k, rfl, rfl⟩) (hb | ⟨j, hj, rfl⟩)
    · exact L.unique.2 ha hb
    · have := (L.below _ _ ha).1
      omega
    · have := (L.below _ _ hb).1
      omega
    · omega

/-- Sets two runs side by side, the one from the store `s` on the term and the other from the
store `s'` on its copy. -/
def pairing {s s' : Store} (hs : L.limit ≤ s.next) (hs' : L.limit ≤ s'.next) : Pairing where
  left := ⟨s, .new false false⟩
  right := ⟨s', .new false false⟩
  var kind n n' := (kind = .param ∨ kind = .given) ∧ L.Next s.next s'.next n n'
  stamp := L.Next s.next s'.next
  var_kind h := h.1
  var_unique kind := by
    obtain ⟨hleft, hright⟩ := Next.unique hs hs'
    exact ⟨fun _ _ _ h h' => hleft h.2 h'.2, fun _ _ _ h h' => hright h.2 h'.2⟩
  stamp_unique := Next.unique hs hs'
  var_fresh kind hkind k := ⟨hkind, .inr ⟨k, rfl, rfl⟩⟩
  stamp_fresh k := .inr ⟨k, rfl, rfl⟩

theorem paired_pairing (hs : L.limit ≤ s.next) (hs' : L.limit ≤ s'.next) :
    s.Paired (L.pairing hs hs') s' := ⟨0, rfl, rfl⟩

theorem steady_pairing {sig : Signature} (hsig : sig.Plain (Var.Old N nothing) (· < N))
    (hs : L.limit ≤ s.next) (hs' : L.limit ≤ s'.next) : sig.Steady (L.pairing hs hs') :=
  hsig.steady (fun _ hx => .mk ⟨hx.kind, .inl (L.fixed _ hx.serial)⟩)
    fun n hn => .inl (L.fixed n hn)

/-- The pairing of the register as it stands. -/
def standing : Pairing :=
  have hs : L.limit ≤ ({ (default : Store) with next := L.limit } : Store).next := Nat.le_refl _
  L.pairing hs hs

/-- The second term is a copy of the first, by the register. -/
def Twins (t t' : Term) : Prop := t.Like L.standing t'

/-- The later register has the pairs of the earlier one, and only new numbers more. -/
structure Le (L L' : Register N) : Prop where
  limit : L.limit ≤ L'.limit
  pairs : ∀ n n', L.pairs n n' → L'.pairs n n'
  old : ∀ n n', n < L.limit → L'.pairs n n' → L.pairs n n'

theorem le_limit : N ≤ L.limit := by
  by_contra hlt
  have := (L.below _ _ (L.fixed L.limit (by omega))).1
  omega

variable {L}

/-- A number of the register is paired by the register alone. -/
theorem Next.pairs_of_lt {n n' : Nat} (h : L.Next m m' n n') (hn : n < m) : L.pairs n n' := by
  rcases h with h | ⟨k, rfl, -⟩
  · exact h
  · omega

/-- Twins are alike for runs from wherever. -/
theorem Twins.like {t t' : Term} {D : Vars} (h : L.Twins t t') (ht : t.Tame L.limit D)
    (hs : L.limit ≤ s.next) (hs' : L.limit ≤ s'.next) : t.Like (L.pairing hs hs') t' :=
  h.narrow ht (fun _ _ _ hn hpair => ⟨hpair.1, .inl (hpair.2.pairs_of_lt hn)⟩)
    fun _ _ hn hpair => .inl (hpair.pairs_of_lt hn)

/-- What is known of twins and their numbers holds for runs from wherever. -/
theorem narrows {parts : List (Part Term)} (hterms : ∀ t, .term t ∈ parts → ∃ E, t.Tame L.limit E)
    (hbinders : ∀ x, .binder x ∈ parts → x.serial < L.limit) (hs : L.limit ≤ s.next)
    (hs' : L.limit ≤ s'.next) :
    Part.Narrows L.standing (L.pairing hs hs') L.Twins (Term.Like (L.pairing hs hs')) parts where
  terms t ht t' htwins := by
    obtain ⟨E, htame⟩ := hterms t ht
    exact Twins.like htwins htame hs hs'
  binders x hx x' hpair := by
    obtain @⟨n, n', kind, name, hkind, hn⟩ := hpair
    exact .mk ⟨hkind, .inl (hn.pairs_of_lt (hbinders _ hx))⟩

/-- The register with the numbers that two runs have taken, the run on the copy first. -/
def grow (L : Register N) {m : Nat} (hm : L.limit ≤ m) (k : Nat) : Register N where
  limit := m + k + k
  pairs n n' := L.pairs n n' ∨ ∃ j, j < k ∧ n = m + k + j ∧ n' = m + j
  unique := by
    have hunique : Relator.BiUnique (L.Next (m + k) m) := Next.unique (by omega) hm
    have hnext {n n' : Nat} (h : L.pairs n n' ∨ ∃ j, j < k ∧ n = m + k + j ∧ n' = m + j) :
        L.Next (m + k) m n n' := by
      rcases h with h | ⟨j, -, hn, hn'⟩
      · exact .inl h
      · exact .inr ⟨j, hn, hn'⟩
    exact ⟨fun _ _ _ h h' => hunique.1 (hnext h) (hnext h'),
      fun _ _ _ h h' => hunique.2 (hnext h) (hnext h')⟩
  below n n' h := by
    rcases h with h | ⟨j, hj, rfl, rfl⟩
    · have := L.below n n' h
      omega
    · omega
  fixed n hn := .inl (L.fixed n hn)

theorem le_grow (hm : L.limit ≤ m) (k : Nat) : L.Le (L.grow hm k) where
  limit := by
    show L.limit ≤ m + k + k
    omega
  pairs _ _ h := .inl h
  old n n' hn h := by
    rcases h with h | ⟨j, -, rfl, -⟩
    · exact h
    · omega

/-- A run on the copy, and after it one on the term that mirrors it. -/
theorem follow {x x' : Core A} {R : A → A → Prop} {s₁ s₂ : Store} {a a' : A} (hs : L.limit ≤ s.next)
    (hs₁ : L.limit ≤ s₁.next) (hx' : x' s = .ok a' s₁) (hx : x s₁ = .ok a s₂)
    (h : Mirrors (L.pairing hs₁ hs) x x' R) :
    R a a' ∧ ∃ k, s₁.next = s.next + k ∧ s₂.next = s.next + k + k := by
  have hreflects := h s₁ s (L.paired_pairing hs₁ hs)
  rw [hx] at hreflects
  obtain ⟨_, _, hrun, hR, hpaired⟩ := hreflects
  rw [hx'] at hrun
  cases hrun
  obtain ⟨k, hk, hk'⟩ := hpaired
  replace hk' : s₁.next = s.next + k := hk'
  replace hk : s₂.next = s₁.next + k := hk
  exact ⟨hR, k, hk', by omega⟩

/-- The correspondence of bound variables has what the register says on the variables in scope. -/
structure Aligned (L : Register N) (ρ : Renaming) (D : Vars) : Prop where
  old : ∀ x, Vars.old N x → D x
  below : ∀ x, D x → x.serial < L.limit
  related : ∀ x x', D x → x.Paired L.standing x' → x' = x ∨ ρ.relates x' x

variable {ρ : Renaming} {D : Vars}

theorem Aligned.mono {L' : Register N} (h : L.Aligned ρ D) (hle : L.Le L') : L'.Aligned ρ D where
  old := h.old
  below x hx := (h.below x hx).trans_le hle.limit
  related := by
    rintro _ _ hx @⟨n, n', kind, name, hkind, hpair⟩
    have hn := h.below _ hx
    have hpair := hpair.pairs_of_lt (hn.trans_le hle.limit)
    exact h.related _ _ hx (.mk ⟨hkind, .inl (hle.old n n' hn hpair)⟩)

theorem Aligned.bind (h : L.Aligned ρ D) {x x' : Var} (hx : x.Paired L.standing x')
    (hlt : x.serial < L.limit) : L.Aligned (ρ.bind x' x) (D.and [x]) where
  old y hy := .inr (h.old y hy)
  below y hy := by
    rcases hy with hy | hy
    · rw [List.mem_singleton.mp hy]
      exact hlt
    · exact h.below y hy
  related y y' hy hpair := by
    rw [Renaming.relates_bind]
    by_cases hyx : y = x
    · rw [if_pos ((hpair.eq_iff hx).mp hyx), hyx]
      exact .inr (beq_self_eq_true x)
    · rw [if_neg fun h => hyx ((hpair.eq_iff hx).mpr h)]
      exact h.related y y' (hy.resolve_left fun h => hyx (List.mem_singleton.mp h)) hpair

end Register

/-- Whatever the operation returns is what it is run to. -/
theorem Yields.self {x : Core A} : Yields x s fun a s' => x s = .ok a s' := by
  rintro a _ ⟨r, r', rfl, rfl, hr⟩
  exact hr

theorem Yields.and [Monad m] [Returning m] {x : m A} {P Q : A → Store → Prop} (h : Yields x s P)
    (h' : Yields x s Q) : Yields x s fun a s' => P a s' ∧ Q a s' :=
  fun a s' hrun => ⟨h a s' hrun, h' a s' hrun⟩

theorem Advances.of_le [Monad m] [Returning m] {x : m A} {s' : Store} {P : A → Nat → Prop}
    (h : Advances x s' P) (hle : s.next ≤ s'.next) :
    Yields x s' fun a s'' => s.next ≤ s''.next ∧ P a s''.next :=
  Yields.mono h fun _ _ ha => ⟨hle.trans ha.1, ha.2⟩

theorem Level.le_self (l : Level) : l.le l = .yes := by
  cases l <;> simp [Level.le]

theorem Level.equal_self (l : Level) : l.equal l := by
  cases l <;> simp [Level.equal]

namespace Conversion

variable {N : Nat} {L : Register N} {sig : Signature} {fuel : Nat} {span : Span} {s : Store}

/-- Every answer of the comparison is `true`. -/
abbrev Passes (x : Solver Bool) (s : Store) : Prop := Advances x s fun answer _ => answer = true

theorem passes_both {x y : Solver Bool} (hx : Passes x s)
    (hy : ∀ s₁, s.next ≤ s₁.next → Passes y s₁) : Passes (both x y) s := by
  refine hx.bind fun answer s₁ hle hanswer => ?_
  rw [if_pos hanswer]
  exact hy s₁ hle

theorem advances_headTypeM (ps : Telescope Term) :
    Advances ps.headTypeM s fun a _ => ps.headType = some a := by
  cases ps with
  | nil => exact .throw
  | cons p ps =>
    rw [Telescope.headTypeM, Column.typeM]
    dsimp only
    split
    next type heq => exact .pure heq
    next => exact .throw

/-- Two operations of which the second repeats the first. -/
theorem advances_twins {B : Type} {x x' : Core Term} {f : Term → Term → Solver B}
    {P : B → Nat → Prop} {D : Vars} {Q : Term → Prop} (hs : L.limit ≤ s.next)
    (hnext : Yields x' s fun _ s₁ => s.next ≤ s₁.next)
    (hmirrors : ∀ (s₁ : Store) (hs₁ : L.limit ≤ s₁.next),
      Mirrors (L.pairing hs₁ hs) x x' (Term.Like (L.pairing hs₁ hs)))
    (hx : ∀ s₁ : Store, s.next ≤ s₁.next → Advances x s₁ fun b N => b.Tame N D ∧ Q b)
    (hf : ∀ a b (s' : Store) (L' : Register N), L.Le L' → s.next ≤ s'.next → L'.limit = s'.next →
      L'.Twins b a → b.Tame s'.next D → Q b → Advances (f a b) s' P) :
    Advances (do
      let a ← x'
      let b ← x
      f a b : Solver B) s P := by
  refine Yields.bind (Yields.self.and hnext).liftSolver ?_
  rintro a s₁ ⟨hrun', hle⟩
  refine Yields.bind (Yields.self.and (hx s₁ hle)).liftSolver ?_
  rintro b s₂ ⟨hrun, hle', htame, hQ⟩
  have hs₁ : L.limit ≤ s₁.next := hs.trans hle
  obtain ⟨hlike, k, hk, hk'⟩ := Register.follow hs hs₁ hrun' hrun (hmirrors s₁ hs₁)
  have hpairs {n n' : Nat} (hn : n < s₂.next) (h : L.Next s₁.next s.next n n') :
      (L.grow hs k).pairs n n' := by
    rcases h with h | ⟨j, rfl, rfl⟩
    · exact .inl h
    · exact .inr ⟨j, by omega, by omega, rfl⟩
  have htwins : (L.grow hs k).Twins b a :=
    hlike.narrow htame (fun _ _ _ hn h => ⟨h.1, .inl (hpairs hn h.2)⟩)
      fun _ _ hn h => .inl (hpairs hn h)
  have hle := hle.trans hle'
  exact (hf a b s₂ (L.grow hs k) (Register.le_grow hs k) hle hk'.symm htwins htame hQ).of_le hle

/-- The comparison of subterms does not refuse copies. -/
def PassesTwins (N : Nat) (self : Renaming → Relation → Term → Term → Option Term → Solver Bool) :
    Prop :=
  ∀ {L : Register N} {ρ : Renaming} {D : Vars} {a b : Term} {s : Store} (r : Relation)
    (type : Option Term), L.Aligned ρ D → L.Twins b a → b.Tame L.limit D → L.limit ≤ s.next →
      Passes (self ρ r a b type) s

section Step

variable {self} (hself : PassesTwins N self) {ρ : Renaming} {D : Vars}
variable {as bs : List Term} {ps qs : Telescope Term} {a b : Term}

include hself

section

variable (hρ : L.Aligned ρ D) (h : List.Forall₂ L.Twins bs as) (hbs : ∀ b ∈ bs, b.Tame L.limit D)
  (hs : L.limit ≤ s.next)

include hρ h hbs hs

theorem passes_pairs : Passes (pairs self ρ as bs) s := by
  induction h generalizing s with
  | nil => exact .pure rfl
  | cons hab _ ih =>
    rw [List.forall_mem_cons] at hbs
    rw [pairs]
    refine passes_both (hself .eq none hρ hab hbs.1 hs) fun s₁ hle => ?_
    exact ih hbs.2 (hs.trans hle)

theorem passes_args : Passes (args self ρ as bs) s := by
  rw [args, if_pos h.length_eq.symm]
  exact passes_pairs hself hρ h hbs hs

end

omit hself in
/-- The types of the first parameters. -/
theorem passes_headTypes {f : Term → Term → Solver Bool}
    (h : Telescope.Paired L.standing L.Twins qs ps)
    (hqs : TameAll L.limit (qs.sites D []))
    (hf : ∀ a b (s₁ : Store), s.next ≤ s₁.next → L.Twins b a → b.Tame L.limit D →
      Passes (f a b) s₁) :
    Passes (do
      let a ← ps.headTypeM
      let b ← qs.headTypeM
      f a b : Solver Bool) s := by
  refine (advances_headTypeM ps).liftSolver.bind fun a s₁ hle₁ ha => ?_
  refine (advances_headTypeM qs).liftSolver.bind fun b s₂ hle₂ hb => ?_
  have hrel := Telescope.Paired.headType h
  rw [ha, hb] at hrel
  cases hrel with
  | some hab => exact hf a b s₂ (hle₁.trans hle₂) hab (hqs.headType hb)

variable (r : Relation)

theorem passes_params (hρ : L.Aligned ρ D) (h : Telescope.Paired L.standing L.Twins qs ps)
    (hvars : ∀ x ∈ qs.vars, x.serial < L.limit) (hqs : TameAll L.limit (qs.sites D []))
    (hs : L.limit ≤ s.next) : Passes (params self r ρ ps qs) s := by
  induction h generalizing ρ D s with
  | nil => exact .pure rfl
  | @cons q p qs ps hpair hrest ih =>
    rw [Telescope.vars, List.map_cons, List.forall_mem_cons] at hvars
    rw [params]
    refine passes_headTypes (.cons hpair hrest) hqs fun a b s₁ hle hab hb => ?_
    refine passes_both (hself r none hρ hab hb (hs.trans hle)) fun s₂ hle' => ?_
    exact ih (hρ.bind hpair.var hvars.1) hvars.2 hqs.tail (hs.trans (hle.trans hle'))

theorem passes_firstParam {rest : Renaming → Telescope Term → Telescope Term → Solver Bool}
    (hρ : L.Aligned ρ D) (h : Telescope.Paired L.standing L.Twins qs ps)
    (hvars : ∀ x ∈ qs.vars, x.serial < L.limit)
    (hqs : TameAll L.limit (qs.sites D [])) (hs : L.limit ≤ s.next)
    (hrest : ∀ p q ps' qs' (s₁ : Store), ps = p :: ps' → qs = q :: qs' → s.next ≤ s₁.next →
      Telescope.Paired L.standing L.Twins qs' ps' → L.Aligned (ρ.bind p.var q.var) (D.and [q.var]) →
        Passes (rest (ρ.bind p.var q.var) ps' qs') s₁) :
    Passes (firstParam self ρ ps qs rest) s := by
  cases h with
  | nil => exact .throw
  | @cons q p qs ps hpair htail =>
    rw [Telescope.vars, List.map_cons, List.forall_mem_cons] at hvars
    refine passes_headTypes (.cons hpair htail) hqs fun a b s₁ hle hab hb => ?_
    refine passes_both (hself .eq none hρ hab hb (hs.trans hle)) fun s₂ hle' => ?_
    exact hrest p q ps qs s₂ rfl rfl (hle.trans hle') htail (hρ.bind hpair.var hvars.1)

theorem passes_impls {a b : RecordType Term} (hρ : L.Aligned ρ D)
    (h : b.Paired L.standing L.Twins a) (hb : ∀ e ∈ b.impls, e.2.Tame L.limit D)
    (fs : List FieldName) (hs : L.limit ≤ s.next) : Passes (impls self ρ r a b fs) s := by
  induction fs generalizing s with
  | nil => exact .pure rfl
  | cons f fs ih =>
    have himpl := h.impl? f
    rw [impls]
    cases hib : b.impl? f with
    | none =>
      rw [hib] at himpl
      generalize a.impl? f = oa at himpl ⊢
      cases himpl with
      | none => exact ih hs
    | some ib =>
      have hib' := hb _ (mem_of_lookup hib)
      rw [hib] at himpl
      generalize a.impl? f = oa at himpl ⊢
      cases himpl with
      | some hab =>
        exact passes_both (hself .eq none hρ hab hib' hs) fun s₁ hle => ih (hs.trans hle)

theorem passes_recordTypes {a b : RecordType Term} (hρ : L.Aligned ρ D)
    (h : b.Paired L.standing L.Twins a) (hthis : b.this.serial < L.limit)
    (hb : TameAll L.limit (b.sites D)) (hs : L.limit ≤ s.next) :
    Passes (recordTypes sig self ρ r a b) s := by
  rw [recordTypes, if_pos h.record.symm]
  exact passes_impls hself r (hρ.bind h.this hthis) h (tameAll_record.mp hb) _ hs

/-- Terms under telescopes, whose first parameters are compared at once. -/
theorem passes_abstraction {body body' : Term} {make : Telescope Term → Term → Core Term}
    {node : Telescope Term → Term → Node Term}
    (hmake : ∀ ps body, make ps body =
      if ps.isEmpty then return body else Core.build (node ps body)) (hnode : Node.Abstracts node)
    (hpaired : ∀ {β : Pairing} {ps ps' body body'},
      Telescope.Like β ps ps' → body.Like β body' →
        (node ps body).Like β (node ps' body')) (hρ : L.Aligned ρ D)
    (h : Telescope.Paired L.standing L.Twins qs ps) (hbody : L.Twins body' body)
    (hvars : ∀ x ∈ qs.vars, x.Old L.limit nothing) (hqs : TameAll L.limit (qs.sites D []))
    (hbody' : body'.Tame L.limit (D.and qs.vars)) (hs : L.limit ≤ s.next) :
    Passes (firstParam self ρ ps qs fun ρ ps qs => do
      let x ← make ps body
      let y ← make qs body'
      self ρ r x y none) s := by
  refine passes_firstParam hself hρ h (fun x hx => (hvars x hx).serial) hqs hs ?_
  rintro p q ps qs s₁ rfl rfl hle h hρ
  replace hvars := (List.forall_mem_cons.mp hvars).2
  replace hqs := hqs.tail
  replace hbody' : body'.Tame L.limit ((D.and [q.var]).and (Telescope.vars qs)) :=
    hbody'.mono le_rfl (Vars.and_append_le [q.var])
  have hs₁ : L.limit ≤ s₁.next := hs.trans hle
  refine advances_twins (D := D.and [q.var]) (Q := fun _ => True) hs₁ ?_ (fun s₂ hs₂ => ?_)
    (fun s₂ hle₂ => ?_) ?_
  · rw [hmake]
    split
    · exact .pure le_rfl
    · exact .build (Nat.le_succ _)
  · have hps := (Register.narrows (L := L) (fun t ht => ?_) (fun x hx => ?_) hs₂ hs₁).telescope h
    · rw [hmake, hmake]
      refine Mirrors.ite (by rw [forall₂_isEmpty hps]) (fun _ => ?_) fun _ => ?_
      · exact .pure (hbody.like hbody' hs₂ hs₁)
      · exact mirrors_build (hpaired hps (hbody.like hbody' hs₂ hs₁))
    · obtain ⟨E, hE⟩ := Telescope.site_of_part ht
      exact ⟨E, hqs E t hE⟩
    · exact (hvars x (Telescope.binder_mem_parts.mp hx)).serial
  · have hle₂ := hs₁.trans hle₂
    rw [hmake]
    split
    next hempty =>
      refine .pure ⟨(hbody'.later hle₂).mono le_rfl fun x _ hx => ?_, trivial⟩
      rw [List.isEmpty_iff.mp hempty] at hx
      exact hx.resolve_left List.not_mem_nil
    next =>
      refine (Traversal.tames_abstract hnode (hqs.later hle₂) (fun x hx => ?_)
        (hbody'.later hle₂)).mono fun _ _ _ hb => ⟨hb, trivial⟩
      exact (hvars x hx).later hle₂
  · intro a b s' L' hle' hnext hlimit hab hb _
    exact hself r none (hρ.mono hle') hab (hlimit ▸ hb) hlimit.le

omit hself in
theorem passes_compareSorts (sort : USort) : Passes (Solver.compareSorts span r sort sort) s := by
  unfold Solver.compareSorts
  generalize (fun r a b => Solver.addLevelEquation ⟨a, b, r, span⟩) = undecided
  have hlevel (r : Relation) (l : Level) : ∀ {s}, Passes (Level.compareWith undecided r l l) s := by
    intro s
    cases r with
    | le | ge =>
      rw [Level.compareWith, Level.compareWith.leWith, Level.le_self]
      exact .pure rfl
    | eq =>
      rw [Level.compareWith, if_pos l.equal_self]
      exact .pure rfl
    | other code => exact .throw
  have hlevels (r : Relation) : Passes (USort.compareWith.levelsWith undecided r sort sort) s := by
    rw [USort.compareWith.levelsWith]
    refine (hlevel r sort.p).bind fun answer s₁ _ hanswer => ?_
    rw [if_pos hanswer]
    exact hlevel r sort.h
  cases r with
  | le | ge =>
    rw [USort.compareWith, USort.compareWith.leWith]
    split
    · exact .pure rfl
    · exact hlevels .le
  | eq =>
    rw [USort.compareWith]
    split
    · exact .pure rfl
    · exact hlevels .eq
  | other code => exact hlevels _

/-- Two terms in weak-head normal form, the one a copy of the other. -/
theorem passes_heads (type : Option Term) (hρ : L.Aligned ρ D) (hab : L.Twins b a)
    (hb : b.Tame L.limit D) (htyped : ∀ u v, b.node ≠ .ofType u v) (hhole : isHole b = false)
    (hs : L.limit ≤ s.next) : Passes (heads sig fuel span self ρ r a b type) s := by
  have hform := hb.form
  have hscope := hb.scope
  have hbinders := hb.binders
  obtain ⟨-, hnode⟩ := hab.destruct
  have hsites := hb.sites
  rw [heads]
  cases hnode with
  | case => cases hform
  | ofType => exact absurd rfl (htyped _ _)
  | hole => cases hhole
  | lam sort hps hbody =>
    obtain ⟨hqs, hbody'⟩ := tameAll_append.mp hsites
    refine passes_abstraction hself .eq (fun _ _ => rfl) (.lam sort) (fun h h' => .lam sort h h') hρ
      hps hbody (fun x hx => hbinders x ?_) hqs (tameAll_cons.mp hbody').1 hs
    exact List.mem_append_left _ (Telescope.binder_mem_parts.mpr hx)
  | tuple sort hfields _ _ =>
    exact passes_args hself hρ hfields (tameAll_map.mp (tameAll_append.mp hsites).1) hs
  | new _ _ hr =>
    refine passes_recordTypes hself .eq hρ hr (hbinders _ ?_).serial (tameAll_append.mp hsites).2 hs
    exact List.mem_append_right _ (.head _)
  | ref hx =>
    refine .pure ?_
    obtain ⟨hD, -⟩ := hscope _ (.head _)
    rcases hρ.related _ _ hD hx with rfl | h
    · simp
    · simp [h]
  | app hfn harg =>
    obtain ⟨hfn', harg'⟩ := tameAll_cons.mp hsites
    refine passes_both (hself .eq none hρ hfn hfn' hs) fun s₁ hle => ?_
    exact hself .eq none hρ harg (tameAll_cons.mp harg').1 (hs.trans hle)
  | call f sort hargs =>
    dsimp only [Term.node]
    rw [if_pos rfl]
    exact passes_args hself hρ hargs (tameAll_map.mp hsites) hs
  | con c sort hdata hargs =>
    dsimp only [Term.node]
    rw [if_pos rfl]
    exact passes_args hself hρ hargs (tameAll_map.mp (tameAll_append.mp hsites).2) hs
  | data d sort hargs =>
    dsimp only [Term.node]
    rw [if_pos rfl]
    exact passes_args hself hρ hargs (tameAll_map.mp hsites) hs
  | field f sort harg =>
    dsimp only [Term.node]
    rw [if_pos rfl]
    exact hself .eq none hρ harg (tameAll_cons.mp hsites).1 hs
  | record hr =>
    exact passes_recordTypes hself r hρ hr (hbinders _ (.head _)).serial hsites hs
  | pi sort hps hcodomain =>
    obtain ⟨hqs, hcodomain'⟩ := tameAll_append.mp hsites
    refine passes_abstraction hself r (fun _ _ => rfl) (.pi sort) (fun h h' => .pi sort h h') hρ
      hps hcodomain (fun x hx => hbinders x ?_) hqs (tameAll_cons.mp hcodomain').1 hs
    exact List.mem_append_left _ (Telescope.binder_mem_parts.mpr hx)
  | sigma sort hps =>
    refine passes_params hself r hρ hps (fun x hx => (hbinders x ?_).serial) hsites hs
    exact Telescope.binder_mem_parts.mpr hx
  | proj ht index =>
    dsimp only [Term.node]
    rw [if_pos rfl]
    exact hself .eq none hρ ht (tameAll_cons.mp hsites).1 hs
  | univ sort =>
    dsimp only [Term.node]
    split
    · exact .pure rfl
    · exact passes_compareSorts r sort
  | int m => exact .pure (beq_self_eq_true m)

omit hself in
/-- No unknown is involved. -/
theorem advances_unknowns (type : Option Term) (hsig : sig.Plain (Var.Old N nothing) (· < N))
    (hab : L.Twins b a) (hb : b.Tame L.limit D) (hs : L.limit ≤ s.next) :
    Advances (unknowns sig fuel span ρ r a b type) s fun o _ => o = none := by
  have hnext : Yields (a.isWhnf sig fuel) s fun _ s₁ => s.next ≤ s₁.next :=
    (Yields.of_keeps ((next_solverInvariant sig s.next).isWhnf (Region.signature_unrestricted sig) fuel
      (Region.within_unrestricted a)) le_rfl).mono fun _ _ h => h.1
  refine Yields.bind (Yields.self.and hnext).liftSolver ?_
  rintro da s₁ ⟨hrun', hle⟩
  have hs₁ := hs.trans hle
  refine Yields.bind Yields.self.liftSolver ?_
  rintro db s₂ hrun
  obtain ⟨⟨rfl, hdb⟩, k, -, hk⟩ := Register.follow hs hs₁ hrun' hrun
    (mirrors_isWhnf (L.steady_pairing hsig hs₁ hs) le_rfl (hab.like hb hs₁ hs))
  rw [if_pos (by simp [hdb])]
  exact .pure ⟨by omega, rfl⟩

variable (hsig : sig.Plain (Var.Old N nothing) (· < N)) (hbodies : sig.TameBodies N)

include hsig hbodies in
/-- A term and a copy of it. -/
theorem passes_step (r : Relation) (type : Option Term) (hρ : L.Aligned ρ D) (hab : L.Twins b a)
    (hb : b.Tame L.limit D) (hs : L.limit ≤ s.next) :
    Passes (step sig fuel span self ρ r a b type) s := by
  have hN : N ≤ s.next := L.le_limit.trans hs
  rw [step]
  split
  · exact .pure rfl
  refine advances_twins (D := D) (Q := fun b => ∀ u v, b.node ≠ .ofType u v) hs ?_
    (fun s₁ hs₁ => ?_) (fun s₁ hle => ?_) ?_
  · exact (Yields.of_keeps ((next_solverInvariant sig s.next).whnf (Region.signature_unrestricted sig)
      fuel (Region.within_unrestricted a)) le_rfl).mono fun _ _ h => h.1
  · exact mirrors_whnf (L.steady_pairing hsig hs₁ hs) le_rfl (hab.like hb hs₁ hs)
  · have hle' := hs.trans hle
    refine ((tames_whnf hbodies hρ.old fuel (hN.trans hle) (hb.later hle')).and
      (yields_whnf_ne_ofType fuel)).mono ?_
    rintro b' s₂ ⟨⟨hle₂, hb'⟩, htyped⟩
    exact ⟨hle₂, hb', htyped⟩
  · intro a b s' L' hle hnext hlimit hab hb htyped
    rw [← hlimit] at hb
    have hs' := hlimit.le
    split
    · exact .pure rfl
    next hne =>
      simp only [Bool.or_eq_true, not_or, Bool.not_eq_true] at hne
      refine (advances_unknowns r type hsig hab hb hs').bind fun o s₁ hle' ho => ?_
      subst ho
      exact passes_heads hself r type (hρ.mono hle) hab hb htyped hne.2 (hs'.trans hle')

end Step

/-- Copies of tame terms are never refused. -/
theorem passesTwins_run (hsig : sig.Plain (Var.Old N nothing) (· < N)) (hbodies : sig.TameBodies N)
    (fuel : Nat) : PassesTwins N (run sig span fuel) := by
  induction fuel with
  | zero =>
    intro L ρ D a b s r type _ _ _ _
    exact .throw
  | succ fuel ih =>
    intro L ρ D a b s r type hρ hab hb hs
    exact passes_step ih hsig hbodies r type hρ hab hb hs

end Conversion

end Recheck
