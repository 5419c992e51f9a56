import Recheck.Proofs.Alignment
import Recheck.Proofs.Traits

/-!
# Recheck — terms that compare as equal are convertible

`compare_convertible` says that a comparison of two terms of the function fragment does not
identify too much: if the answer is true, then the curried readings of the terms are equal up
to beta and eta.

References are compared by the variable that they refer to before the binders on the way are
consulted, and a node is equal to itself whatever scope it is in. So what both terms bind they
have to bind in the same places. `SharedBinder` has a case in which they do, and cases in which
they do not and in which the answer is wrong. Nor does the answer stay the same if the sides are
exchanged (`SharedBinder.expansion_asymmetric`).
-/

namespace Recheck

open Curried (Env Red Rel Conv Trait)

namespace Currying

variable {sig : Signature} {H : Heap} {s : Store} {R : Range}
variable {t a b : Term} {n m : Curried} {fuel : Nat} {R' : Range} {ρ : Renaming} {e e' : Env}

/-! ## Weak-head normal forms -/

theorem Makes.start (h : Curries H R (.term t) n) :
    Makes H s R n (.term t) s := ⟨H, n, .refl, h.mono Range.le_grow, .refl _⟩

/-- What is made out of what has been made. -/
theorem Makes.trans {H₁ : Heap} {s₁ s₂ : Store} {m₁ : Curried} {p : Phrase}
    (hgrown : Grown H s H₁ s₁) (hred : Red m m₁) (h : Makes H₁ s₁ (R.grow s.next s₁.next) m₁ p s₂) :
    Makes H s R m p s₂ := by
  obtain ⟨H₂, n, hgrown', hn, hred'⟩ := h
  refine ⟨H₂, n, hgrown.trans hgrown', ?_, hred.trans hred'⟩
  exact hn.mono (Range.grow_grow_le hgrown.next hgrown'.next)

/-- A step at the head of an application, if there is one. -/
theorem yields_applicationStep {self : Term → Core Term} {stamp : Nat} {fn arg : Term}
    {f a : Curried} (hH : H.Below s.next) (hR : R.Below s.next)
    (hself : ∀ {t n}, Curries H R (.term t) n →
      Yields (self t) s fun u s' => Makes H s R n (.term u) s')
    (hf : Curries H R (.term fn) f) (ha : Curries H R (.term arg) a) :
    Yields (Reduction.step sig fuel self (.mk stamp (.app fn arg))) s fun o s' =>
      s.next ≤ s'.next ∧ ∀ u, o = some u → Makes H s R (.app f a) (.term u) s' := by
  refine Yields.bind (hself hf) ?_
  rintro head s₁ ⟨H₁, f', hgrown, hhead, hred⟩
  have ha₁ : Curries H₁ (R.grow s.next s₁.next) (.term arg) a :=
    (ha.grown hgrown).mono Range.le_grow
  have hH₁ := hgrown.below hH
  have happ : Red (.app f a) (.app f' a) := .pair .app hred (.refl _)
  have hrebuilt : Yields (Reduction.rebuilt fn head (.app head arg)) s₁ fun o s' =>
      s.next ≤ s'.next ∧ ∀ u, o = some u → Makes H s R (.app f a) (.term u) s' := by
    unfold Reduction.rebuilt
    split
    · exact .pure ⟨hgrown.next, by simp⟩
    · refine Yields.bind (yields_node (.app f' a) hH₁ (Q := fun t s' =>
        Makes H s R (.app f a) (.term t) s') ?_) ?_
      · intro H₂ stamp' hgrown₂ hstamp'
        refine Makes.trans hgrown happ ⟨H₂, .app f' a, hgrown₂, ?_, .refl _⟩
        exact (Curries.app (hhead.grown hgrown₂) (ha₁.grown hgrown₂) hstamp').mono Range.le_grow
      · intro t s₂ ht
        obtain ⟨H₂, n, hgrown₂, hn, hred₂⟩ := ht
        refine .pure ⟨hgrown₂.next, fun u hu => ?_⟩
        cases hu
        exact ⟨H₂, n, hgrown₂, hn, hred₂⟩
  cases hhead with
  | lam hps h hstamp =>
    refine Yields.bind (yields_makeApp (copies_traverse sig fuel) hH₁ (hR.grow hgrown.next)
      (.lam hps h hstamp) ha₁) ?_
    intro t s₂ ht
    have ht := Makes.trans hgrown happ ht
    obtain ⟨H₂, n, hgrown₂, hn, hred₂⟩ := ht
    refine .pure ⟨hgrown₂.next, fun u hu => ?_⟩
    cases hu
    exact ⟨H₂, n, hgrown₂, hn, hred₂⟩
  | _ => exact hrebuilt

/-- A term reduces to its weak-head normal form, by induction on the depth. -/
theorem yields_whnf (fuel : Nat) (hH : H.Below s.next) (hR : R.Below s.next)
    (ht : Curries H R (.term t) n) :
    Yields (t.whnf sig fuel) s fun u s' => Makes H s R n (.term u) s' := by
  induction fuel generalizing H s R t n with
  | zero => exact .throw
  | succ fuel ih =>
    rw [Term.whnf]
    cases ht with
    | @ref _ stamp x hx hkind hstamp =>
      refine Yields.bind (P := fun o s₁ => o = none ∧ s₁ = s) ?_ ?_
      · unfold Reduction.step
        dsimp only [Term.node]
        rw [if_neg hkind]
        exact .pure ⟨rfl, rfl⟩
      · rintro _ _ ⟨rfl, rfl⟩
        exact .pure (Makes.start (.ref hx hkind hstamp))
    | app hf ha hstamp =>
      refine Yields.bind (yields_applicationStep hH hR (fun ht => ih hH hR ht) hf ha) ?_
      intro o s₁ ho
      cases o with
      | none =>
        have hskip : Grown H s H s₁ := .skip ho.1
        exact .pure ⟨H, _, hskip, (Curries.app hf ha hstamp).mono Range.le_grow, .refl _⟩
      | some u =>
        obtain ⟨H₁, n₁, hgrown, hu, hred⟩ := ho.2 u rfl
        refine (ih (hgrown.below hH) (hR.grow hgrown.next) hu).mono fun v s₂ hv => ?_
        exact Makes.trans hgrown hred hv
    | univ hstamp => exact .pure (Makes.start (.univ hstamp))
    | con h hstamp => exact .pure (Makes.start (.con h hstamp))
    | data h hstamp => exact .pure (Makes.start (.data h hstamp))
    | lam hps h hstamp => exact .pure (Makes.start (.lam hps h hstamp))
    | pi hps h hstamp => exact .pure (Makes.start (.pi hps h hstamp))
    | sigma h hstamp => exact .pure (Makes.start (.sigma h hstamp))

theorem yields_underlying (fuel : Nat) (ht : Curries H R (.term t) n) :
    Yields (t.underlying sig fuel) s fun u s' => u = t ∧ s' = s := by
  cases fuel with
  | zero => exact .throw
  | succ fuel => cases ht <;> exact .pure ⟨rfl, rfl⟩

/-- No unknown blocks a term of the fragment. -/
theorem yields_status (fuel : Nat) (ht : Curries H R (.term t) n) :
    Yields (t.status sig fuel) s fun d s' => d.1 ≠ .maybe ∧ s' = s := by
  induction fuel generalizing t n with
  | zero => exact .throw
  | succ fuel ih =>
    cases ht with
    | ref hx hkind hstamp =>
      refine .pure ⟨?_, rfl⟩
      rw [if_neg hkind]
      simp
    | app hf ha hstamp =>
      refine Yields.bind (yields_underlying fuel hf) ?_
      rintro _ _ ⟨rfl, rfl⟩
      have hfn := ih hf
      cases hf with
      | lam => exact .pure ⟨by simp, rfl⟩
      | _ => exact hfn
    | _ => exact .pure ⟨by simp, rfl⟩

theorem isHole_eq_false (ht : Curries H R (.term t) n) : Conversion.isHole t = false := by
  cases ht <;> rfl

theorem yields_unknowns (fuel : Nat) (span : Span) (ρ : Renaming) (r : Relation)
    (type : Option Term) (ha : Curries H R (.term a) m) (hb : Curries H R' (.term b) n) :
    Yields (Conversion.unknowns sig fuel span ρ r a b type) s fun o s' => o = none ∧ s' = s := by
  have hstatus : ∀ {R t n}, Curries H R (.term t) n →
      Yields (t.isWhnf sig fuel) s fun d s' => d ≠ .maybe ∧ s' = s := fun ht =>
    Yields.bind (yields_status fuel ht) fun d s' hd => .pure hd
  refine Yields.bind (hstatus ha).liftSolver ?_
  rintro da _ ⟨hda, rfl⟩
  refine Yields.bind (hstatus hb).liftSolver ?_
  rintro db _ ⟨hdb, rfl⟩
  have hcond : (decide (da ≠ .maybe) && decide (db ≠ .maybe)) = true := by simp [hda, hdb]
  rw [if_pos hcond]
  exact .pure ⟨rfl, rfl⟩

/-! ## Comparison -/

/-- An answer of true says that the readings are equal up to beta and eta, each in its own
environment. -/
def Sound (H : Heap) (s : Store) (e e' : Env) (m n : Curried) (answer : Bool) (s' : Store) : Prop :=
  ∃ H', Grown H s H' s' ∧ (answer = true → Conv (m.subst e) (n.subst e'))

namespace Sound

variable {H₁ : Heap} {s₁ s' : Store} {e e' : Env} {m n m₁ n₁ : Curried} {answer : Bool}

theorem no : Sound H s e e' m n false s := ⟨H, .refl, fun h => by cases h⟩

theorem of_eq (h : m.subst e = n.subst e') : Sound H s e e' m n answer s :=
  ⟨H, .refl, fun _ => Rel.of_eq h⟩

/-- An answer for parts, or for reducts, is an answer for the whole. -/
theorem lift (hgrown : Grown H s H₁ s₁) {f f' : Env}
    (hconv : Conv (m₁.subst f) (n₁.subst f') → Conv (m.subst e) (n.subst e'))
    (h : Sound H₁ s₁ f f' m₁ n₁ answer s') : Sound H s e e' m n answer s' := by
  obtain ⟨H', hgrown', h⟩ := h
  exact ⟨H', hgrown.trans hgrown', fun heq => hconv (h heq)⟩

theorem false_of (h : Sound H s e e' m₁ n₁ false s') : Sound H s e e' m n false s' := by
  obtain ⟨H', hgrown, -⟩ := h
  exact ⟨H', hgrown, fun h => by cases h⟩

protected theorem symm (h : Sound H s e' e n m answer s') : Sound H s e e' m n answer s' := by
  obtain ⟨H', hgrown, h⟩ := h
  exact ⟨H', hgrown, fun heq => (h heq).symm rfl⟩

end Sound

/-- The recursive call of a comparison does not identify too much. -/
def Compares (self : Renaming → Relation → Term → Term → Option Term → Solver Bool) : Prop :=
  ∀ {H s ρ R R' e e' a b m n}, H.Below s.next → Matched s.next ρ R R' e e' →
    Aligned H R R' (.term a) (.term b) m n →
    ∀ type, Yields (self ρ .eq a b type) s (Sound H s e e' m n)

theorem yields_headTypeM {ps : Telescope Term} :
    Yields ps.headTypeM s fun type s' => ps.headType = some type ∧ s' = s := by
  cases ps with
  | nil => exact .throw
  | cons p ps =>
    rw [Telescope.headTypeM, Column.typeM]
    cases htype : Telescope.headType (p :: ps) with
    | none => exact .throw
    | some type => exact .pure ⟨rfl, rfl⟩

section Rest

variable {sort : USort} {ps : Telescope Term}

-- Functions or function types.
variable {k : Curried.Binding} (node : USort → Telescope Term → Term → Node Term)
variable (hread : ∀ {H R stamp sort ps body m}, ps ≠ [] → Curries H R (.tele k ps (some body)) m →
  H stamp = some m → Curries H R (.term (.mk stamp (node sort ps body))) m)

include hread

/-- What is behind the first parameters, which is the body if these were all. -/
theorem yields_rest {body : Term} (hH : H.Below s.next)
    (h : Curries H R (.tele k ps (some body)) m) :
    Yields (if ps.isEmpty then pure body else Core.build (node sort ps body) : Core Term) s
      fun t s' => ∃ H', Grown H s H' s' ∧ Curries H' R (.term t) m ∧
        (ps ≠ [] → ∃ stamp, t = .mk stamp (node sort ps body)) := by
  cases ps with
  | nil =>
    cases h with
    | inner h => exact .pure ⟨H, .refl, h, fun hne => absurd rfl hne⟩
  | cons p ps =>
    refine yields_node m hH fun H' stamp hgrown hstamp => ?_
    exact ⟨H', hgrown, hread (by simp) (h.grown hgrown) hstamp, fun _ => ⟨stamp, rfl⟩⟩

end Rest

section Heads

variable {fuel : Nat} {span : Span} {ρ : Renaming} {R' : Range} {e e' : Env}
variable {self} (hself : Compares self)
variable {k : Curried.Binding} {ps qs : Telescope Term} {ts us : List Term} {sort sort' : USort}

variable (hH : H.Below s.next) (hmatched : Matched s.next ρ R R' e e')

include hself hH hmatched

/-- The types of two parameters, and then what is in their scopes. -/
theorem yields_param {p q : Param Term} {a b : Option Term} {rest : Renaming → Solver Bool}
    (h : Aligned H R R' (.tele k (p :: ps) a) (.tele k (q :: qs) b) m n)
    (hrest : ∀ {H s ρ R R' e e' l l'}, H.Below s.next → Matched s.next ρ R R' e e' →
      Aligned H R R' (.tele k ps a) (.tele k qs b) l l' →
      Yields (rest ρ) s (Sound H s e e' l l')) :
    Yields (do
      let type ← Telescope.headTypeM (p :: ps)
      let type' ← Telescope.headTypeM (q :: qs)
      Conversion.both (self ρ .eq type type' none) (rest (ρ.bind p.var q.var)) : Solver Bool) s
      (Sound H s e e' m n) := by
  obtain ⟨S, S', d, d', l, l', rfl, rfl, hS, hS', hxy, htypes, hscope⟩ := h.param_inv
  have hmatched := hmatched.narrow hS hS'
  refine Yields.bind yields_headTypeM.liftSolver ?_
  rintro type _ ⟨htype, rfl⟩
  refine Yields.bind yields_headTypeM.liftSolver ?_
  rintro type' _ ⟨htype', rfl⟩
  have htypes := htypes type type' htype htype'
  refine Conversion.yields_both (hself hH hmatched htypes none) ?_ fun _ => Sound.false_of
  rintro s₁ ⟨H₁, hgrown, hconv⟩
  have hmatched₁ := (hmatched.mono hgrown.next).under hxy
  refine (hrest (hgrown.below hH) hmatched₁ (hscope.grown hgrown)).mono fun answer s₂ => ?_
  refine Sound.lift hgrown fun hconv' => ?_
  rw [Curried.subst_behind, Curried.subst_behind] at hconv'
  exact .bind k (hconv rfl) hconv'

/-- Functions, or function types. -/
theorem yields_firstParam {rest : Renaming → Telescope Term → Telescope Term → Solver Bool}
    (h : Aligned H R R' (.tele k ps (some a)) (.tele k qs (some b)) m n)
    (hrest : ∀ {H s ρ R R' e e' ps qs l l'}, H.Below s.next → Matched s.next ρ R R' e e' →
      Aligned H R R' (.tele k ps (some a)) (.tele k qs (some b)) l l' →
      Yields (rest ρ ps qs) s (Sound H s e e' l l')) :
    Yields (Conversion.firstParam self ρ ps qs rest) s (Sound H s e e' m n) := by
  cases ps with
  | nil => exact .throw
  | cons p ps =>
    cases qs with
    | nil => exact .throw
    | cons q qs => exact yields_param hself hH hmatched h hrest

/-- Tuple types, by induction on the parameters. -/
theorem yields_params_sigma (h : Aligned H R R' (.tele .sigma ps none) (.tele .sigma qs none) m n) :
    Yields (Conversion.params self .eq ρ ps qs) s (Sound H s e e' m n) := by
  induction ps generalizing H s ρ R R' e e' qs m n with
  | nil =>
    cases qs with
    | nil =>
      cases h.left
      cases h.right
      exact .pure (Sound.of_eq rfl)
    | cons q qs => exact .pure Sound.no
  | cons p ps ih =>
    cases qs with
    | nil => exact .pure Sound.no
    | cons q qs => exact yields_param hself hH hmatched h fun hH hmatched h => ih hH hmatched h

/-- Arguments one by one. -/
theorem yields_pairs (hlen : ts.length = us.length) (h : Aligned H R R' (.args ts) (.args us) m n) :
    Yields (Conversion.pairs self ρ ts us) s (Sound H s e e' m n) := by
  induction ts generalizing H s us m n with
  | nil =>
    cases us with
    | nil =>
      cases h.left
      cases h.right
      exact .pure (Sound.of_eq rfl)
    | cons u us => cases hlen
  | cons t ts ih =>
    cases us with
    | nil => cases hlen
    | cons u us =>
      obtain ⟨l, l', k, k', rfl, rfl, ht, hts⟩ := h.cons_inv
      refine Conversion.yields_both (hself hH hmatched ht none) ?_ fun _ => Sound.false_of
      rintro s₁ ⟨H₁, hgrown, hconv⟩
      have hlen : ts.length = us.length := Nat.succ.inj hlen
      refine (ih (hgrown.below hH) (hmatched.mono hgrown.next) hlen (hts.grown hgrown)).mono ?_
      exact fun answer s₂ => Sound.lift hgrown fun hconv' => .pair .cons (hconv rfl) hconv'

/-- Atoms of one kind with their arguments. -/
theorem yields_atoms {A : Type} [DecidableEq A] {c d : A} (atom : A → Curried.Atom)
    (h : Aligned H R R' (.args ts) (.args us) m n) :
    Yields (if c = d then Conversion.args self ρ ts us else pure false : Solver Bool) s
      (Sound H s e e' (.node (atom c) m) (.node (atom d) n)) := by
  by_cases hcd : c = d
  · subst hcd
    rw [if_pos rfl, Conversion.args]
    by_cases hlen : ts.length = us.length
    · rw [if_pos hlen]
      refine (yields_pairs hself hH hmatched hlen h).mono fun answer s' => ?_
      exact Sound.lift .refl fun hconv => .pair .node (.refl _) hconv
    · rw [if_neg hlen]
      exact .pure Sound.no
  · rw [if_neg hcd]
    exact .pure Sound.no

/-- A function against another term. -/
theorem yields_eta {body : Term} (hapart : R.Apart R')
    (h : Curries H R (.tele .lam ps (some body)) m)
    (ht : Curries H R' (.term t) n) :
    Yields (Conversion.eta sig fuel self ρ sort ps body t) s (Sound H s e e' m n) := by
  cases ps with
  | nil => exact .throw
  | cons p ps =>
    obtain ⟨d, l, rfl, hx, hkind, hscope, -⟩ := h.cons_inv
    have hmatched := hmatched.applied hx
    have hapart' := hapart.under_same p.var
    have hshift := Curried.subst_behind_eq_shift e' ht.overFree (hapart.left _ hx).1
    have ht := ht.mono (Range.le_under (hapart.left _ hx).2)
    -- The reference to the parameter.
    refine Yields.bind (yields_node (.free p.var) hH (Q := fun ref s₁ => ∃ H₁, Grown H s H₁ s₁ ∧
      Curries H₁ (R'.under p.var) (.term ref) (.free p.var)) ?_).liftSolver ?_
    · exact fun H₁ stamp hgrown hstamp => ⟨H₁, hgrown, .ref (.inl rfl) hkind hstamp⟩
    rintro ref s₁ ⟨H₁, hgrown₁, href⟩
    have hH₁ := hgrown₁.below hH
    have hmatched₁ := hmatched.mono hgrown₁.next
    -- The application.
    refine Yields.bind (yields_makeApp (copies_traverse sig fuel) hH₁ hmatched₁.below'
      (ht.grown hgrown₁) href).liftSolver ?_
    rintro app s₂ ⟨H₂, n₂, hgrown₂, happ, hred⟩
    have hmatched₂ := (hmatched₁.symm.grow hgrown₂.next).symm
    have hapart₂ := (hapart'.symm.grow hmatched₁.below s₂.next).symm
    -- The rest of the function.
    have hgrown := hgrown₁.trans hgrown₂
    refine Yields.bind (yields_rest .lam .lam (hgrown.below hH) (hscope.grown hgrown)).liftSolver ?_
    rintro rest s₃ ⟨H₃, hgrown₃, hrest, -⟩
    have hgrown' := hgrown.trans hgrown₃
    refine (hself (hgrown'.below hH) (hmatched₂.mono hgrown₃.next)
      (.apart .refl .refl hapart₂ hrest (happ.grown hgrown₃)) none).mono fun answer s₄ => ?_
    refine Sound.lift hgrown' fun hconv => ?_
    have hbody : Conv (l.subst (e.behind p.var)) (.app (n.subst e').shift (.bound 0)) := by
      have hred' := (hred.conv.subst (e'.behind p.var)).symm rfl
      have happly : (Curried.app n (.free p.var)).subst (e'.behind p.var) =
          .app (n.subst e').shift (.bound 0) := by
        rw [Curried.subst, Curried.subst, e'.behind_self, hshift]
      rw [happly] at hred'
      exact hconv.trans hred'
    rw [Curried.subst_behind] at hbody
    exact (Rel.bind .lam (.refl (d.subst e)) hbody).trans (.eta rfl _ _)

section Functions

variable (node : USort → Telescope Term → Term → Node Term)
variable (hread : ∀ {H R stamp sort ps body m}, ps ≠ [] → Curries H R (.tele k ps (some body)) m →
  H stamp = some m → Curries H R (.term (.mk stamp (node sort ps body))) m)
variable (halign : ∀ {H R R' i j sort sort' ps qs a b m n},
  Curries H R (.term (.mk i (node sort ps a))) m →
  Curries H R' (.term (.mk j (node sort' qs b))) n →
  Aligned H R R' (.tele k ps (some a)) (.tele k qs (some b)) m n →
  Aligned H R R' (.term (.mk i (node sort ps a))) (.term (.mk j (node sort' qs b))) m n)
variable (h : Aligned H R R' (.tele k ps (some a)) (.tele k qs (some b)) m n)

include hread halign h

/-- Compares what is behind the first parameters. -/
theorem yields_rests :
    Yields (do
      let x ← (if ps.isEmpty then pure a else Core.build (node sort ps a) : Core Term)
      let y ← (if qs.isEmpty then pure b else Core.build (node sort' qs b) : Core Term)
      self ρ .eq x y none : Solver Bool) s (Sound H s e e' m n) := by
  have hcompare : ∀ {H₂ s₂ x y}, Grown H s H₂ s₂ → Aligned H₂ R R' (.term x) (.term y) m n →
      Yields (self ρ .eq x y none) s₂ (Sound H s e e' m n) := by
    intro H₂ s₂ x y hgrown hxy
    refine (hself (hgrown.below hH) (hmatched.mono hgrown.next) hxy none).mono ?_
    exact fun answer s' => Sound.lift hgrown id
  cases h with
  | inner h => exact hcompare .refl h
  | apart hS hS' hapart hp hq =>
    refine Yields.bind (yields_rest node hread hH hp).liftSolver ?_
    rintro x s₁ ⟨H₁, hgrown₁, hx, -⟩
    refine Yields.bind
      (yields_rest node hread (hgrown₁.below hH) (hq.grown hgrown₁)).liftSolver ?_
    rintro y s₂ ⟨H₂, hgrown₂, hy, -⟩
    exact hcompare (hgrown₁.trans hgrown₂) (.apart hS hS' hapart (hx.grown hgrown₂) hy)
  | param hxy hp hq htypes h =>
    refine Yields.bind (yields_rest node hread hH hp).liftSolver ?_
    rintro x s₁ ⟨H₁, hgrown₁, hx, hnode⟩
    refine Yields.bind
      (yields_rest node hread (hgrown₁.below hH) (hq.grown hgrown₁)).liftSolver ?_
    rintro y s₂ ⟨H₂, hgrown₂, hy, hnode'⟩
    have hgrown := hgrown₁.trans hgrown₂
    obtain ⟨i, rfl⟩ := hnode (by simp)
    obtain ⟨j, rfl⟩ := hnode' (by simp)
    have h := (Aligned.param hxy hp hq htypes h).grown hgrown
    exact hcompare hgrown (halign (hx.grown hgrown₂) hy h)

/-- Two functions, or two function types. -/
theorem yields_functions :
    Yields (Conversion.firstParam self ρ ps qs fun ρ ps qs => do
      let x ← (if ps.isEmpty then pure a else Core.build (node sort ps a) : Core Term)
      let y ← (if qs.isEmpty then pure b else Core.build (node sort' qs b) : Core Term)
      self ρ .eq x y none) s (Sound H s e e' m n) :=
  yields_firstParam hself hH hmatched h fun hH hmatched h =>
    yields_rests hself hH hmatched node hread halign h

end Functions

theorem yields_sigmas {c d : SigmaType Term}
    (h : Aligned H R R' (.tele .sigma c.params none) (.tele .sigma d.params none) m n) :
    Yields (Conversion.params self .eq ρ c.params d.params) s
      (Sound H s e e' (.node .sigma m) (.node .sigma n)) := by
  refine (yields_params_sigma hself hH hmatched h).mono fun answer s' => ?_
  exact Sound.lift .refl fun hconv => .pair .node (.refl _) hconv

theorem yields_apps {f g u v : Term} {m' n' : Curried}
    (hf : Aligned H R R' (.term f) (.term g) m n) (hu : Aligned H R R' (.term u) (.term v) m' n') :
    Yields (Conversion.both (self ρ .eq f g none) (self ρ .eq u v none)) s
      (Sound H s e e' (.app m m') (.app n n')) := by
  refine Conversion.yields_both (hself hH hmatched hf none) ?_ fun _ => Sound.false_of
  rintro s₁ ⟨H₁, hgrown, hconv⟩
  refine (hself (hgrown.below hH) (hmatched.mono hgrown.next) (hu.grown hgrown) none).mono ?_
  exact fun answer s₂ => Sound.lift hgrown fun hconv' => .pair .app (hconv rfl) hconv'

omit hself hH hmatched in
/-- All universes read alike. -/
theorem yields_univs {r : Relation} :
    Yields (if sort'.isOmega && r = .le then pure true else Solver.compareSorts span r sort sort' :
      Solver Bool) s (Sound H s e e' (.atom .univ) (.atom .univ)) := by
  split
  · exact .pure (Sound.of_eq rfl)
  · have hkeeps : Keeps (OnStore fun s' => s.next ≤ s'.next) (Solver.compareSorts span r sort sort')
        fun _ => True :=
      Solver.keeps_compareSorts (next_solverInvariant Prelude.signature _).toLevelInvariant
        span r _ _
    refine (Yields.of_keeps hkeeps le_rfl).mono fun answer s' h => ?_
    exact ⟨H, .skip h.1, fun _ => .refl _⟩

/-- Two terms that have been reduced and are apart. The heads decide, and a function is
compared with another term by eta. -/
theorem yields_heads_apart (type : Option Term) (hapart : R.Apart R')
    (ha : Curries H R (.term a) m) (hb : Curries H R' (.term b) n) :
    Yields (Conversion.heads sig fuel span self ρ .eq a b type) s (Sound H s e e' m n) := by
  have haligned : ∀ {p q m n}, Curries H R p m → Curries H R' q n → Aligned H R R' p q m n :=
    fun hp hq => .apart .refl .refl hapart hp hq
  have heta : ∀ {sort ps body}, Curries H R' (.tele .lam ps (some body)) n →
      Yields (Conversion.eta sig fuel self ρ sort ps body a) s (Sound H s e e' m n) := fun h =>
    (yields_eta hself hH hmatched.symm hapart.symm h ha).mono fun _ _ => Sound.symm
  have hb' := hb
  cases ha with
  | lam _ h _ =>
    cases hb with
    | lam _ h' _ => exact yields_functions hself hH hmatched .lam .lam .lam (haligned h h')
    | _ => exact yields_eta hself hH hmatched hapart h hb'
  | ref hx _ _ =>
    cases hb with
    | lam _ h _ => exact heta h
    | ref hy _ _ =>
      refine .pure ⟨H, .refl, fun heq => ?_⟩
      exact Rel.of_eq (hmatched.free_eq_of_relates hx hy heq)
    | _ => exact .pure Sound.no
  | univ _ =>
    cases hb with
    | lam _ h _ => exact heta h
    | univ _ => exact yields_univs
    | _ => exact .pure Sound.no
  | app hf hu _ =>
    cases hb with
    | lam _ h _ => exact heta h
    | app hg hv _ => exact yields_apps hself hH hmatched (haligned hf hg) (haligned hu hv)
    | _ => exact .pure Sound.no
  | con h _ =>
    cases hb with
    | lam _ h _ => exact heta h
    | con h' _ => exact yields_atoms hself hH hmatched .con (haligned h h')
    | _ => exact .pure Sound.no
  | data h _ =>
    cases hb with
    | lam _ h _ => exact heta h
    | data h' _ => exact yields_atoms hself hH hmatched .data (haligned h h')
    | _ => exact .pure Sound.no
  | pi _ h _ =>
    cases hb with
    | lam _ h _ => exact heta h
    | pi _ h' _ => exact yields_functions hself hH hmatched .pi .pi .pi (haligned h h')
    | _ => exact .pure Sound.no
  | sigma h _ =>
    cases hb with
    | lam _ h _ => exact heta h
    | sigma h' _ => exact yields_sigmas hself hH hmatched (haligned h h')
    | _ => exact .pure Sound.no

theorem yields_heads (type : Option Term) (h : Aligned H R R' (.term a) (.term b) m n) :
    Yields (Conversion.heads sig fuel span self ρ .eq a b type) s (Sound H s e e' m n) := by
  cases h with
  | apart hS hS' h hp hq =>
    exact yields_heads_apart hself hH (hmatched.narrow hS hS') type h hp hq
  | lam _ _ h => exact yields_functions hself hH hmatched .lam .lam .lam h
  | pi _ _ h => exact yields_functions hself hH hmatched .pi .pi .pi h
  | sigma _ _ h => exact yields_sigmas hself hH hmatched h
  | con _ _ h => exact yields_atoms hself hH hmatched .con h
  | data _ _ h => exact yields_atoms hself hH hmatched .data h

end Heads

theorem yields_whnf_of_isCanonical (h : t.node.isCanonical) (s : Store) :
    Yields (t.whnf sig fuel) s fun u s' => u = t ∧ s' = s := by
  cases fuel with
  | zero => exact .throw
  | succ fuel =>
    obtain ⟨stamp, node⟩ := t
    cases node with
    | con | data | record | lam | pi | sigma | tuple | univ | new | int => exact .pure ⟨rfl, rfl⟩
    | _ => cases h

/-- Two terms are reduced before their heads are compared. -/
theorem yields_reduced {f : Term → Term → Solver Bool} (hH : H.Below s.next)
    (hmatched : Matched s.next ρ R R' e e') (h : Aligned H R R' (.term a) (.term b) m n)
    (hf : ∀ {H s R R' a b m n}, H.Below s.next → Matched s.next ρ R R' e e' →
      Aligned H R R' (.term a) (.term b) m n → Yields (f a b) s (Sound H s e e' m n)) :
    Yields (do
      let a ← (a.whnf sig fuel : Core Term)
      let b ← (b.whnf sig fuel : Core Term)
      f a b : Solver Bool) s (Sound H s e e' m n) := by
  -- A term that is no application is reduced already.
  have hrigid : (∀ s, Yields (a.whnf sig fuel) s fun t s' => t = a ∧ s' = s) →
      (∀ s, Yields (b.whnf sig fuel) s fun t s' => t = b ∧ s' = s) →
      Yields (do
        let a ← (a.whnf sig fuel : Core Term)
        let b ← (b.whnf sig fuel : Core Term)
        f a b : Solver Bool) s (Sound H s e e' m n) := by
    intro ha hb
    refine Yields.bind (ha s).liftSolver ?_
    rintro _ _ ⟨rfl, rfl⟩
    refine Yields.bind (hb _).liftSolver ?_
    rintro _ _ ⟨rfl, rfl⟩
    exact hf hH hmatched h
  cases h with
  | apart hS hS' hapart hp hq =>
    have hmatched₀ := hmatched.narrow hS hS'
    refine Yields.bind (yields_whnf fuel hH hmatched₀.below hp).liftSolver ?_
    rintro a' s₁ ⟨H₁, m₁, hgrown₁, ha', hred⟩
    have hmatched₁ := hmatched₀.grow hgrown₁.next
    have hapart₁ := hapart.grow hmatched₀.below' s₁.next
    have hH₁ := hgrown₁.below hH
    refine Yields.bind (yields_whnf fuel hH₁ hmatched₁.below' (hq.grown hgrown₁)).liftSolver ?_
    rintro b' s₂ ⟨H₂, n₁, hgrown₂, hb', hred'⟩
    have hmatched₂ := (hmatched₁.symm.grow hgrown₂.next).symm
    have hapart₂ := (hapart₁.symm.grow hmatched₁.below s₂.next).symm
    refine (hf (hgrown₂.below hH₁) hmatched₂
      (.apart .refl .refl hapart₂ (ha'.grown hgrown₂) hb')).mono fun answer s₃ => ?_
    refine Sound.lift (hgrown₁.trans hgrown₂) fun hconv => ?_
    exact ((hred.conv.subst e).trans hconv).trans ((hred'.conv.subst e').symm rfl)
  | _ => exact hrigid (yields_whnf_of_isCanonical rfl) (yields_whnf_of_isCanonical rfl)

/-- A node is equal to itself, whatever scopes it is in. -/
theorem subst_eq_of_same (hmatched : Matched s.next ρ R R' e e')
    (h : Aligned H R R' (.term a) (.term b) m n) (hab : a.same b = true) :
    m.subst e = n.subst e' := by
  have hstamp : a.stamp = b.stamp := eq_of_beq hab
  have hheap := h.left.heap
  rw [hstamp, h.right.heap] at hheap
  cases hheap
  exact hmatched.subst_eq h.left.overFree h.right.overFree

/-- By induction on the depth. -/
theorem compares_run (sig : Signature) (span : Span) (fuel : Nat) :
    Compares (Conversion.run sig span fuel) := by
  induction fuel with
  | zero => exact fun _ _ _ _ => Yields.throw
  | succ fuel ih =>
    intro H s ρ R R' e e' a b m n hH hmatched h type
    rw [Conversion.run, Conversion.step]
    split
    next hab => exact .pure (Sound.of_eq (subst_eq_of_same hmatched h hab))
    next =>
      refine yields_reduced hH hmatched h ?_
      intro H s R R' a b m n hH hmatched h
      rw [isHole_eq_false h.left, isHole_eq_false h.right, Bool.or_false, Bool.or_false]
      split
      next hab => exact .pure (Sound.of_eq (subst_eq_of_same hmatched h hab))
      next =>
        refine Yields.bind (yields_unknowns fuel span ρ .eq type h.left h.right) ?_
        rintro _ _ ⟨rfl, rfl⟩
        exact yields_heads ih hH hmatched type h

end Currying

/-- Terms that compare as equal are equal up to beta and eta, unless they bind variables of each
other in different places. -/
theorem compare_convertible {sig : Signature} {fuel : Nat} {span : Span} {type : Option Term}
    {H : Heap} {R R' : Range} {a b : Term} {m n : Curried} {st st' : SolverState}
    (hH : H.Below st.store.next) (hR : R.Below st.store.next) (hR' : R'.Below st.store.next)
    (h : Aligned H R R' (.term a) (.term b) m n)
    (hrun : Solver.compare sig fuel span .eq a b type st = .ok true st') : Conv m n := by
  have hyields := Currying.compares_run sig span fuel hH (.empty hR hR') h type
  obtain ⟨H', -, hconv⟩ := hyields true _ ⟨st, st', rfl, rfl, hrun⟩
  have hconv := hconv rfl
  rw [Curried.subst_id, Curried.subst_id] at hconv
  exact hconv

/-! ## Binders that are shared -/

namespace SharedBinder

variable {R : Range} {v : Var} {body : Term} {m : Curried}

def f : Var := ⟨0, .param, "f"⟩

def x : Var := ⟨1, .param, "x"⟩

def y : Var := ⟨2, .param, "y"⟩

def ref (stamp : Nat) (v : Var) : Term := .mk stamp (.ref v)

def app (stamp : Nat) (fn arg : Term) : Term := .mk stamp (.app fn arg)

/-- A function on natural numbers. -/
def lam (stamp typeStamp : Nat) (v : Var) (body : Term) : Term :=
  .mk stamp (.lam .set0 [⟨v, some (.mk typeStamp .nat), true⟩] body)

def state : SolverState := .ofStore (.start 40)

/-- Whether two terms compare as equal. -/
def equal (a b : Term) : Bool :=
  match Solver.compare Prelude.signature 10 default .eq a b none state with
  | .ok answer _ => answer
  | .error .. => false

theorem exists_of_equal {a b : Term} (h : equal a b = true) :
    ∃ st', Solver.compare Prelude.signature 10 default .eq a b none state = .ok true st' := by
  unfold equal at h
  split at h
  next answer st' hrun =>
    subst h
    exact ⟨st', hrun⟩
  next => cases h

/-- Passes its argument on to `f`. -/
def passing : Term := lam 10 3 x (app 11 (ref 12 f) (ref 13 x))

/-- The same with a detour, over the same parameter. -/
def detour : Term :=
  lam 14 3 x (app 15 (lam 16 4 y (app 17 (ref 18 f) (ref 19 y))) (ref 20 x))

namespace Reading

def nat : Curried := .node (.data Prelude.nat) .nil

def passing : Curried := .lam nat ((Curried.app (.free f) (.free x)).close x)

def inner : Curried := .lam nat ((Curried.app (.free f) (.free y)).close y)

def detour : Curried := .lam nat ((Curried.app inner (.free x)).close x)

end Reading

def heap : Heap
  | 3 | 4 => some Reading.nat
  | 10 => some Reading.passing
  | 11 => some (.app (.free f) (.free x))
  | 12 | 18 => some (.free f)
  | 13 | 20 => some (.free x)
  | 14 => some Reading.detour
  | 15 => some (.app Reading.inner (.free x))
  | 16 => some Reading.inner
  | 17 => some (.app (.free f) (.free y))
  | 19 => some (.free y)
  | 21 => some (.lam Reading.nat (.bound 0))
  | 22 => some (.lam Reading.nat (.free x))
  | 23 => some (.lam Reading.nat (.lam Reading.nat (.bound 1)))
  | 24 => some (.lam Reading.nat (.lam Reading.nat (.bound 0)))
  | _ => none

theorem heap_below : heap.Below state.store.next := by
  intro i m hi
  show i < 40
  refine Nat.lt_of_not_le fun hle => ?_
  obtain ⟨k, rfl⟩ := Nat.exists_eq_add_of_le hle
  rw [Nat.add_comm] at hi
  cases hi

theorem curries_nat (stamp : Nat) (h : heap stamp = some Reading.nat) :
    Curries heap R (.term (.mk stamp .nat)) Reading.nat := .data .nil h

theorem curries_ref (stamp : Nat) (hv : R.free v) (hkind : v.kind ≠ .clause)
    (h : heap stamp = some (.free v)) : Curries heap R (.term (ref stamp v)) (.free v) :=
  .ref hv hkind h

theorem curries_param (typeStamp : Nat) (hv : R.bound v) (hkind : v.kind ≠ .clause)
    (htype : heap typeStamp = some Reading.nat) (hbody : Curries heap (R.under v) (.term body) m) :
    Curries heap R (.tele .lam [⟨v, some (.mk typeStamp .nat), true⟩] (some body))
      (.lam Reading.nat (m.close v)) :=
  .typed hv hkind (curries_nat typeStamp htype) (.inner hbody)

theorem curries_lam (stamp typeStamp : Nat) (hv : R.bound v) (hkind : v.kind ≠ .clause)
    (htype : heap typeStamp = some Reading.nat) (hbody : Curries heap (R.under v) (.term body) m)
    (h : heap stamp = some (.lam Reading.nat (m.close v))) :
    Curries heap R (.term (lam stamp typeStamp v body)) (.lam Reading.nat (m.close v)) :=
  .lam (by simp) (curries_param typeStamp hv hkind htype hbody) h

def range : Range := ⟨(· = f), (· = x)⟩

def range' : Range := ⟨(· = f), fun v => v = x ∨ v = y⟩

/-- Both functions bind the same variable on the outside. -/
theorem aligned_detour : Aligned heap range range' (.term passing) (.term detour) Reading.passing
    Reading.detour := by
  -- The bodies bind different variables.
  have hbody : Curries heap ⟨(range.under x).free, fun _ => False⟩
      (.term (app 11 (ref 12 f) (ref 13 x))) (.app (.free f) (.free x)) :=
    .app (curries_ref 12 (.inr rfl) (by decide) rfl) (curries_ref 13 (.inl rfl) (by decide) rfl) rfl
  have hinner : Curries heap ⟨(range'.under x).free, (· = y)⟩
      (.term (lam 16 4 y (app 17 (ref 18 f) (ref 19 y)))) Reading.inner :=
    curries_lam 16 4 rfl (by decide) rfl (.app (curries_ref 18 (.inr (.inr rfl)) (by decide) rfl)
      (curries_ref 19 (.inl rfl) (by decide) rfl) rfl) rfl
  have hbody' : Curries heap ⟨(range'.under x).free, (· = y)⟩
      (.term (app 15 (lam 16 4 y (app 17 (ref 18 f) (ref 19 y))) (ref 20 x)))
      (.app Reading.inner (.free x)) :=
    .app hinner (curries_ref 20 (.inl rfl) (by decide) rfl) rfl
  have hle : Range.Le ⟨(range.under x).free, fun _ => False⟩ (range.under x) :=
    ⟨fun _ h => h, fun _ h => h.elim⟩
  have hle' : Range.Le ⟨(range'.under x).free, (· = y)⟩ (range'.under x) := by
    refine ⟨fun _ h => h, ?_⟩
    rintro _ rfl
    exact ⟨by decide, .inr rfl⟩
  have hapart : Range.Apart ⟨(range.under x).free, fun _ => False⟩
      ⟨(range'.under x).free, (· = y)⟩ := by
    refine ⟨fun _ h => h.elim, ?_⟩
    rintro _ rfl
    refine ⟨?_, id⟩
    rintro (h | h)
    · cases h
    · cases h
  have hx : range.Meets range' x x := ⟨rfl, .inl rfl, fun hne => absurd rfl hne⟩
  have hp := curries_param 3 hx.left (by decide) rfl (hbody.mono hle)
  have hq := curries_param 3 hx.right (by decide) rfl (hbody'.mono hle')
  refine .lam (.lam (by simp) hp rfl) (.lam (by simp) hq rfl) ?_
  refine .param hx hp hq ?_ ?_
  · intro type type' heq heq'
    cases heq
    cases heq'
    have hnone : ∀ R, Range.Le ⟨fun _ => False, fun _ => False⟩ R := fun R =>
      ⟨fun _ h => h.elim, fun _ h => h.elim⟩
    exact .apart (hnone _) (hnone _) ⟨fun _ h => h.elim, fun _ h => h.elim⟩ (curries_nat 3 rfl)
      (curries_nat 3 rfl)
  · exact .inner (.apart hle hle' hapart hbody hbody')

/-- A function is equal to one over the same parameter that takes a detour. -/
theorem passing_convertible_detour :
    Aligned heap range range' (.term passing) (.term detour) Reading.passing Reading.detour ∧
      (∃ st', Solver.compare Prelude.signature 10 default .eq passing detour none state =
        .ok true st') ∧
      Conv Reading.passing Reading.detour := by
  obtain ⟨st', hrun⟩ := exists_of_equal (a := passing) (b := detour) (by decide +kernel)
  refine ⟨aligned_detour, ⟨st', hrun⟩, ?_⟩
  refine compare_convertible heap_below ⟨?_, ?_⟩ ⟨?_, ?_⟩ aligned_detour hrun
  · rintro _ rfl
    decide
  · rintro _ rfl
    decide
  · rintro _ rfl
    decide
  · rintro _ (rfl | rfl)
    · decide
    · decide

/-- The terms have readings, in which no variable is bound in its own scope. They compare as
equal, and the readings are different. -/
structure Confused (a b : Term) (m n : Curried) : Prop where
  equal : ∃ st', Solver.compare Prelude.signature 10 default .eq a b none state = .ok true st'
  left : ∃ R : Range, R.Below state.store.next ∧ Curries heap R (.term a) m
  right : ∃ R : Range, R.Below state.store.next ∧ Curries heap R (.term b) n
  different : ¬ Conv m n

/-- The identity, and the function that returns a variable which the identity binds. -/
def identity : Term := lam 21 3 x (ref 13 x)

def constant : Term := lam 22 4 y (ref 13 x)

/-- Nothing is free, and both variables may be bound. -/
def closed : Range := ⟨fun _ => False, fun v => v = x ∨ v = y⟩

theorem variables_below {P Q : Var → Prop} (hP : ∀ v, P v → v = x ∨ v = y)
    (hQ : ∀ v, Q v → v = x ∨ v = y) : Range.Below ⟨P, Q⟩ state.store.next := by
  have hlt : ∀ v, v = x ∨ v = y → v.serial < state.store.next := by
    rintro _ (rfl | rfl)
    · decide
    · decide
  exact ⟨fun v hv => hlt v (hP v hv), fun v hv => hlt v (hQ v hv)⟩

theorem curries_identity (hx : R.bound x) :
    Curries heap R (.term identity) (.lam Reading.nat (.bound 0)) := by
  have hclose : (Curried.free x).close x = .bound 0 := Env.close_self x
  have hbody : Curries heap (R.under x) (.term (ref 13 x)) (.free x) :=
    curries_ref 13 (.inl rfl) (by decide) rfl
  rw [← hclose]
  exact curries_lam 21 3 hx (by decide) rfl hbody (by rw [hclose]; rfl)

theorem curries_constant (hy : R.bound y) (hx : R.free x) :
    Curries heap R (.term constant) (.lam Reading.nat (.free x)) := by
  have hclose : (Curried.free x).close y = .free x := Env.close_of_ne (by decide)
  have hbody : Curries heap (R.under y) (.term (ref 13 x)) (.free x) :=
    curries_ref 13 (.inr hx) (by decide) rfl
  have h := curries_lam 22 4 hy (by decide) rfl hbody (by rw [hclose]; rfl)
  rw [hclose] at h
  exact h

/-- A variable that one of the functions binds is free in the other one; and two functions bind
the same variables, in different places. -/
theorem bound_variables_confused :
    heap.Below state.store.next ∧
      Confused identity constant (.lam Reading.nat (.bound 0)) (.lam Reading.nat (.free x)) ∧
      Confused (lam 23 3 x constant) (lam 24 4 y identity)
        (.lam Reading.nat (.lam Reading.nat (.bound 1)))
        (.lam Reading.nat (.lam Reading.nat (.bound 0))) := by
  refine ⟨heap_below, ?_, ?_⟩
  · refine ⟨exists_of_equal (by decide +kernel), ⟨⟨fun _ => False, (· = x)⟩, ?_, ?_⟩,
      ⟨⟨(· = x), (· = y)⟩, ?_, ?_⟩, fun hconv => ?_⟩
    · exact variables_below (fun _ h => h.elim) fun _ h => .inl h
    · exact curries_identity rfl
    · exact variables_below (fun _ h => .inl h) fun _ h => .inr h
    · exact curries_constant rfl rfl
    · have hmem : Trait.fn [.any] .any ∈ (Curried.lam Reading.nat (.bound 0)).traits fun _ => ∅ :=
        Trait.mem_closure List.mem_cons_self
      rw [hconv.traits_eq fun _ _ _ _ h => h] at hmem
      exact hmem
  · have hbelow : closed.Below state.store.next := variables_below (fun _ h => h.elim) fun _ h => h
    have hx : closed.bound x := .inl rfl
    have hy : closed.bound y := .inr rfl
    refine ⟨exists_of_equal (by decide +kernel), ⟨closed, hbelow, ?_⟩, ⟨closed, hbelow, ?_⟩,
      fun hconv => ?_⟩
    · have hclose : (Curried.lam Reading.nat (.free x)).close x =
          .lam Reading.nat (.bound 1) := by
        show Curried.lam Reading.nat ((Env.close x).free x).shift = _
        rw [Env.close_self]
        rfl
      have hbody : Curries heap (closed.under x) (.term constant) (.lam Reading.nat (.free x)) :=
        curries_constant ⟨by decide, hy⟩ (.inl rfl)
      have h := curries_lam 23 3 hx (by decide) rfl hbody (by rw [hclose]; rfl)
      rw [hclose] at h
      exact h
    · have hbody : Curries heap (closed.under y) (.term identity) (.lam Reading.nat (.bound 0)) :=
        curries_identity ⟨by decide, hx⟩
      exact curries_lam 24 4 hy (by decide) rfl hbody rfl
    · have hmem : Trait.fn [.any] .any ∈
          (Curried.lam Reading.nat (.lam Reading.nat (.bound 1))).traits fun _ => ∅ :=
        Trait.mem_closure List.mem_cons_self
      rw [hconv.traits_eq fun _ _ _ _ h => h] at hmem
      obtain ⟨_, hnil, -⟩ := hmem
      cases hnil

-- A variable that is bound again in its own scope corresponds to both of the others.
example : equal (lam 25 3 x (lam 26 3 f (ref 13 x))) (lam 27 4 y (lam 28 4 y (ref 19 y))) := by
  decide +kernel

/-- A function of functions on numbers. -/
def functional (stamp : Nat) (v : Var) (body : Term) : Term :=
  let type : Term := .mk 25 (.pi .set0 [⟨x, some (.mk 3 .nat), true⟩] (.mk 4 .nat))
  .mk stamp (.lam .set0 [⟨v, some type, true⟩] body)

def g : Var := ⟨5, .param, "g"⟩

/-- A comparison that expands the term on the left exchanges the sides, but not the variables that
correspond. So `\lam f => \lam y => f y` is equal to `\lam g => g`, which is not equal to it. -/
theorem expansion_asymmetric :
    let expanded := functional 26 f (lam 27 3 y (app 28 (ref 29 f) (ref 30 y)))
    let identity := functional 31 g (ref 32 g)
    equal expanded identity = true ∧ equal identity expanded = false := by
  decide +kernel

end SharedBinder

end Recheck
