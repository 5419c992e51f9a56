import Recheck.Proofs.Heads
import Recheck.Proofs.Outcome
import Recheck.Proofs.Scope.Safety

/-!
# Recheck — constructors that are introduced are admitted

A constructor with patterns comes in on two sides. A check of an application turns the
patterns into terms, substitutes the data arguments and compares the outcome with the
arguments of the expected instance. A match on the instance matches the patterns against
these arguments. `check_con_admitted` says that the two agree if the patterns are made of
constructors, variables, wildcards and tuples that take anything: if an application is
accepted at an instance, then the instance admits the constructor.

The patterns of tuples become holes on the first side, and a hole is equal to everything.
`TuplePattern.refused_constructor_accepted` is the case of a tuple that looks at its
components. And what a match reads need not stay what it has read: reducing one argument can
rewrite a let clause that another one refers to (`RewrittenArgument.admitted_type_differs`).

Nodes with equal stamps count as equal without a look at them. So it matters that the terms
made of the patterns are new, which is what `Pattern.StandsFor` keeps track of.
-/

namespace Recheck

variable {P : Nat → Prop} {t : Term}

/-! ## Stamps -/

/-- Every node of the term has a stamp with the property. -/
inductive Term.Stamps (P : Nat → Prop) : Term → Prop where
  | mk {stamp : Nat} {node : Node Term} (hstamp : P stamp)
      (hterms : ∀ t, .term t ∈ node.parts → Term.Stamps P t) : Term.Stamps P (.mk stamp node)

theorem Term.Stamps.mono {Q : Nat → Prop} (h : t.Stamps P) (hle : ∀ n, P n → Q n) : t.Stamps Q := by
  induction h with
  | mk hstamp _ ih => exact ⟨hle _ hstamp, ih⟩

theorem Term.Stamps.stamp (h : t.Stamps P) : P t.stamp := by
  cases h with
  | mk hstamp _ => exact hstamp

theorem Term.Stamps.args {c : ConApp Term} (h : t.Stamps P) (hnode : t.node = .con c) :
    ∀ u ∈ c.args, u.Stamps P := by
  cases h with
  | mk _ hterms =>
    cases hnode
    intro u hu
    exact hterms u (List.mem_append_right _ (List.mem_map_of_mem hu))

theorem next_solverInvariant (sig : Signature) (n : Nat) :
    SolverInvariant sig .unrestricted (OnStore fun s => n ≤ s.next) where
  toInvariant := next_invariant sig n
  defer _ h _ := h
  deferLevel _ h _ := h
  solve h _ _ _ := h

/-! ## The terms of patterns -/

namespace Pattern

mutual

/-- The pattern is made of variables, wildcards and tuples. -/
def isIrrefutable : Pattern Term → Bool
  | .bind _ _ | .wild => true
  | .tuple ps => allIrrefutable ps
  | .absurd | .con _ _ | .record _ _ => false

/-- All of the patterns are made of variables, wildcards and tuples. -/
def allIrrefutable : List (Pattern Term) → Bool
  | [] => true
  | p :: ps => p.isIrrefutable && allIrrefutable ps

end

mutual

theorem accepts_of_isIrrefutable : ∀ {p : Pattern Term} {t : Term}, p.isIrrefutable →
    p.Faces t → p.Accepts t
  | .bind _ _, _, _, _ | .wild, _, _, _ => trivial
  | .tuple ps, _, h, hfaces => by
    obtain ⟨ts, type, hnode, hlen, hfaces⟩ := hfaces
    exact ⟨ts, type, hnode, acceptsAll_of_allIrrefutable h hlen hfaces⟩

theorem acceptsAll_of_allIrrefutable : ∀ {ps : List (Pattern Term)} {ts : List Term},
    allIrrefutable ps → ps.length = ts.length → FacesAll ps ts → AcceptsAll ps ts
  | [], [], _, _, _ => trivial
  | p :: ps, t :: ts, h, hlen, hfaces => by
    have h : p.isIrrefutable && allIrrefutable ps := h
    rw [Bool.and_eq_true] at h
    exact ⟨accepts_of_isIrrefutable h.1 hfaces.1,
      acceptsAll_of_allIrrefutable h.2 (Nat.succ.inj hlen) hfaces.2⟩

end

mutual

/-- The pattern is no more than the term that is made of it: a tuple in it takes anything. -/
def isFaithful : Pattern Term → Bool
  | .bind _ _ | .wild => true
  | .con _ ps => allFaithful ps
  | .tuple ps => allIrrefutable ps
  | .absurd | .record _ _ => false

/-- All of the patterns are no more than the terms that are made of them. -/
def allFaithful : List (Pattern Term) → Bool
  | [] => true
  | p :: ps => p.isFaithful && allFaithful ps

end

mutual

/-- The term has the constructors of the pattern, in nodes with stamps from `lo` up to
`hi`. -/
def StandsFor (lo hi : Nat) : Pattern Term → Term → Prop
  | .con c ps, t => lo ≤ t.stamp ∧ t.stamp < hi ∧
      ∃ sortArg dataArgs ts, t.node = .con ⟨c, sortArg, dataArgs, ts⟩ ∧ StandForAll lo hi ps ts
  | _, _ => True

/-- The terms stand for the patterns one by one. -/
def StandForAll (lo hi : Nat) : List (Pattern Term) → List Term → Prop
  | [], [] => True
  | p :: ps, t :: ts => StandsFor lo hi p t ∧ StandForAll lo hi ps ts
  | _, _ => False

end

section Mono

variable {lo lo' hi hi' : Nat} (hlo : lo' ≤ lo) (hhi : hi ≤ hi')

include hlo hhi

set_option linter.unusedSectionVars false in
mutual

theorem StandsFor.mono : ∀ {p : Pattern Term} {t : Term}, StandsFor lo hi p t →
    StandsFor lo' hi' p t
  | .con c ps, t, h => by
    obtain ⟨hl, hh, sortArg, dataArgs, ts, hnode, hts⟩ := h
    exact ⟨Nat.le_trans hlo hl, Nat.lt_of_lt_of_le hh hhi, sortArg, dataArgs, ts, hnode, hts.mono⟩
  | .bind _ _, _, _ | .wild, _, _ | .absurd, _, _ | .tuple _, _, _ | .record _ _, _, _ => trivial

theorem StandForAll.mono : ∀ {ps : List (Pattern Term)} {ts : List Term},
    StandForAll lo hi ps ts → StandForAll lo' hi' ps ts
  | [], [], _ => trivial
  | _ :: _, _ :: _, h => ⟨h.1.mono, h.2.mono⟩
  | [], _ :: _, h => h.elim
  | _ :: _, [], h => h.elim

end

end Mono

mutual

theorem yields_toTerm : ∀ (p : Pattern Term) (s : Store),
    Yields p.toTerm s fun t s' => s.next ≤ s'.next ∧ p.StandsFor s.next s'.next t
  | .bind x type, s => Yields.build ⟨Nat.le_succ _, trivial⟩
  | .wild, s | .absurd, s | .tuple _, s | .record _ _, s => Yields.build ⟨Nat.le_succ _, trivial⟩
  | .con c ps, s => by
    refine Yields.bind (yields_toTerms ps s) ?_
    intro ts s₁ hts
    refine Yields.build ⟨Nat.le_succ_of_le hts.1, hts.1, Nat.lt_succ_self _, .set0, [], ts, rfl, ?_⟩
    exact hts.2.mono (Nat.le_refl _) (Nat.le_succ _)

theorem yields_toTerms : ∀ (ps : List (Pattern Term)) (s : Store),
    Yields (toTerms ps) s fun ts s' => s.next ≤ s'.next ∧ StandForAll s.next s'.next ps ts
  | [], s => .pure ⟨Nat.le_refl _, trivial⟩
  | p :: ps, s => by
    refine Yields.bind (yields_toTerm p s) ?_
    intro t s₁ ht
    refine Yields.bind (yields_toTerms ps s₁) ?_
    intro ts s₂ hts
    refine .pure ⟨Nat.le_trans ht.1 hts.1, ?_, ?_⟩
    · exact ht.2.mono (Nat.le_refl _) hts.1
    · exact hts.2.mono ht.1 (Nat.le_refl _)

end

variable {sig : Signature} {lo hi : Nat}

mutual

/-- Substitution builds the constructors anew. -/
theorem yields_traverse : ∀ (p : Pattern Term) {t : Term} (fuel : Nat) (σ : Substitution)
    (s : Store), StandsFor lo hi p t → Yields (Traversal.traverse sig fuel σ t) s fun u s' =>
      s.next ≤ s'.next ∧ StandsFor s.next s'.next p u
  | .con c ps, t, 0, σ, s, h => Yields.throwT
  | .con c ps, t, fuel + 1, σ, s, h => by
    obtain ⟨-, -, sortArg, dataArgs, ts, hnode, hts⟩ := h
    obtain ⟨stamp, node⟩ := t
    cases hnode
    have hdataArgs : Keeps (OnStore fun s₁ => s.next ≤ s₁.next)
        (dataArgs.mapM (Traversal.traverse sig fuel σ)) fun _ => True :=
      (Keeps.mapM fun u _ => keeps_next_traverse s.next fuel σ u).mono fun _ _ => trivial
    refine Yields.bind (Yields.of_keepsT hdataArgs (Nat.le_refl _)) ?_
    intro dataArgs' s₁ hs₁
    have hs₁ := hs₁.1
    refine Yields.bind (yields_mapM ps fuel σ s₁ hts) ?_
    intro ts' s₂ hts'
    refine (Yields.build ?_).lift
    refine ⟨by show s.next ≤ s₂.next + 1; omega, by show s.next ≤ s₂.next; omega,
      Nat.lt_succ_self _, _, _, _, rfl, ?_⟩
    exact hts'.2.mono hs₁ (Nat.le_succ _)
  | .bind _ _, t, fuel, σ, s, _ | .wild, t, fuel, σ, s, _ | .absurd, t, fuel, σ, s, _
  | .tuple _, t, fuel, σ, s, _ | .record _ _, t, fuel, σ, s, _ =>
    Yields.of_keepsT (keeps_next_traverse s.next fuel σ t) (Nat.le_refl _)

theorem yields_mapM : ∀ (ps : List (Pattern Term)) {ts : List Term} (fuel : Nat)
    (σ : Substitution) (s : Store), StandForAll lo hi ps ts →
    Yields (ts.mapM (Traversal.traverse sig fuel σ)) s fun us s' =>
      s.next ≤ s'.next ∧ StandForAll s.next s'.next ps us
  | [], [], fuel, σ, s, _ => .pure ⟨Nat.le_refl _, trivial⟩
  | p :: ps, t :: ts, fuel, σ, s, h => by
    rw [List.mapM_cons]
    refine Yields.bind (yields_traverse p fuel σ s h.1) ?_
    intro u s₁ hu
    refine Yields.bind (yields_mapM ps fuel σ s₁ h.2) ?_
    intro us s₂ hus
    refine .pure ⟨Nat.le_trans hu.1 hus.1, ?_, ?_⟩
    · exact hu.2.mono (Nat.le_refl _) hus.1
    · exact hus.2.mono hu.1 (Nat.le_refl _)
  | [], _ :: _, _, _, _, h => h.elim
  | _ :: _, [], _, _, _, h => h.elim

end

theorem yields_subst (p : Pattern Term) (fuel : Nat) (σ : Substitution) (s : Store)
    (h : StandsFor lo hi p t) (hlo : lo ≤ s.next) (hhi : hi ≤ s.next) :
    Yields (t.subst sig fuel σ) s fun u s' => s.next ≤ s'.next ∧ StandsFor lo s'.next p u := by
  unfold Term.subst Traversal.applyFrom
  split
  · exact .pure ⟨Nat.le_refl _, h.mono (Nat.le_refl _) hhi⟩
  · refine (yields_traverse p fuel σ s h).start.mono fun u s' hu => ?_
    exact ⟨hu.1, hu.2.mono hlo (Nat.le_refl _)⟩

/-- The arguments that the patterns of a constructor come to. -/
theorem yields_patternTerms (ps : List (Pattern Term)) (fuel : Nat) (σ : Substitution)
    (s : Store) (hlo : lo ≤ s.next) :
    Yields (ps.mapM fun p => do (← p.toTerm).subst sig fuel σ) s fun ts s' =>
      s.next ≤ s'.next ∧ StandForAll lo s'.next ps ts := by
  induction ps generalizing s with
  | nil => exact .pure ⟨Nat.le_refl _, trivial⟩
  | cons p ps ih =>
    rw [List.mapM_cons]
    have hfaithful : Yields (do (← p.toTerm).subst sig fuel σ : Core Term) s fun t s₁ =>
        s.next ≤ s₁.next ∧ StandsFor lo s₁.next p t := by
      refine Yields.bind (yields_toTerm p s) ?_
      intro t s₁ ht
      have hstands := ht.2.mono hlo (Nat.le_refl _)
      refine (yields_subst p fuel σ s₁ hstands (Nat.le_trans hlo ht.1) (Nat.le_refl _)).mono ?_
      intro u s₂ hu
      exact ⟨Nat.le_trans ht.1 hu.1, hu.2⟩
    refine Yields.bind hfaithful ?_
    intro t s₁ ht
    refine Yields.bind (ih s₁ (Nat.le_trans hlo ht.1)) ?_
    intro ts s₂ hts
    exact .pure ⟨Nat.le_trans ht.1 hts.1, ht.2.mono (Nat.le_refl _) hts.1, hts.2⟩

end Pattern

/-! ## Comparisons of terms with heads -/

namespace Conversion

variable {sig : Signature} {fuel : Nat} {span : Span} {ρ : Renaming} {r : Relation}
variable {self : Renaming → Relation → Term → Term → Option Term → Solver Bool}
variable {a b : Term} {type : Option Term} {s : Store} {Q : Bool → Store → Prop}

/-- Two different terms whose heads are there are compared by their heads. -/
theorem yields_step (ha : a.node.isCanonical) (hb : b.node.isCanonical)
    (hstamp : a.stamp ≠ b.stamp) (h : Yields (heads sig fuel span self ρ r a b type) s Q) :
    Yields (step sig fuel span self ρ r a b type) s Q := by
  have hsame : a.same b = false := by simpa [Term.same] using hstamp
  cases fuel with
  | zero =>
    unfold step
    rw [hsame]
    exact Yields.bind (P := fun _ _ => False) (Yields.liftSolver .throw) fun _ _ h => h.elim
  | succ fuel =>
    rw [step_of_isCanonical ha hb hsame]
    exact h

/-- An answer of true is an answer of true for both. -/
theorem yields_both {x y : Solver Bool} {P : Bool → Store → Prop} (hx : Yields x s P)
    (hy : ∀ s', P true s' → Yields y s' Q) (hfalse : ∀ s', P false s' → Q false s') :
    Yields (both x y) s Q := by
  refine Yields.bind hx ?_
  intro answer s' hanswer
  cases answer with
  | true => exact hy s' hanswer
  | false => exact .pure (hfalse s' hanswer)

theorem yields_next_run (n fuel : Nat) (ρ : Renaming) (r : Relation) (a b : Term)
    (type : Option Term) (hs : n ≤ s.next) :
    Yields (run sig span fuel ρ r a b type) s fun _ s' => n ≤ s'.next := by
  have hkeeps := keeps_run (next_solverInvariant sig n).comparison
    (Region.signature_unrestricted sig) fuel span ρ r type (Region.within_unrestricted a)
    (Region.within_unrestricted b)
  exact (Yields.of_keeps hkeeps hs).mono fun _ _ h => h.1

variable {lo hi : Nat}

/-- The stamp is not one of those of the terms of the patterns. -/
def Apart (lo hi n : Nat) : Prop := n < lo ∨ hi ≤ n

/-- A literal becomes an application, with a new literal below it if it is not zero. -/
theorem yields_literalCon (stamp : Nat) (n : Int) (s : Store) :
    Yields (literalCon n) s fun e s' => s.next ≤ s'.next ∧
      (Term.mk stamp (.int n)).Unfolds e.con e.args ∧ ∀ u ∈ e.args, u.Stamps (s.next ≤ ·) := by
  unfold literalCon
  by_cases hn : n = 0
  · subst hn
    rw [if_pos rfl]
    exact .pure ⟨Nat.le_refl _, .zero, by simp⟩
  · rw [if_neg hn]
    refine Yields.bind (P := fun t s' => s' = { s with next := s.next + 1 } ∧
      t = .mk s.next (.int (n - 1))) (Yields.build ⟨rfl, rfl⟩) ?_
    rintro _ _ ⟨rfl, rfl⟩
    refine .pure ⟨Nat.le_succ _, .suc hn, ?_⟩
    intro u hu
    rw [List.mem_singleton] at hu
    subst hu
    refine ⟨Nat.le_refl _, ?_⟩
    intro t ht
    cases ht

theorem yields_args {as bs : List Term} {p : Prop} (hs : hi ≤ s.next)
    (h : as.length = bs.length → Yields (pairs self ρ as bs) s fun answer s' =>
      hi ≤ s'.next ∧ (answer = true → p)) :
    Yields (args self ρ as bs) s fun answer s' => hi ≤ s'.next ∧ (answer = true → p) := by
  unfold args
  by_cases hlen : as.length = bs.length
  · rw [if_pos hlen]
    exact h hlen
  · rw [if_neg hlen]
    exact .pure ⟨hs, by simp⟩

mutual

/-- If the term of a pattern equals a value, then the pattern accepts the value. By induction
on the pattern; where it looks at a literal, the literal before it is new. -/
theorem yields_accepts : ∀ (p : Pattern Term) {a b : Term} (fuel : Nat) (ρ : Renaming)
    (r : Relation) (type : Option Term) (s : Store), p.isFaithful → p.StandsFor lo hi a →
    p.Faces b → b.Stamps (Apart lo hi) → hi ≤ s.next →
    Yields (run sig span fuel ρ r a b type) s fun answer s' =>
      hi ≤ s'.next ∧ (answer = true → p.Accepts b)
  | .bind _ _, a, b, fuel, ρ, r, type, s, _, _, _, _, hs
  | .wild, a, b, fuel, ρ, r, type, s, _, _, _, _, hs =>
    (yields_next_run hi fuel ρ r a b type hs).mono fun _ _ h => ⟨h, fun _ => trivial⟩
  | .con c ps, _, _, 0, _, _, _, _, _, _, _, _, _ => Yields.throw
  | .con c ps, a, b, fuel + 1, ρ, r, type, s, hfaithful, hstands, hfaces, hstamps, hs => by
    obtain ⟨hlo, hhi, sortArg, dataArgs, us, hnode, hus⟩ := hstands
    obtain ⟨stamp, node⟩ := a
    cases hnode
    obtain ⟨⟨d, ts, hunfolds⟩, hargs⟩ := hfaces
    have hne : stamp ≠ b.stamp := by
      intro heq
      have hb : Apart lo hi b.stamp := hstamps.stamp
      have hlo : lo ≤ stamp := hlo
      have hhi : stamp < hi := hhi
      unfold Apart at hb
      omega
    -- The head of the value, as it stands or after a literal is unfolded.
    have hhead : ∀ (e : ConApp Term) (s₁ : Store), b.Unfolds e.con e.args →
        (∀ u ∈ e.args, u.Stamps (Apart lo hi)) → hi ≤ s₁.next →
        Yields (if c = e.con then args (run sig span fuel) ρ us e.args else pure false) s₁
          fun answer s' => hi ≤ s'.next ∧ (answer = true → (Pattern.con c ps).Accepts b) := by
      intro e s₁ he hstamps' hs₁
      by_cases hc : c = e.con
      · subst hc
        rw [if_pos rfl]
        refine yields_args hs₁ fun hlen => ?_
        have hpairs := yields_pairs ps fuel ρ s₁ hfaithful hus (hargs e.args he) hstamps' hlen hs₁
        refine hpairs.mono fun _ _ h => ⟨h.1, fun heq => ?_⟩
        exact (Pattern.accepts_con_iff he).mpr (h.2 heq)
      · rw [if_neg hc]
        exact .pure ⟨hs₁, by simp⟩
    refine yields_step rfl hunfolds.isCanonical hne ?_
    have hliteral : ∀ {stamp' : Nat} {n : Int}, b = .mk stamp' (.int n) →
        Yields (heads sig fuel span (run sig span fuel) ρ r
          (.mk stamp (.con ⟨c, sortArg, dataArgs, us⟩)) b type) s
          fun answer s' => hi ≤ s'.next ∧ (answer = true → (Pattern.con c ps).Accepts b) := by
      intro stamp' n hb
      subst hb
      refine Yields.bind (yields_literalCon stamp' n s).liftSolver ?_
      intro e s₁ he
      refine hhead e s₁ he.2.1 ?_ (Nat.le_trans hs he.1)
      intro u hu
      exact (he.2.2 u hu).mono fun k hk => .inr (Nat.le_trans hs hk)
    cases hunfolds with
    | @con stamp' e => exact hhead e s .con (hstamps.args rfl) hs
    | zero => exact hliteral rfl
    | suc hn => exact hliteral rfl
  | .tuple ps, a, b, fuel, ρ, r, type, s, hfaithful, _, hfaces, _, hs =>
    (yields_next_run hi fuel ρ r a b type hs).mono fun _ _ h =>
      ⟨h, fun _ => Pattern.accepts_of_isIrrefutable hfaithful hfaces⟩
  | .absurd, _, _, _, _, _, _, _, hfaithful, _, _, _, _
  | .record _ _, _, _, _, _, _, _, _, hfaithful, _, _, _, _ => by cases hfaithful

/-- The same for as many values as there are patterns. -/
theorem yields_pairs : ∀ (ps : List (Pattern Term)) {as bs : List Term} (fuel : Nat)
    (ρ : Renaming) (s : Store), Pattern.allFaithful ps → Pattern.StandForAll lo hi ps as →
    Pattern.FacesAll ps bs → (∀ b ∈ bs, b.Stamps (Apart lo hi)) → as.length = bs.length →
    hi ≤ s.next → Yields (pairs (run sig span fuel) ρ as bs) s fun answer s' =>
      hi ≤ s'.next ∧ (answer = true → Pattern.AcceptsAll ps bs)
  | [], [], [], fuel, ρ, s, _, _, _, _, _, hs => .pure ⟨hs, fun _ => trivial⟩
  | p :: ps, a :: as, b :: bs, fuel, ρ, s, hfaithful, hstands, hfaces, hstamps, hlen, hs => by
    have hfaithful : p.isFaithful && Pattern.allFaithful ps := hfaithful
    rw [Bool.and_eq_true] at hfaithful
    have hb := hstamps b (.head _)
    have hone := yields_accepts p fuel ρ .eq none s hfaithful.1 hstands.1 hfaces.1 hb hs
    refine yields_both hone ?_ ?_
    · intro s₁ h₁
      have hbs : ∀ b ∈ bs, b.Stamps (Apart lo hi) := fun b hb =>
        hstamps b (.tail _ hb)
      have hrest := yields_pairs ps fuel ρ s₁ hfaithful.2 hstands.2 hfaces.2 hbs
        (Nat.succ.inj hlen) h₁.1
      exact hrest.mono fun _ _ h => ⟨h.1, fun heq => ⟨h₁.2 rfl, h.2 heq⟩⟩
    · exact fun s₁ h₁ => ⟨h₁.1, by simp⟩
  | [], _ :: _, _, _, _, _, _, hstands, _, _, _, _ => hstands.elim
  | _ :: _, [], _, _, _, _, _, hstands, _, _, _, _ => hstands.elim
  | [], [], _ :: _, _, _, _, _, _, _, _, hlen, _ => by cases hlen
  | _ :: _, _ :: _, [], _, _, _, _, _, _, _, hlen, _ => by cases hlen

end

end Conversion

/-! ## Checks of applications -/

namespace Typing

variable {k : Checker} {s : Store}
variable {lo : Nat} {c : ConApp Term} {d : DataType Term} {ps : List (Pattern Term)}

theorem within_unrestricted (scope : Scope) : scope.Within .unrestricted :=
  ⟨fun _ _ t _ => Region.within_unrestricted t, fun e _ => Region.within_unrestricted e.2⟩

theorem yields_next_callArgs (n fuel : Nat) (scope : Scope) (t : Term) (σ : Substitution)
    (columns : List (Column Term)) (args : List Term) (hs : n ≤ s.next) :
    Yields (callArgs k fuel (term k fuel) scope t none σ columns args) s fun _ s' =>
      n ≤ s'.next := by
  have hI := next_solverInvariant k.sig n
  have hself := respects_term hI (Region.signature_unrestricted k.sig) fuel
  have hcolumns : Region.unrestricted.Holds (columns.flatMap Column.parts) :=
    Region.holds_unrestricted _
  have hargs : ∀ u ∈ args, u.Within .unrestricted := fun u _ => Region.within_unrestricted u
  have hσ : Region.unrestricted.Holds σ.exprs.parts := Region.holds_unrestricted _
  have hnone : ∀ u, (none : Option Term) = some u → u.Within .unrestricted :=
    fun u _ => Region.within_unrestricted u
  have hkeeps := keeps_callArgs hI (Region.signature_unrestricted k.sig) hself fuel t
    (within_unrestricted scope) hnone hσ hcolumns hargs
  exact (Yields.of_keeps hkeeps hs).mono fun _ _ h => h.1

variable (fuel : Nat)

theorem yields_next_quote (t : Term) :
    Yields (t.quote k.sig fuel : Check String) s fun _ s' => s.next ≤ s'.next := by
  have hkeeps := ((next_solverInvariant k.sig s.next).quote fuel
    (Region.within_unrestricted t)).liftCore
  exact (Yields.of_keeps hkeeps (Nat.le_refl _)).mono fun _ _ h => h.1

theorem yields_traced {A : Type} {scope : Scope} {text : Check String} {body : Scope → Check A}
    {Q : A → Store → Prop} (htext : Yields text s fun _ s' => s.next ≤ s'.next)
    (hbody : ∀ scope s', s.next ≤ s'.next → Yields (body scope) s' Q) :
    Yields (traced k scope text body) s Q := by
  unfold traced
  split
  · refine Yields.bind htext ?_
    intro text s₁ hs₁
    refine Yields.bind (P := fun _ s' => s' = s₁) ?_ ?_
    · rintro _ _ ⟨st, st', rfl, rfl, hrun⟩
      cases hrun
      rfl
    · rintro _ _ rfl
      exact hbody _ _ hs₁
  · exact hbody _ _ (Nat.le_refl _)

/-- The type of an application has the terms of the patterns as its arguments. -/
def Constructed (k : Checker) (c : ConApp Term) (lo hi : Nat) (type : Term) : Prop :=
  lo ≤ type.stamp ∧ type.stamp < hi ∧ ∃ d : DataType Term, type.node = .data d ∧
    ∀ ps, (k.sig.con c.con).patterns = some ps → Pattern.StandForAll lo hi ps d.args

theorem yields_dataType (c : ConApp Term) (hlo : lo ≤ s.next) :
    Yields (c.dataType k.sig fuel) s fun d s' => s.next ≤ s'.next ∧
      ∀ ps, (k.sig.con c.con).patterns = some ps → Pattern.StandForAll lo s'.next ps d.args := by
  unfold ConApp.dataType
  dsimp only
  cases hps : (k.sig.con c.con).patterns with
  | none => exact .pure ⟨Nat.le_refl _, fun _ h => by cases h⟩
  | some ps =>
    refine Yields.bind (Pattern.yields_patternTerms ps fuel _ s hlo) ?_
    intro args s' hargs
    refine .pure ⟨hargs.1, ?_⟩
    intro qs hqs
    cases hqs
    exact hargs.2

theorem yields_constructor (scope : Scope) (t : Term) (c : ConApp Term) :
    Yields (constructor k fuel (term k fuel) scope t c) s fun type s' =>
      Constructed k c s.next s'.next type := by
  refine Yields.bind (yields_next_callArgs s.next fuel scope t _ _ _ (Nat.le_refl _)) ?_
  intro σ s₁ hs₁
  refine Yields.bind (yields_next_callArgs s.next fuel scope t _ _ _ hs₁) ?_
  intro _ s₂ hs₂
  refine Yields.bind (yields_dataType fuel c hs₂).liftCore ?_
  intro d s₃ hd
  refine (Yields.build ⟨?_, Nat.lt_succ_self _, d, rfl, ?_⟩).liftCore
  · exact Nat.le_trans hs₂ hd.1
  · exact fun ps hps => (hd.2 ps hps).mono (Nat.le_refl _) (Nat.le_succ _)

/-- The comparison with the expected instance. -/
theorem yields_compareTypes {type : Term} {stamp hi : Nat} (htype : Constructed k c lo hi type)
    (hhi : hi ≤ s.next) (hstamps : (Term.mk stamp (.data d)).Stamps (· < lo))
    (hps : (k.sig.con c.con).patterns = some ps) (hfaithful : Pattern.allFaithful ps)
    (hfaces : Pattern.FacesAll ps d.args) :
    Yields (k.compareTypes fuel .le type (.mk stamp (.data d))) s fun answer _ =>
      answer = true → Pattern.AcceptsAll ps d.args := by
  obtain ⟨hlo, -, e, hnode, hstands⟩ := htype
  obtain ⟨stamp', node⟩ := type
  cases hnode
  refine Yields.bind (P := fun _ s' => hi ≤ s'.next) ?_ ?_
  · exact (Yields.build (Nat.le_succ_of_le hhi)).liftCore
  intro omega s₁ hs₁
  refine Yields.liftCheck ?_
  unfold Solver.compare
  cases fuel with
  | zero => exact .throw
  | succ fuel =>
    refine Conversion.yields_step rfl rfl ?_ ?_
    · have hstamp : stamp < lo := hstamps.stamp
      have hlo : lo ≤ stamp' := hlo
      show stamp' ≠ stamp
      omega
    show Yields (if e.data = d.data then _ else _ : Solver Bool) s₁ _
    by_cases hdata : e.data = d.data
    · rw [if_pos hdata]
      refine (Conversion.yields_args hs₁ fun hlen => ?_).mono fun _ _ h => h.2
      refine Conversion.yields_pairs ps fuel _ s₁ hfaithful (hstands ps hps) hfaces ?_ hlen hs₁
      intro b hb
      cases hstamps with
      | mk _ hterms =>
        have hb := hterms b (List.mem_map_of_mem hb)
        exact hb.mono fun n hn => .inl hn
    · rw [if_neg hdata]
      exact .pure (by simp)

/-- An application that is accepted at an instance: the arguments of the instance match the
patterns of the constructor. -/
theorem yields_conAccepts {stamp stamp' : Nat} (scope : Scope)
    (hstamps : (Term.mk stamp' (.data d)).Stamps (· < s.next))
    (hps : (k.sig.con c.con).patterns = some ps) (hfaithful : Pattern.allFaithful ps)
    (hfaces : Pattern.FacesAll ps d.args) :
    Yields (term k fuel scope (.mk stamp (.con c)) (some (.mk stamp' (.data d)))) s fun _ _ =>
      Pattern.AcceptsAll ps d.args := by
  cases fuel with
  | zero => exact .throw
  | succ fuel =>
    refine yields_traced (yields_next_quote fuel _) fun scope s₁ hs₁ => ?_
    have hstamps₁ := hstamps.mono fun n hn => Nat.lt_of_lt_of_le hn hs₁
    refine Yields.bind (yields_constructor fuel scope _ c) ?_
    intro type s₂ htype
    refine Yields.bind (yields_compareTypes fuel htype (Nat.le_refl _) hstamps₁ hps hfaithful
      hfaces) ?_
    intro answer s₃ hanswer
    cases answer with
    | true => exact .pure (hanswer rfl)
    | false =>
      refine Yields.bind (P := fun _ _ => True) (fun _ _ _ => trivial) ?_
      intro text s₄ _
      exact Yields.bind (P := fun _ _ => False) .throw fun _ _ h => h.elim

end Typing

/-- If an application of a constructor is accepted at an instance of a data type, then the
instance admits the constructor, and the constructor is one of those that a match on the
instance goes through. The patterns of all constructors face the arguments of the instance,
whose nodes were made before the check; the patterns of the constructor in question are no
more than the terms that are made of them. -/
theorem check_con_admitted (k : Checker) (fuel : Nat) (Γ : Context) (stamp stamp' : Nat)
    (c : ConApp Term) (d : DataType Term) (type : Term) (st st' : CheckState)
    (hcheck : k.check fuel Γ (.mk stamp (.con c)) (some (.mk stamp' (.data d))) st = .ok type st')
    (hmem : c.con ∈ (k.sig.data d.data).constructors)
    (hfaces : ∀ e ∈ (k.sig.data d.data).constructors, d.Faces k.sig e)
    (hstamps : (Term.mk stamp' (.data d)).Stamps (· < st.solver.store.next))
    (hfaithful : ∀ ps, (k.sig.con c.con).patterns = some ps → Pattern.allFaithful ps)
    (fuel' : Nat) (s : Store) :
    (∃ dataArgs s', d.admission k.sig (fuel' + 1) c.con s = .ok (.admitted dataArgs) s') ∧
      ∃ found s', d.admitted k.sig (fuel' + 1) s = .ok (some found) s' ∧
        c.con ∈ found.map Prod.fst := by
  have haccepts : d.Accepts k.sig c.con := by
    intro ps hps
    have hyields : Yields (k.check fuel Γ (.mk stamp (.con c)) (some (.mk stamp' (.data d))))
        st.solver.store fun _ _ => Pattern.AcceptsAll ps d.args :=
      Typing.yields_conAccepts fuel (.ofContext Γ) hstamps hps (hfaithful ps hps)
        (hfaces c.con hmem ps hps)
    exact hyields type st'.solver.store ⟨st, st', rfl, rfl, hcheck⟩
  constructor
  · rcases DataType.admission_cases (hfaces c.con hmem) fuel' s with ⟨-, h⟩ | ⟨hrefuses, -⟩
    · exact h
    · exact absurd haccepts hrefuses
  · obtain ⟨found, s', hrun, hiff⟩ := DataType.run_admitted hfaces fuel' s
    exact ⟨found, s', hrun, (hiff c.con).mpr ⟨hmem, haccepts⟩⟩

/-! ## Tuples in patterns -/

namespace TuplePattern

/-- The pairs of natural numbers. -/
def pairs : SigmaType Term :=
  ⟨.set0, [⟨⟨13, .param, "a"⟩, some (.mk 14 .nat), true⟩, ⟨⟨15, .param, "b"⟩, some (.mk 16 .nat), true⟩]⟩

/-- A data type over pairs. -/
def data : DataName := ⟨18, "D"⟩

/-- The constructor of the pairs of zero and any number. -/
def con : ConName := ⟨20, "k"⟩

def n : Var := ⟨21, .param, "n"⟩

def checker : Checker where
  sig := (Prelude.signature.setData data
      ⟨[⟨⟨19, .param, "p"⟩, some (.mk 17 (.sigma pairs)), true⟩], .set0, []⟩).addConstructor con
    ⟨data, some [.tuple [.con Prelude.zero [], .bind n (.mk 22 .nat)]], []⟩
  span := default
  traceDepth := 0

/-- The instance at the pair of one and zero. -/
def instanceAtOne : DataType Term :=
  ⟨data, .set0, [.mk 23 (.tuple [.mk 24 (.suc (.mk 25 .zero)), .mk 26 .zero]
    ⟨27, pairs⟩)]⟩

/-- The constructor with zero for its variable. -/
def application : ConApp Term := ⟨con, .set0, [.mk 28 .zero], []⟩

def state : CheckState := .ofStore (.start 31)

/-- The data type is fine. The application is accepted at an instance that refuses its
constructor. -/
theorem refused_constructor_accepted :
    (∃ st', checker.checkData 20 .empty data state = .ok () st') ∧
      (∃ type st', checker.check 20 .empty (.mk 29 (.con application))
        (some (.mk 30 (.data instanceAtOne))) state = .ok type st') ∧
      ∃ s', instanceAtOne.admission checker.sig 20 con state.solver.store = .ok .refused s' := by
  have hsucceeds : (checker.checkData 20 .empty data).succeeds state := by decide +kernel
  obtain ⟨_, st', hdata⟩ := Check.exists_ok hsucceeds
  refine ⟨⟨st', hdata⟩, Check.exists_ok (by decide +kernel), ?_⟩
  exact ⟨_, rfl⟩

end TuplePattern

namespace RewrittenArgument

def data : DataName := ⟨13, "D"⟩

/-- The constructor of the pairs of positive numbers. -/
def con : ConName := ⟨14, "k"⟩

def signature : Signature :=
  let suc (x : Var) : Pattern Term := .con Prelude.suc [.bind x (.mk 15 .nat)]
  let params := [⟨⟨16, .param, "m"⟩, none, true⟩, ⟨⟨17, .param, "n"⟩, some (.mk 15 .nat), true⟩]
  (Prelude.signature.setData data ⟨params, .set0, []⟩).addConstructor con
    ⟨data, some [suc ⟨18, .param, "a"⟩, suc ⟨19, .param, "b"⟩], []⟩

def w : Var := ⟨20, .param, "w"⟩

/-- The type `D c ((\lam w => suc c) 5)`, for the let clause `c`. -/
def type : DataType Term :=
  let c : Term := .mk 21 (.ref ⟨22, .clause, "c"⟩)
  let function : Term := .mk 23 (.lam .set0 [⟨w, some (.mk 15 .nat), true⟩] (.mk 24 (.suc c)))
  ⟨data, .set0, [c, .mk 25 (.app function (.mk 26 (.int 5)))]⟩

/-- A state in which `c` is defined by `suc w`. -/
def state : SolverState :=
  .ofStore { Store.start 30 with
    clauses := Table.empty.insert 22 ⟨.mk 27 (.suc (.mk 28 (.ref w))), none⟩ }

/-- Whether the type of the constructor, as the type admits it, is equal to the type. -/
def comparison : Solver (Option Bool) := do
  match ← type.admission signature 20 con with
  | .admitted args =>
    let t ← Core.build (.data (← ConApp.dataType signature 20 ⟨con, .set0, args, []⟩))
    some <$> Solver.compare signature 20 default .eq t (.mk 29 (.data type)) none
  | _ => return none

end RewrittenArgument

/-! ## Literals against patterns -/

namespace LiteralPattern

/-- A data type over numbers. -/
def data : DataName := ⟨13, "E"⟩

/-- The constructor of the positive numbers. -/
def con : ConName := ⟨15, "l"⟩

def m : Var := ⟨16, .param, "m"⟩

def patterns : List (Pattern Term) := [.con Prelude.suc [.bind m (.mk 17 .nat)]]

def checker : Checker where
  sig := (Prelude.signature.setData data
      ⟨[⟨⟨14, .param, "n"⟩, some (.mk 18 .nat), true⟩], .set0, []⟩).addConstructor con
    ⟨data, some patterns, []⟩
  span := default
  traceDepth := 0

/-- The instance at two, and the constructor with one for its variable. -/
def instanceAtTwo : DataType Term := ⟨data, .set0, [.mk 19 (.int 2)]⟩

def application : ConApp Term := ⟨con, .set0, [.mk 20 (.int 1)], []⟩

theorem faces_two : Pattern.FacesAll patterns instanceAtTwo.args := by
  refine ⟨⟨⟨_, [.mk 0 (.int 1)], .suc (by decide)⟩, ?_⟩, trivial⟩
  intro ts h
  cases h with
  | suc _ => exact ⟨trivial, trivial⟩

theorem stamps_two : (Term.mk 22 (.data instanceAtTwo)).Stamps (· < 31) := by
  refine ⟨by decide, ?_⟩
  intro t ht
  obtain rfl : t = .mk 19 (.int 2) := by simpa [instanceAtTwo] using ht
  exact ⟨by decide, fun u hu => by cases hu⟩

/-- The application is accepted at the instance, and the instance admits its constructor. -/
theorem positive_admitted_at_two :
    (∃ type st', checker.check 20 .empty (.mk 21 (.con application))
        (some (.mk 22 (.data instanceAtTwo))) TuplePattern.state = .ok type st') ∧
      (∃ dataArgs s', instanceAtTwo.admission checker.sig 20 con TuplePattern.state.solver.store =
        .ok (.admitted dataArgs) s') ∧
      ∃ found s', instanceAtTwo.admitted checker.sig 20 TuplePattern.state.solver.store =
        .ok (some found) s' ∧ con ∈ found.map Prod.fst := by
  have hsucceeds : (checker.check 20 .empty (.mk 21 (.con application))
      (some (.mk 22 (.data instanceAtTwo)))).succeeds TuplePattern.state := by decide +kernel
  obtain ⟨type, st', hcheck⟩ := Check.exists_ok hsucceeds
  refine ⟨⟨type, st', hcheck⟩, ?_⟩
  refine check_con_admitted checker 20 .empty 21 22 application instanceAtTwo type _ st' hcheck
    (by decide) ?_ stamps_two ?_ 19 _
  · intro e he ps hps
    obtain rfl : e = con := List.mem_singleton.mp he
    cases hps
    exact faces_two
  · intro ps hps
    cases hps
    rfl

end LiteralPattern

end Recheck
