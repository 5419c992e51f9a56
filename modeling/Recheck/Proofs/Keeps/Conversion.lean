import Recheck.Proofs.Keeps.Observation

/-!
# Recheck — comparison keeps invariants

Comparing terms does two things that reduction does not: it puts off comparisons, and it
assigns terms to occurrences of unknowns. A `LevelInvariant` survives the putting off of
comparisons of levels, an `EquationInvariant` also that of comparisons of terms, and a
`ComparisonInvariant` assignments as well, so that it is kept by every comparison.

Only occurrences that are not solved yet are assigned to, and only if equations between terms
are accepted. An invariant for which that is enough is a `SolverInvariant`.
-/

namespace Recheck

variable {a b : Term}

/-- An invariant that survives the putting off of comparisons of levels, where that is
accepted. -/
structure LevelInvariant (sig : Signature) (R : Region) (I : SolverState → Prop) : Prop
    extends Invariant sig R I where
  deferLevel : ∀ {st} (e : LevelEquation), I st → st.equations.deferLevels = true →
    I { st with equations.levels := st.equations.levels ++ [e] }

/-- An invariant that survives the putting off of comparisons, where that is accepted. -/
structure EquationInvariant (sig : Signature) (R : Region) (I : SolverState → Prop) : Prop
    extends LevelInvariant sig R I where
  defer : ∀ {st} (e : Equation), I st → st.equations.levelsOnly = false →
    I { st with equations.deferred := st.equations.deferred ++ [e] }

/-- The property, where equations between terms are accepted. -/
def Accepting (I : SolverState → Prop) (st : SolverState) : Prop :=
  I st ∧ st.equations.levelsOnly = false

/-- An invariant that survives the assignment of a term to an occurrence of an unknown. -/
structure ComparisonInvariant (sig : Signature) (R : Region) (I : SolverState → Prop) : Prop
    extends EquationInvariant sig R I where
  assign : ∀ {ref t : Term} (fuel : Nat) (ρ : Renaming), t.Within R →
    Keeps (Accepting I) (Conversion.assignBare sig fuel ρ ref t) fun _ => True

/-- An invariant that survives the solution of an occurrence of an unknown. -/
structure SolverInvariant (sig : Signature) (R : Region) (I : SolverState → Prop) : Prop
    extends EquationInvariant sig R I where
  solve : ∀ {s q n t}, I ⟨s, q⟩ → q.levelsOnly = false → s.solutions.get? n = none →
    t.Within R → I ⟨{ s with solutions := s.solutions.insert n t }, q⟩

variable {sig : Signature} {R : Region} {I : SolverState → Prop}

/-- Substitution changes neither solutions nor equations. -/
theorem Invariant.and_solutions (hI : Invariant sig R I) (p : Table Term → Equations → Prop) :
    Invariant sig R fun st => I st ∧ p st.store.solutions st.equations where
  good h := hI.good h.1
  number h := ⟨hI.number h.1, h.2⟩
  define h hc := ⟨hI.define h.1 hc, h.2⟩
  rewrite h₁ h hn hget he hrw := ⟨hI.rewrite h₁.1 h.1 hn hget he hrw, h.2⟩
  narrow h hu hdelaying hxs := ⟨hI.narrow h.1 hu hdelaying hxs, h.2⟩
  mapping h hm := ⟨hI.mapping h.1 hm, h.2⟩

/-! ## Equations -/

namespace Solver

/-- A property of operations that lasts while levels are compared, whether they are decided or put
off. -/
structure Lasting (P : Solver Bool → Prop) : Prop where
  pure : ∀ answer, P (pure answer)
  throw : ∀ e, P (throw e)
  putOff : ∀ e, P (addLevelEquation e)
  both : ∀ {x y}, P x → P y → P (do if ← x then y else return false)

namespace Lasting

variable {P : Solver Bool → Prop} (h : Lasting P) (span : Span) (r : Relation)

include h

theorem compareLevels (a b : Level) : P (compareLevels span r a b) := by
  have hle (a b : Level) : P (Level.compareWith.leWith
      (fun r a b => addLevelEquation ⟨a, b, r, span⟩) a b) := by
    rw [Level.compareWith.leWith]
    cases a.le b with
    | maybe => exact h.putOff _
    | _ => exact h.pure _
  cases r with
  | ge => exact hle b a
  | le => exact hle a b
  | eq =>
    show P (if a.equal b then _ else _)
    split
    · exact h.pure _
    · exact h.putOff _
  | other code => exact h.throw _

theorem compareSorts (a b : USort) : P (compareSorts span r a b) := by
  have hlevels (r : Relation) (a b : USort) : P (USort.compareWith.levelsWith
      (fun r a b => addLevelEquation ⟨a, b, r, span⟩) r a b) :=
    h.both (h.compareLevels span r a.p b.p) (h.compareLevels span r a.h b.h)
  have hle (a b : USort) : P (USort.compareWith.leWith
      (fun r a b => addLevelEquation ⟨a, b, r, span⟩) a b) := by
    rw [USort.compareWith.leWith]
    split
    · exact h.pure _
    · exact hlevels _ a b
  cases r with
  | ge => exact hle b a
  | le => exact hle a b
  | eq =>
    show P (if a.isProp && b.isProp then _ else _)
    split
    · exact h.pure _
    · exact hlevels _ a b
  | other code => exact hlevels _ a b

end Lasting

theorem takes_acceptsTerms : Takes I acceptsTerms
    (fun accepts st => I st ∧ (accepts = true → st.equations.levelsOnly = false)) I :=
  fun _ _ hst => ⟨hst, (Bool.not_eq_true' _).mp⟩

theorem takes_addEquation {K : SolverState → Prop} (e : Equation)
    (hdefer : ∀ st, Accepting I st →
      K { st with equations.deferred := st.equations.deferred ++ [e] }) :
    Takes I (addEquation e) (fun ok st => I st ∨ ok = true ∧ K st) I := by
  refine takes_acceptsTerms.bind fun accepts _ st hst => ?_
  cases accepts with
  | true => exact .inr ⟨rfl, hdefer st ⟨hst.1, hst.2 rfl⟩⟩
  | false => exact .inl hst.1

theorem keeps_addEquation (hI : EquationInvariant sig R I) (e : Equation) :
    Preserves I (addEquation e) :=
  Takes.mono (takes_addEquation e fun _ hst => hI.defer e hst.1 hst.2) (fun _ hst => hst)
    (fun _ _ hst => ⟨hst.elim id And.right, trivial⟩) fun _ hst => hst

variable (hI : LevelInvariant sig R I)

include hI

theorem keeps_addLevelEquation (e : LevelEquation) :
    Preserves I (addLevelEquation e) := by
  refine Takes.bind (Q := fun st₁ st => I st ∧ st₁ = st) (fun _ st hst => ⟨hst, rfl⟩)
    fun st₁ => ?_
  split
  next hdefer =>
    rintro _ st ⟨hst, rfl⟩
    exact ⟨hI.deferLevel e hst hdefer, trivial⟩
  next => exact .pure fun st hst => ⟨hst.1, trivial⟩

theorem lasting_keeps : Lasting (Preserves I) where
  pure _ := .pure trivial
  throw _ := .throw
  putOff := keeps_addLevelEquation hI
  both hx hy := hx.bind fun c _ => by
    split
    · exact hy
    · exact .pure trivial

theorem keeps_compareSorts (span : Span) (r : Relation) (a b : USort) :
    Preserves I (compareSorts span r a b) := (lasting_keeps hI).compareSorts span r a b

end Solver

/-! ## Unknowns -/

namespace Conversion

variable {t : Term} {K : SolverState → Prop} {as bs : List Term} {ps qs : Telescope Term}

theorem keeps_both {x y : Solver Bool} (hx : Preserves I x)
    (hy : Preserves I y) : Preserves I (both x y) := by
  refine hx.bind fun b _ => ?_
  split
  · exact hy
  · exact .pure trivial

theorem takes_solution? (t : Term) :
    Takes I (liftM (Core.solution? t) : Solver (Option Term))
      (fun o st => I st ∧ st.store.solutions.get? t.stamp = o) I := fun _ _ hs => ⟨hs, rfl⟩

/-- The unknown that a term is a bare occurrence of is not solved. -/
theorem takes_bareUnknown (t : Term) :
    Takes I (bareUnknown t)
      (fun o st => I st ∧ ∀ v, o = some v →
        t.node = .unknown v ∧ st.store.solutions.get? t.stamp = none) I := by
  refine (takes_solution? t).bind fun o => ?_
  split
  next v hnode =>
    refine .pure fun s hs => ⟨hs.1, fun w hw => ?_⟩
    rw [← Option.some.inj hw]
    exact ⟨hnode, hs.2⟩
  · exact .pure fun s hs => ⟨hs.1, by simp⟩

/-- Assigning to an occurrence that is not solved yet either leaves the solutions alone, or
solves the occurrence. -/
theorem takes_assign (hI : Invariant sig R I) {ref : Term} (fuel : Nat) (ρ : Renaming) (v : Var)
    (ht : t.Within R)
    (hsolve : ∀ s q, I ⟨s, q⟩ → s.solutions.get? ref.stamp = none →
      K ⟨{ s with solutions := s.solutions.insert ref.stamp t }, q⟩) :
    Takes (fun st => I st ∧ st.store.solutions.get? ref.stamp = none)
      (assign sig fuel ρ ref v t) (fun a st => I st ∨ a = .assigned ∧ K st) I := by
  have hJ := hI.and_solutions fun solutions _ => solutions.get? ref.stamp = none
  have hleft : ∀ st, I st ∧ st.store.solutions.get? ref.stamp = none → I st := fun _ h => h.1
  refine (hJ.find fuel _ ht).liftSolver.bind_takes hleft fun o _ => ?_
  split
  · exact .pure fun s hs => .inl hs.1
  refine (hJ.find fuel _ ht).liftSolver.bind_takes hleft fun o _ => ?_
  split
  · exact .pure fun s hs => .inl hs.1
  refine (hJ.readUnknown v).liftSolver.bind_takes hleft fun u _ => ?_
  refine (hJ.findFree fuel _ ht).liftSolver.bind_takes hleft fun o _ => ?_
  split
  · exact .pure fun s hs => .inl hs.1
  · exact fun _ st hs => .inr ⟨rfl, hsolve _ _ hs.1 hs.2⟩

theorem takes_assignBare (hI : Invariant sig R I) (fuel : Nat) (ρ : Renaming) (ref : Term)
    (ht : t.Within R)
    (hsolve : ∀ s q v, ref.node = .unknown v → I ⟨s, q⟩ → s.solutions.get? ref.stamp = none →
      K ⟨{ s with solutions := s.solutions.insert ref.stamp t }, q⟩) :
    Takes I (assignBare sig fuel ρ ref t) (fun o st => I st ∨ o = some true ∧ K st) I := by
  refine Takes.bind (takes_bareUnknown ref) fun o => ?_
  cases o with
  | none => exact .pure fun s hs => .inl hs.1
  | some v =>
    refine Takes.bind (Q := fun a s => I s ∨ a = .assigned ∧ K s) ?_ fun a => ?_
    · intro _ st hst
      obtain ⟨hstI, hnode⟩ := hst
      obtain ⟨hnode, hnone⟩ := hnode v rfl
      exact takes_assign hI fuel ρ v ht (fun s q => hsolve s q v hnode) () st ⟨hstI, hnone⟩
    · cases a with
      | assigned => exact .pure fun s hs => hs.imp_right fun h => ⟨rfl, h.2⟩
      | refused | postponed =>
        refine .pure fun s hs => hs.imp_right fun h => ?_
        cases h.1

theorem keeps_bareUnknown (hI : Invariant sig R I) (t : Term) :
    Preserves I (bareUnknown t) := by
  refine (hI.solution? t).liftSolver.bind fun o _ => ?_
  split
  · exact .pure trivial
  · exact .pure trivial

section Unknowns

-- `K` is what holds after an assignment or after a comparison that is put off
variable (hI : Invariant sig R I) (hsig : sig.Within R)
variable (hassign : ∀ {ref t} fuel ρ, t.Within R →
  Takes (Accepting I) (assignBare sig fuel ρ ref t)
    (fun o st => Accepting I st ∨ o = some true ∧ K st) I)
variable (hdefer : ∀ st e, Accepting I st →
  K { st with equations.deferred := st.equations.deferred ++ [e] })

include hI hsig hassign hdefer

/-- Where an unsolved unknown is met, there is an effect only if the answer is yes. -/
theorem takes_unknowns (fuel : Nat) (span : Span) (ρ : Renaming) (r : Relation)
    (type : Option Term) (ha : a.Within R) (hb : b.Within R) :
    Takes I (unknowns sig fuel span ρ r a b type) (fun o st => I st ∨ o = some true ∧ K st) I := by
  have hsame : ∀ st, I st → I st := fun _ hst => hst
  refine (hI.isWhnf hsig fuel ha).liftSolver.bind_takes hsame fun _ _ => ?_
  refine (hI.isWhnf hsig fuel hb).liftSolver.bind_takes hsame fun _ _ => ?_
  split
  · exact .pure fun _ => .inl
  refine (keeps_bareUnknown hI a).bind_takes hsame fun _ _ => ?_
  refine (keeps_bareUnknown hI b).bind_takes hsame fun _ _ => ?_
  split
  · exact .pure fun _ => .inl
  refine Solver.takes_acceptsTerms.bind fun accepts => ?_
  cases accepts with
  | false => exact .pure fun _ hst => .inl hst.1
  | true =>
  refine Takes.mono (P := Accepting I) ?_ (fun st hst => ⟨hst.1, hst.2 rfl⟩) (fun _ _ hst => hst)
    fun _ hst => hst
  refine (hassign fuel ρ hb).bind fun o => ?_
  cases o with
  | some answer => exact .pure fun _ hst => hst.imp_left And.left
  | none =>
  refine Takes.mono (P := Accepting I) ?_ (fun _ hst => hst.elim id fun h => by cases h.1)
    (fun _ _ hst => hst) fun _ hst => hst
  refine (hassign fuel ρ ha).bind fun o => ?_
  cases o with
  | some answer => exact .pure fun _ hst => hst.imp_left And.left
  | none =>
  refine Takes.mono (P := I) ?_ (fun _ hst => hst.elim And.left fun h => by cases h.1)
    (fun _ _ hst => hst) fun _ hst => hst
  refine (hI.stuckUnknown hsig fuel ha).liftSolver.bind_takes hsame fun _ _ => ?_
  refine (hI.stuckUnknown hsig fuel hb).liftSolver.bind_takes hsame fun _ _ => ?_
  refine (Solver.takes_addEquation _ fun st => hdefer st _).bind fun ok => ?_
  exact .pure fun _ hst => hst.imp_right fun h => ⟨congrArg some h.1, h.2⟩

end Unknowns

/-! ## Heads -/

variable (hL : LevelInvariant sig R I)
variable {self : Renaming → Relation → Term → Term → Option Term → Solver Bool}
variable (hself : ∀ ρ r a b type, a.Within R → b.Within R →
  Keeps I (self ρ r a b type) fun _ => True)

include hself

variable (ρ : Renaming)

theorem keeps_pairs (has : ∀ t ∈ as, t.Within R) (hbs : ∀ t ∈ bs, t.Within R) :
    Preserves I (pairs self ρ as bs) := by
  induction as generalizing bs with
  | nil => exact .pure trivial
  | cons a as ih =>
    cases bs with
    | nil => exact .pure trivial
    | cons b bs =>
      rw [List.forall_mem_cons] at has hbs
      exact keeps_both (hself _ _ _ _ _ has.1 hbs.1) (ih has.2 hbs.2)

theorem keeps_args (has : ∀ t ∈ as, t.Within R) (hbs : ∀ t ∈ bs, t.Within R) :
    Preserves I (args self ρ as bs) := by
  rw [args]
  split
  · exact keeps_pairs hself ρ has hbs
  · exact .pure trivial

omit hself in
theorem keeps_headTypeM (hps : R.Holds ps.parts) :
    Keeps I ps.headTypeM (Term.Within R) := by
  cases ps with
  | nil => exact .throw
  | cons p ps =>
    rw [Telescope.headTypeM, Column.typeM]
    split
    next t ht => exact .pure (Telescope.within_headType hps ht)
    · exact .throw

theorem keeps_params (r : Relation) (ρ : Renaming) (hps : R.Holds ps.parts)
    (hqs : R.Holds qs.parts) : Preserves I (params self r ρ ps qs) := by
  induction ps generalizing ρ qs with
  | nil =>
    cases qs with
    | nil => exact .pure trivial
    | cons q qs => exact .pure trivial
  | cons p ps ih =>
    cases qs with
    | nil => exact .pure trivial
    | cons q qs =>
      rw [params]
      refine (keeps_headTypeM hps).liftSolver.bind fun a ha => ?_
      refine (keeps_headTypeM hqs).liftSolver.bind fun b hb => ?_
      refine keeps_both (hself _ _ _ _ _ ha hb) (ih _ ?_ ?_)
      · exact (Telescope.holds_cons.mp hps).2.2
      · exact (Telescope.holds_cons.mp hqs).2.2

theorem keeps_firstParam {rest : Renaming → Telescope Term → Telescope Term → Solver Bool}
    (hps : R.Holds ps.parts) (hqs : R.Holds qs.parts)
    (hrest : ∀ ρ ps qs, R.Holds ps.parts → R.Holds qs.parts → Preserves I (rest ρ ps qs)) :
    Preserves I (firstParam self ρ ps qs rest) := by
  cases ps with
  | nil => exact .throw
  | cons p ps =>
    cases qs with
    | nil => exact .throw
    | cons q qs =>
      refine (keeps_headTypeM hps).liftSolver.bind fun a ha => ?_
      refine (keeps_headTypeM hqs).liftSolver.bind fun b hb => ?_
      refine keeps_both (hself _ _ _ _ _ ha hb) (hrest _ ps qs ?_ ?_)
      · exact (Telescope.holds_cons.mp hps).2.2
      · exact (Telescope.holds_cons.mp hqs).2.2

theorem keeps_impls (r : Relation) {a b : RecordType Term} (fs : List FieldName)
    (ha : R.Holds a.parts) (hb : R.Holds b.parts) : Preserves I (impls self ρ r a b fs) := by
  induction fs with
  | nil => exact .pure trivial
  | cons f fs ih =>
    rw [impls]
    split
    next ia ib hia hib =>
      refine keeps_both (hself _ _ _ _ _ ?_ ?_) ih
      · exact RecordType.within_impl? ha hia
      · exact RecordType.within_impl? hb hib
    · split
      · exact ih
      · exact .pure trivial
    · split
      · exact ih
      · exact .pure trivial
    · exact ih

theorem keeps_recordTypes (r : Relation) {a b : RecordType Term} (ha : R.Holds a.parts)
    (hb : R.Holds b.parts) : Preserves I (recordTypes sig self ρ r a b) := by
  rw [recordTypes]
  split
  · exact keeps_impls hself _ r _ ha hb
  · exact .pure trivial

include hL

theorem keeps_eta (fuel : Nat) (ρ : Renaming) (sort : USort) {body : Term}
    (hps : R.Holds ps.parts) (hbody : body.Within R) (ht : t.Within R) :
    Preserves I (eta sig fuel self ρ sort ps body t) := by
  cases ps with
  | nil => exact .throw
  | cons p ps =>
    obtain ⟨hx, -, hps⟩ := Telescope.holds_cons.mp hps
    refine (hL.buildRef hx).liftSolver.bind fun ref href => ?_
    refine (hL.makeApp fuel ht (by simpa using href)).liftSolver.bind fun app happ => ?_
    refine (hL.makeLam sort hps hbody).liftSolver.bind fun rest hrest => ?_
    exact hself _ _ _ _ _ hrest happ

theorem keeps_tupleEta (index : Nat) {us : List Term} (ht : t.Within R)
    (hus : ∀ u ∈ us, u.Within R) : Preserves I (tupleEta self ρ t index us) := by
  induction us generalizing index with
  | nil => exact .pure trivial
  | cons u us ih =>
    rw [List.forall_mem_cons] at hus
    rw [tupleEta]
    refine (hL.makeProj _ ht).liftSolver.bind fun proj hproj => ?_
    exact keeps_both (hself _ _ _ _ _ hus.1 hproj) (ih _ hus.2)

theorem keeps_recordEta (fuel : Nat) (ρ : Renaming) {value : Term} {r : RecordType Term}
    (fs : List FieldName) (hvalue : value.Within R) (hr : R.Holds r.parts) (ht : t.Within R) :
    Preserves I (recordEta sig fuel self ρ value r t fs) := by
  induction fs with
  | nil => exact .pure trivial
  | cons f fs ih =>
    rw [recordEta]
    refine (hL.implementation fuel f hr hvalue).liftSolver.bind fun o ho => ?_
    cases o with
    | none => exact .pure trivial
    | some impl =>
      refine (hL.makeField fuel f r.sortArg ht).liftSolver.bind fun proj hproj => ?_
      exact keeps_both (hself _ _ _ _ _ (ho impl rfl) hproj) ih

omit hself in
theorem keeps_literalCon (n : Int) :
    Keeps I (literalCon n) fun c => ∀ t ∈ c.dataArgs ++ c.args, t.Within R := by
  rw [literalCon]
  split
  · exact .pure (by simp)
  · exact (hL.build (by trivial)).bind fun t ht => .pure (by simpa using ht)

/-- Two terms in weak-head normal form; the cases follow the pairs of heads. -/
theorem keeps_heads (fuel : Nat) (span : Span) (ρ : Renaming) (r : Relation) (type : Option Term)
    (ha : a.Within R) (hb : b.Within R) :
    Preserves I (heads sig fuel span self ρ r a b type) := by
  have h := ha.node rfl
  have h' := hb.node rfl
  unfold heads
  generalize a.node = n, b.node = n' at h h'
  split
  next s ps body s' ps' body' =>
    refine keeps_firstParam hself ρ h.1 h'.1 fun ρ ps ps' hps hps' => ?_
    refine (hL.makeLam s hps h.2).liftSolver.bind fun x hx => ?_
    refine (hL.makeLam s' hps' h'.2).liftSolver.bind fun y hy => ?_
    exact hself _ _ _ _ _ hx hy
  next s ps body _ => exact keeps_eta hL hself fuel ρ s h.1 h.2 hb
  next s ps body _ => exact keeps_eta hL hself fuel ρ s h'.1 h'.2 ha
  next => exact keeps_args hself ρ h.1 h'.1
  next => exact keeps_tupleEta hL hself ρ 0 ha h'.1
  next => exact keeps_recordTypes hself ρ .eq h.2 h'.2
  next => exact keeps_recordEta hL hself fuel ρ _ hb h'.2 ha
  next => exact keeps_tupleEta hL hself ρ 0 hb h.1
  next => exact keeps_recordEta hL hself fuel ρ _ ha h.2 hb
  next => exact .pure trivial
  next => exact keeps_both (hself _ _ _ _ _ h.1 h'.1) (hself _ _ _ _ _ h.2 h'.2)
  next f _ us g _ vs =>
    split
    · exact keeps_args hself ρ h h'
    · exact .pure trivial
  next c d =>
    split
    · exact keeps_args hself ρ h.2 h'.2
    · exact .pure trivial
  next c n =>
    refine (keeps_literalCon hL n).liftSolver.bind fun d hd => ?_
    split
    · exact keeps_args hself ρ h.2 fun t ht => hd t (List.mem_append_right _ ht)
    · exact .pure trivial
  next c d =>
    split
    · exact keeps_args hself ρ h h'
    · exact .pure trivial
  next f _ u g _ v =>
    split
    · exact hself _ _ _ _ _ h h'
    · exact .pure trivial
  next => exact keeps_recordTypes hself ρ r h h'
  next s ps codomain s' ps' codomain' =>
    refine keeps_firstParam hself ρ h.1 h'.1 fun ρ ps ps' hps hps' => ?_
    refine (hL.makePi s hps h.2).liftSolver.bind fun x hx => ?_
    refine (hL.makePi s' hps' h'.2).liftSolver.bind fun y hy => ?_
    exact hself _ _ _ _ _ hx hy
  next => exact keeps_params hself r ρ h h'
  next u i v j =>
    split
    · exact hself _ _ _ _ _ h h'
    · exact .pure trivial
  next s s' =>
    split
    · exact .pure trivial
    · exact Solver.keeps_compareSorts hL span r s s'
  next => exact .pure trivial
  next n c =>
    refine (keeps_literalCon hL n).liftSolver.bind fun c hc => ?_
    rw [List.forall_mem_append] at hc
    refine (hL.build ?_).liftSolver.bind fun a ha => hself _ _ _ _ _ ha hb
    exact hc
  next c d =>
    simp only [Node.Within, CaseOf.parts, Region.holds_append, Region.holds_map,
      Part.within_term] at h h'
    split
    · exact keeps_args hself ρ h.1.1.1.1 h'.1.1.1.1
    · exact .pure trivial
  next => exact .pure trivial

/-- A comparison that fails has made no changes of its own: those that it leaves are of the
comparisons inside of it. -/
theorem takes_step (hsig : sig.Within R)
    (hassign : ∀ {ref t} fuel ρ, t.Within R →
      Takes (Accepting I) (assignBare sig fuel ρ ref t)
        (fun o st => Accepting I st ∨ o = some true ∧ K st) I)
    (hdefer : ∀ st e, Accepting I st →
      K { st with equations.deferred := st.equations.deferred ++ [e] })
    (fuel : Nat) (span : Span) (ρ : Renaming) (r : Relation) (type : Option Term)
    (ha : a.Within R) (hb : b.Within R) :
    Takes I (step sig fuel span self ρ r a b type) (fun ok st => I st ∨ ok = true ∧ K st) I := by
  have hsame : ∀ st, I st → I st := fun _ hst => hst
  rw [step]
  split
  · exact .pure fun _ => .inl
  refine (hL.whnf hsig fuel ha).liftSolver.bind_takes hsame fun a ha => ?_
  refine (hL.whnf hsig fuel hb).liftSolver.bind_takes hsame fun b hb => ?_
  split
  · exact .pure fun _ => .inl
  refine (takes_unknowns hL.toInvariant hsig hassign hdefer fuel span ρ r type ha hb).bind
    fun o => ?_
  cases o with
  | some answer =>
    exact .pure fun _ hst => hst.imp_right fun h => ⟨Option.some.inj h.1, h.2⟩
  | none =>
    exact Takes.mono (keeps_heads hL hself fuel span ρ r type ha hb)
      (fun _ hst => hst.elim id fun h => by cases h.1) (fun _ _ hst => .inl hst.1) hsame

omit hL hself in
theorem keeps_run (hI : ComparisonInvariant sig R I) (hsig : sig.Within R) (fuel : Nat)
    (span : Span) (ρ : Renaming) (r : Relation) (type : Option Term)
    (ha : a.Within R) (hb : b.Within R) :
    Preserves I (run sig span fuel ρ r a b type) := by
  induction fuel generalizing ρ r a b type with
  | zero => exact .throw
  | succ fuel ih =>
    refine Takes.mono (takes_step (K := I) hI.toLevelInvariant (fun ρ r a b type => ih ρ r type)
      hsig ?_ (fun _ e hst => hI.defer e hst.1 hst.2) fuel span ρ r type ha hb) (fun _ hst => hst)
      (fun _ _ hst => ⟨hst.elim id And.right, trivial⟩) fun _ hst => hst
    exact fun fuel ρ ht => Takes.mono (hI.assign fuel ρ ht) (fun _ hst => hst)
      (fun _ _ hst => .inl hst.1) fun _ hst => hst.1

end Conversion

theorem ComparisonInvariant.compare (hI : ComparisonInvariant sig R I) (hsig : sig.Within R)
    (fuel : Nat) (span : Span) (r : Relation) (type : Option Term) (ha : a.Within R)
    (hb : b.Within R) : Preserves I (Solver.compare sig fuel span r a b type) :=
  Conversion.keeps_run hI hsig fuel span .empty r type ha hb

theorem SolverInvariant.comparison (hI : SolverInvariant sig R I) :
    ComparisonInvariant sig R I where
  toEquationInvariant := hI.toEquationInvariant
  assign fuel ρ ht := by
    have hJ := hI.and_solutions fun _ equations => equations.levelsOnly = false
    refine Takes.mono (Conversion.takes_assignBare (K := Accepting I) hJ fuel ρ _ ht ?_)
      (fun _ hs => hs) ?_ fun _ hs => hs
    · exact fun s q v _ hs hnone => ⟨hI.solve hs.1 hs.2 hnone ht, hs.2⟩
    · exact fun o s hs => ⟨hs.elim id And.right, trivial⟩

theorem SolverInvariant.compare (hI : SolverInvariant sig R I) (hsig : sig.Within R) (fuel : Nat)
    (span : Span) (r : Relation) (type : Option Term) (ha : a.Within R) (hb : b.Within R) :
    Preserves I (Solver.compare sig fuel span r a b type) :=
  hI.comparison.compare hsig fuel span r type ha hb

end Recheck
