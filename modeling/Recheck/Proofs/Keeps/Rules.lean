import Recheck.Proofs.Keeps.Patterns
import Recheck.Typing.Terms

/-!
# Recheck — what the rules of the checker do beside checking

The rules look up variables, reduce and compare types and write errors. All of this keeps
invariants, and so do the rules that go on from a single check.
-/

namespace Recheck

namespace Typing

variable {R : Region} {I : SolverState → Prop} {k : Checker}

/-- The recursive call of the checker keeps the invariant on terms of the region. -/
def Respects (R : Region) (I : SolverState → Prop)
    (self : Scope → Term → Option Term → Check Term) : Prop :=
  ∀ scope t expected, scope.Within R → t.Within R →
    (∀ u, expected = some u → u.Within R) → Keeps I (self scope t expected) (Term.Within R)

variable {self} (hI : SolverInvariant k.sig R I) (hsig : k.sig.Within R) (hself : Respects R I self)
variable {scope : Scope} {x : Var} {t : Term}

include hself in
theorem Respects.infer (hscope : scope.Within R) (ht : t.Within R) :
    Keeps I (self scope t none) (Term.Within R) :=
  hself scope t none hscope ht (by simp)

include hself in
theorem Respects.against {type : Term} (hscope : scope.Within R) (ht : t.Within R)
    (htype : type.Within R) : Keeps I (self scope t (some type)) (Term.Within R) :=
  hself scope t (some type) hscope ht (by simpa using htype)

include hI

include hself in
theorem keeps_typeIn (sort : USort) (hscope : scope.Within R) (ht : t.Within R) :
    Preserves I (typeIn self scope t sort) := by
  refine (hI.build (by trivial)).core fun u hu => ?_
  exact (hself.against hscope ht hu).then_pure

theorem keeps_typeOf (hscope : scope.Within R) (hx : x.kind = .clause → R.refers x.serial) :
    Keeps I (scope.typeOf x) fun o => ∀ t, o = some t → t.Within R := by
  have hentry : ∀ t, (scope.context.entry? x).bind ContextEntry.type = some t → t.Within R := by
    intro t ht
    obtain ⟨e, he, htype⟩ := Option.bind_eq_some_iff.mp ht
    exact hscope.1 e (List.mem_of_find?_eq_some he) t htype
  rw [Scope.typeOf]
  split
  next hkind =>
    split
    next type heq =>
      refine .pure ?_
      rintro _ ⟨rfl⟩
      exact hscope.2 _ (mem_of_lookup heq)
    next => exact (hI.clause (hx hkind)).core fun c hc => .pure hc.1.2
  next => exact (hI.readUnknown x).core fun u hu => .pure hu
  next => exact .pure hentry
  next =>
    split
    next type heq => exact .pure (fun t ht => hentry t (ht ▸ heq))
    next => exact .throw

theorem keeps_variableType (t : Term) (hscope : scope.Within R)
    (hx : x.kind = .clause → R.refers x.serial) :
    Keeps I (variableType k scope t x) (Term.Within R) := by
  rw [variableType]
  split
  · exact keeps_refuse_bind _ _
  refine (keeps_typeOf hI hscope hx).bind fun o ho => ?_
  cases o with
  | some type => exact .pure (ho type rfl)
  | none => exact keeps_refuse _

theorem keeps_boundsInScope (scope : Scope) (t : Term) (v : Var) (exprs : Mapping Term) :
    Preserves I (boundsInScope k scope t v exprs) := by
  refine (hI.readUnknown v).core fun u _ => ?_
  dsimp only
  split
  · exact keeps_refuse _
  · exact .pure trivial

theorem keeps_unknownType (v : Var) : Keeps I (unknownType v) (Term.Within R) := by
  refine (hI.readUnknown v).core fun u hu => ?_
  split
  next type heq => exact .pure (hu type heq)
  next => exact .throw

theorem keeps_propEqualityDomain (f : FuncName) (sortArg : USort) :
    Keeps I (propEqualityDomain f sortArg) fun o => ∀ t, o = some t → t.Within R := by
  rw [propEqualityDomain]
  split
  · refine (hI.build (by trivial)).core fun t ht => .pure ?_
    rintro _ ⟨rfl⟩
    exact ht
  · exact .pure (by simp)

include hsig

variable (fuel : Nat)

/-- Every rule ends with a comparison of the inferred type and the expected one, if any. -/
theorem keeps_conclude {expected : Option Term} {actual : Term} (t : Term)
    (hexpected : ∀ u, expected = some u → u.Within R) (hactual : actual.Within R) :
    Keeps I (conclude k fuel t expected actual) (Term.Within R) := by
  cases expected with
  | none => exact .pure hactual
  | some type =>
    have htype := hexpected type rfl
    refine (keeps_compareTypes hI hsig fuel .le hactual htype).bind fun b _ => ?_
    split
    · exact (hI.print fuel htype).core fun _ _ => keeps_refuse_bind _ _
    · exact .pure htype

theorem keeps_levelPairs {proof type : Term} {columns : List (Column Term)} (fuel : Nat)
    (htype : type.Within R) (hcolumns : R.Holds (columns.flatMap Column.parts)) :
    Preserves I (levelPairs k fuel proof type columns) := by
  match columns with
  | [] | [_] => exact .pure trivial
  | c :: d :: rest =>
    simp only [List.flatMap_cons, Region.holds_append] at hcolumns
    obtain ⟨hc, hd, hrest⟩ := hcolumns
    have hloop : ∀ accepted : Bool, Keeps I (do
        if !accepted then
          refuse ((k.about .malformedLevelProof proof).note
            ("expected parameters of type " ++ (← (type.quote k.sig fuel : Check String))))
        let a ← (Core.build (.ref c.var) : Check Term)
        let b ← Core.build (.ref d.var)
        let type ← equalityTerm .prop type a b
        levelPairs k fuel proof type rest : Check Unit) fun _ => True := by
      intro accepted
      dsimp only
      split
      · exact (hI.quote fuel htype).core fun _ _ => keeps_refuse_bind _ _
      refine (hI.buildRef (Column.holds_iff.mp hc).1).core fun a ha => ?_
      refine (hI.buildRef (Column.holds_iff.mp hd).1).core fun b hb => ?_
      refine (hI.build ?_).core fun type htype => keeps_levelPairs fuel htype hrest
      simpa using ⟨htype, ha, hb⟩
    rw [levelPairs]
    refine (keeps_typeM hc).core fun u hu => ?_
    refine (keeps_compareTypes hI hsig fuel .eq hu htype).bind fun b _ => ?_
    refine Keeps.ite ?_ (Keeps.bind (P := fun _ => True) (.pure trivial) fun b _ => hloop b)
    refine (keeps_typeM hd).core fun u hu => ?_
    exact (keeps_compareTypes hI hsig fuel .eq hu htype).bind fun b _ => hloop b

include hself

theorem keeps_sortOf (hscope : scope.Within R) (ht : t.Within R) :
    Preserves I (sortOf k fuel self scope t) := by
  refine (hself.infer hscope ht).bind fun type htype => ?_
  refine (hI.whnf hsig fuel htype).core fun type htype => ?_
  split
  · exact .pure trivial
  · exact (hI.quote fuel htype).core fun _ _ => keeps_refuse _

theorem keeps_projection {u : Term} (t : Term) (index : Int64) (hscope : scope.Within R)
    (hu : u.Within R) : Keeps I (projection k fuel self scope t u index) (Term.Within R) := by
  refine (hself.infer hscope hu).bind fun type htype => ?_
  refine (hI.whnf hsig fuel htype).core fun type htype => ?_
  split
  next s heq =>
    have hcolumns := Telescope.holds_columns (htype.parts heq)
    rw [Region.holds_flatMap] at hcolumns
    dsimp only
    split
    · exact keeps_refuse_bind _ _
    refine (Keeps.mapM fun i _ => (hI.makeProj (.ofNat i) hu).liftCore).bind fun projs hprojs => ?_
    split
    · exact .throw
    next c rest hdrop =>
      have hc : R.Holds c.parts := by
        have hmem : c ∈ c :: rest := (.head _)
        rw [← hdrop] at hmem
        exact hcolumns c (List.mem_of_mem_drop hmem)
      refine (keeps_typeM hc).core fun type htype => ?_
      refine (hI.subst fuel htype (Substitution.holds_of ?_)).liftCore
      refine Mapping.holds_insertVars Mapping.holds_empty (fun x hx => ?_) hprojs
      obtain ⟨column, hmem, rfl⟩ := List.mem_map.mp hx
      exact (Column.holds_iff.mp (hcolumns column (List.mem_of_mem_take hmem))).1
  next => exact keeps_refuse _

theorem keeps_openField {this : Term} (t : Term) (r : RecordType Term) (promised : Option Int64)
    (f : FieldName) (hscope : scope.Within R) (hthis : this.Within R) :
    Preserves I (recordType.openField k fuel self scope t r this promised f) := by
  have hlevels := Solver.lasting_keeps hI.toLevelInvariant
  refine (hI.fieldTypeAt hsig fuel f r.sortArg hthis).core fun type htype => ?_
  refine (keeps_sortOf hI hsig hself fuel hscope htype).bind fun sort _ => ?_
  split
  · exact .pure trivial
  refine (hlevels.compareLevels _ _ _ _).liftCheck.bind fun _ _ => ?_
  refine Keeps.ite (Keeps.ite (.pure trivial) ?_) (keeps_refuse _)
  refine (hlevels.compareLevels _ _ _ _).liftCheck.bind fun _ _ => ?_
  exact Keeps.ite (.pure trivial) (keeps_refuse _)

theorem keeps_levelProof {proof type : Term} (hscope : scope.Within R) (hproof : proof.Within R)
    (htype : type.Within R) : Preserves I (levelProof k fuel self scope proof type) := by
  refine (hself.infer hscope hproof).bind fun proofType hproofType => ?_
  refine (hI.piParameters hsig fuel hproofType).core fun r hr => ?_
  dsimp only
  split
  · exact (hI.quote fuel hr.2).core fun _ _ => keeps_refuse_bind _ _
  split
  · exact keeps_refuse_bind _ _
  exact (keeps_levelPairs hI hsig fuel htype hr.1).then_pure

end Typing

end Recheck
