import Recheck.Proofs.Keeps.Conversion
import Recheck.Typing.Exhaustiveness
import Recheck.Typing.Trees

/-!
# Recheck — checking pattern matches keeps invariants

Patterns, the nodes of decision trees and the search for missing cases. What is in scope has
to keep to the region, as well as the match itself.
-/

namespace Recheck

variable {scope : Scope} {A : Type} {Q : A → Prop} {type : Option Term}

/-- The types of the variables in scope keep to the region. -/
def Scope.Within (R : Region) (scope : Scope) : Prop :=
  (∀ e ∈ scope.context.entries, ∀ t, e.type = some t → t.Within R) ∧
    ∀ e ∈ scope.inferred, e.2.Within R

theorem Scope.Within.mono {R R' : Region} (h : scope.Within R) (hle : R ≤ R') : scope.Within R' :=
  ⟨fun e he t ht => (h.1 e he t ht).mono hle, fun e he => (h.2 e he).mono hle⟩

/-- All variables in scope have a property. -/
def Scope.Over (V : Var → Prop) (scope : Scope) : Prop := ∀ x ∈ scope.context.vars, V x

variable {R : Region} {I : SolverState → Prop} {k : Checker}

/-! ## The setting of a check -/

theorem keeps_refuse (e : TypeError) :
    Keeps I (refuse e : Check A) Q := .throw

/-- Nothing comes after an error. -/
theorem keeps_refuse_bind {B : Type} {Q : B → Prop} (e : TypeError) (f : A → Check B) :
    Keeps I (refuse e >>= f) Q :=
  (keeps_refuse e).bind (P := fun _ => False) fun _ h => h.elim

theorem keeps_traced {text : Check String} {body : Scope → Check A} (hscope : scope.Within R)
    (htext : Preserves I text)
    (hbody : ∀ scope : Scope, scope.Within R → Keeps I (body scope) Q) :
    Keeps I (traced k scope text body) Q := by
  rw [traced]
  split
  · refine htext.bind fun _ _ => ?_
    exact Keeps.bind (P := fun _ => True) (Keeps.modify fun _ _ hs => hs) fun _ _ => hbody _ hscope
  · exact hbody _ hscope

theorem keeps_addVar (x : Var) (t : Term) (hscope : scope.Within R)
    (htype : ∀ u, type = some u → u.Within R) :
    Keeps I (k.addVar scope x type t) fun scope' =>
      scope'.Within R ∧ scope'.context.vars = x :: scope.context.vars := by
  rw [Checker.addVar]
  split
  next context heq =>
    rw [Context.add?] at heq
    split at heq
    · cases heq
    · obtain rfl := Option.some.inj heq
      exact .pure ⟨⟨List.forall_mem_cons.mpr ⟨htype, hscope.1⟩, hscope.2⟩, rfl⟩
  · exact keeps_refuse _

/-- A variable that has the property comes into a scope whose variables have it. -/
theorem keeps_addVar_over {V : Var → Prop} {x : Var} (t : Term)
    (hscope : scope.Within R ∧ scope.Over V) (htype : ∀ u, type = some u → u.Within R) (hx : V x) :
    Keeps I (k.addVar scope x type t) fun scope => scope.Within R ∧ scope.Over V := by
  refine (keeps_addVar x t hscope.1 htype).mono fun scope' h => ⟨h.1, ?_⟩
  rw [Scope.Over, h.2]
  exact List.forall_mem_cons.mpr ⟨hx, hscope.2⟩

theorem keeps_typeM {c : Column Term} (hc : R.Holds c.parts) :
    Keeps I c.typeM (Term.Within R) := by
  rw [Column.typeM]
  split
  next t ht => exact .pure ((Column.holds_iff.mp hc).2 t ht)
  · exact .throw

variable (hI : SolverInvariant k.sig R I) (hsig : k.sig.Within R)

include hI

theorem keeps_paramRefs {ps : Telescope Term} (hps : R.Holds ps.parts) :
    Keeps I (paramRefs ps) fun ts => ∀ t ∈ ts, t.Within R := by
  refine Keeps.mapM fun p hp => hI.buildRef ?_
  exact Telescope.binds_of_mem_vars hps (List.mem_map_of_mem hp)

include hsig

theorem keeps_compareTypes {a b : Term} (fuel : Nat) (r : Relation) (ha : a.Within R)
    (hb : b.Within R) : Preserves I (k.compareTypes fuel r a b) := by
  refine (hI.build (by trivial)).core fun _ _ => ?_
  exact (hI.compare hsig fuel k.span r _ ha hb).liftCheck

namespace Typing

variable {type resultType : Term} {d : DataType Term} {m : Mapping Term} {ps : Telescope Term}
  {columns : List (Column Term)}

/-! ## Patterns -/

variable (fuel : Nat)

theorem keeps_patternDataType (p : Pattern Term) (htype : type.Within R) :
    Keeps I (patternDataType k fuel p type) fun r =>
      r.1.Within R ∧ ∀ t ∈ r.2.args, t.Within R := by
  refine (hI.whnf hsig fuel htype).core fun type htype => ?_
  split
  next d heq =>
    have h := htype.node heq
    exact .pure ⟨htype, h⟩
  · exact keeps_refuse _

theorem keeps_admitted (type : Term) (hd : ∀ t ∈ d.args, t.Within R) :
    Keeps I (admitted k fuel type d) fun cons => ∀ e ∈ cons, ∀ t ∈ e.2, t.Within R := by
  refine (hI.admitted hsig fuel hd).core fun o ho => ?_
  cases o with
  | some cons => exact .pure (ho cons rfl)
  | none => exact keeps_refuse _

theorem keeps_requireAdmitted (type : Term) (c : ConName) (undetermined refused : String)
    (hd : ∀ t ∈ d.args, t.Within R) :
    Keeps I (requireAdmitted k fuel type d c undetermined refused) fun ts =>
      ∀ t ∈ ts, t.Within R := by
  rw [requireAdmitted]
  split
  · exact keeps_refuse_bind _ _
  · refine (hI.admission hsig fuel c hd).core fun r hr => ?_
    cases r with
    | undetermined => exact keeps_refuse _
    | refused => exact keeps_refuse _
    | admitted dataArgs => exact .pure hr

omit hI hsig in
theorem keeps_patternFields (p : Pattern Term) (type : Term) (r : RecordType Term)
    (fields : List FieldName) : Preserves I (patternFields k p type r fields) := by
  rw [patternFields]
  dsimp only
  split
  · exact keeps_refuse_bind _ _
  · split
    · exact .pure trivial
    · exact keeps_refuse _

omit hI hsig in
theorem keeps_patternCount (expected found : Nat) :
    Preserves I (patternCount k expected found) := by
  rw [patternCount]
  dsimp only
  split
  · exact keeps_refuse_bind _ _
  · split
    · exact keeps_refuse _
    · exact .pure trivial

omit hI hsig in
theorem Substitution.holds_identity :
    R.Holds Substitution.identity.exprs.parts := Mapping.holds_empty

section Over

variable {V : Var → Prop}
variable (hnew : Keeps I (Core.freshVar .param "_") fun x => R.Binds x ∧ V x)

include hnew

set_option linter.unusedSectionVars false in
mutual

/-- The variables in scope of a pattern are those from before, those that the pattern binds
and new ones. -/
theorem keeps_pattern {scope : Scope} {type : Term} (fuel : Nat)
    (hscope : scope.Within R ∧ scope.Over V) (htype : type.Within R) :
    ∀ p : Pattern Term, R.Holds p.parts → (∀ b ∈ p.bindings, V b.1) →
      Keeps I (pattern k fuel scope type p) fun r => r.1.Within R ∧ r.2.Within R ∧ r.2.Over V
  | .bind x declared => by
    intro hp hbind
    simp only [Pattern.parts, Pattern.bindings, List.flatMap_cons, List.flatMap_nil,
      List.append_nil, Region.holds_cons, Part.within_binder, Part.within_term] at hp
    have hvar : Keeps I (k.addVar scope x (some declared) type) fun scope =>
        scope.Within R ∧ scope.Over V :=
      keeps_addVar_over type hscope (by simpa using hp.2.1)
        (hbind (x, declared) (by simp))
    rw [pattern]
    refine (hI.buildRef hp.1).core fun ref href => ?_
    refine (keeps_compareTypes hI hsig fuel .eq htype hp.2.1).bind fun b _ => ?_
    split
    · exact (hI.print fuel htype).core fun _ _ => keeps_refuse_bind _ _
    · exact hvar.bind fun scope hscope => .pure ⟨href, hscope⟩
  | .wild => by
    intro _ _
    rw [pattern]
    refine hnew.core fun x hx => ?_
    refine (keeps_addVar_over type hscope (by simpa using htype) hx.2).bind fun scope hscope => ?_
    exact (hI.buildRef hx.1).core fun ref href => .pure ⟨href, hscope⟩
  | .absurd => by
    intro _ _
    rw [pattern]
    refine (keeps_patternDataType hI hsig fuel _ htype).bind fun r hr => ?_
    refine (keeps_admitted hI hsig fuel _ hr.2).bind fun cons _ => ?_
    split
    · exact keeps_refuse_bind _ _
    · refine (hI.build (by simp)).core fun hole hhole => ?_
      exact .pure ⟨hhole, hscope⟩
  | .con c ps => by
    intro hp hbind
    rw [pattern]
    refine (keeps_patternDataType hI hsig fuel _ htype).bind fun r hr => ?_
    refine (keeps_requireAdmitted hI hsig fuel _ c _ _ hr.2).bind fun dataArgs hdataArgs => ?_
    refine (keeps_patternCount _ _).bind fun _ _ => ?_
    refine (keeps_patternRow fuel hscope (Substitution.holds_of (hsig.dataMapping c hdataArgs)) _
      ps (Telescope.holds_columns (hsig.con c)) hp hbind).bind fun q hq => ?_
    refine (hI.build ?_).core fun t ht => .pure ⟨ht, hq.2.2⟩
    exact ⟨hdataArgs, hq.1⟩
  | .tuple ps => by
    intro hp hbind
    rw [pattern]
    refine (hI.whnf hsig fuel htype).core fun whnf hwhnf => ?_
    split
    next s heq =>
      have hs := hwhnf.parts heq
      refine (keeps_patternCount _ _).bind fun _ _ => ?_
      refine (keeps_patternRow fuel hscope Substitution.holds_identity _ ps
        (Telescope.holds_columns hs) hp hbind).bind fun q hq => ?_
      refine (hI.build ?_).core fun t ht => .pure ⟨ht, hq.2.2⟩
      exact ⟨hq.1, hs⟩
    · exact keeps_refuse _
  | .record fields ps => by
    intro hp hbind
    rw [pattern]
    refine (hI.whnf hsig fuel htype).core fun whnf hwhnf => ?_
    split
    next r heq =>
      have hr := hwhnf.parts heq
      refine (keeps_patternFields _ _ _ _).bind fun _ _ => ?_
      refine (hI.fieldParams hsig (r := ⟨whnf.stamp, r⟩) fuel hr).core fun params hps => ?_
      refine (keeps_patternCount _ _).bind fun _ _ => ?_
      refine (keeps_patternRow fuel hscope Substitution.holds_identity _ ps
        (Telescope.holds_columns hps) hp hbind).bind fun q hq => ?_
      exact (hI.makeRecord fuel hr hq.1).core fun t ht => .pure ⟨ht, hq.2.2⟩
    · exact keeps_refuse _

theorem keeps_patternRow {scope : Scope} {σ : Substitution} (fuel : Nat)
    (hscope : scope.Within R ∧ scope.Over V) (hσ : R.Holds σ.exprs.parts) :
    ∀ (columns : List (Column Term)) (ps : List (Pattern Term)),
      R.Holds (columns.flatMap Column.parts) → R.Holds (Pattern.partsOf ps) →
      (∀ b ∈ Pattern.bindingsOf ps, V b.1) →
      Keeps I (patternRow k fuel scope σ columns ps) fun r =>
        (∀ t ∈ r.1, t.Within R) ∧ R.Holds r.2.1.exprs.parts ∧ r.2.2.Within R ∧ r.2.2.Over V
  | c :: cs, p :: ps => by
    intro hcs hps hbind
    rw [Pattern.bindingsOf, List.forall_mem_append] at hbind
    rw [List.flatMap_cons, Region.holds_append] at hcs
    rw [Pattern.partsOf_cons, Region.holds_append] at hps
    have hvar : R.Binds c.var := (Column.holds_iff.mp hcs.1).1
    rw [patternRow]
    refine (keeps_typeM hcs.1).core fun type htype => ?_
    refine (hI.subst fuel htype hσ).core fun type htype => ?_
    refine (keeps_pattern fuel hscope htype p hps.1 hbind.1).bind fun r hr => ?_
    refine (keeps_patternRow fuel hr.2 (Mapping.holds_insert_var hσ hvar hr.1) cs ps hcs.2
      hps.2 hbind.2).bind fun q hq => .pure ?_
    exact ⟨List.forall_mem_cons.mpr ⟨hr.1, hq.1⟩, hq.2⟩
  | [], _ | _ :: _, [] => by
    intro _ _ _
    unfold patternRow
    exact .pure ⟨by simp, hσ, hscope⟩

end

theorem keeps_patterns {σ : Substitution} {ps : List (Pattern Term)} (fuel : Nat)
    (hscope : scope.Within R ∧ scope.Over V) (hσ : R.Holds σ.exprs.parts)
    (hcolumns : R.Holds (columns.flatMap Column.parts)) (hps : R.Holds (Pattern.partsOf ps))
    (hbind : ∀ b ∈ Pattern.bindingsOf ps, V b.1) :
    Keeps I (patterns k fuel scope σ columns ps) fun r =>
      (∀ t ∈ r.1, t.Within R) ∧ R.Holds r.2.1.exprs.parts ∧ r.2.2.Within R ∧ r.2.2.Over V :=
  (keeps_patternCount _ _).bind fun _ _ =>
    keeps_patternRow hI hsig hnew fuel hscope hσ columns ps hcolumns hps hbind

end Over

/-! ## Nodes of decision trees -/

theorem keeps_nodeParams {V : Var → Prop} (hscope : scope.Within R ∧ scope.Over V)
    (hm : R.Holds m.parts) (hps : R.Holds ps.parts)
    (hcolumns : R.Holds (columns.flatMap Column.parts)) (hvars : ∀ x ∈ ps.vars, V x) :
    Keeps I (nodeParams k fuel scope m ps columns) fun r =>
      (r.1.Within R ∧ r.1.Over V) ∧ R.Holds r.2.1.parts ∧
        R.Holds (r.2.2.flatMap Column.parts) := by
  induction ps generalizing scope m columns with
  | nil => exact .pure ⟨hscope, hm, hcolumns⟩
  | cons p ps ih =>
    cases columns with
    | nil => exact keeps_refuse _
    | cons c columns =>
      rw [List.flatMap_cons, Region.holds_append] at hcolumns
      rw [Telescope.vars, List.map_cons, List.forall_mem_cons] at hvars
      obtain ⟨hx, -, hrest⟩ := Telescope.holds_cons.mp hps
      have hvar : R.Binds c.var := (Column.holds_iff.mp hcolumns.1).1
      rw [nodeParams]
      refine (keeps_typeM hcolumns.1).core fun type htype => ?_
      refine (hI.subst fuel htype hm).core fun type htype => ?_
      refine (Conversion.keeps_headTypeM hps).core fun declared hdeclared => ?_
      refine (hI.buildRef hx).core fun ref href => ?_
      refine (keeps_compareTypes hI hsig fuel .eq htype hdeclared).bind fun b _ => ?_
      split
      · exact (hI.print fuel htype).core fun _ _ => keeps_refuse_bind _ _
      · refine (keeps_addVar_over _ hscope (by simpa using hdeclared) hvars.1).bind
          fun scope hscope => ?_
        refine (hI.compose fuel hm (Substitution.holds_single hvar href)).core
          fun m hm => ?_
        exact ih hscope hm hrest hcolumns.2 hvars.2

theorem keeps_branchKey (key : BranchKey) (htype : type.Within R) :
    Keeps I (branchKey k fuel type key) fun r =>
      r.1.Within R ∧ R.Holds r.2.parts := by
  cases key with
  | con c =>
    rw [branchKey]
    split
    next d heq =>
      have hd := htype.node heq
      refine (keeps_requireAdmitted hI hsig fuel _ c _ _ hd).bind fun dataArgs hdataArgs => ?_
      refine (hI.substParams fuel (hsig.con c)
        (Substitution.holds_of (hsig.dataMapping c hdataArgs))).core fun r hr => ?_
      refine (keeps_paramRefs hI hr.1).core fun refs hrefs => ?_
      refine (hI.build ?_).core fun value hvalue => .pure ⟨hvalue, hr.1⟩
      exact ⟨hdataArgs, hrefs⟩
    · exact keeps_refuse _
  | tuple size =>
    rw [branchKey]
    dsimp only
    split
    next s heq =>
      have hs : R.Holds (Telescope.parts s.params) := htype.parts heq
      split
      · exact keeps_refuse_bind _ _
      · refine (hI.substParams fuel hs Substitution.holds_identity).core fun r hr => ?_
        refine (keeps_paramRefs hI hr.1).core fun refs hrefs => ?_
        refine (hI.build ?_).core fun value hvalue => .pure ⟨hvalue, hr.1⟩
        exact ⟨hrefs, hs⟩
    · exact keeps_refuse _
  | record name sort implemented =>
    rw [branchKey]
    split
    next r heq =>
      have hr := htype.parts heq
      have hrest : Keeps I (do
          let params ← (fieldParams k.sig fuel ⟨type.stamp, r⟩ : Check (Telescope Term))
          let refs ← paramRefs params
          let value ← makeRecord k.sig fuel r refs
          return (value, params) : Check (Term × Telescope Term)) fun r =>
            r.1.Within R ∧ R.Holds r.2.parts := by
        refine (hI.fieldParams hsig (r := ⟨type.stamp, r⟩) fuel hr).core fun ps hps => ?_
        refine (keeps_paramRefs hI hps).core fun refs hrefs => ?_
        exact (hI.makeRecord fuel hr hrefs).core fun value hvalue => .pure ⟨hvalue, hps⟩
      split
      · exact keeps_refuse_bind _ _
      · dsimp only
        split
        · exact keeps_refuse_bind _ _
        · exact hrest
    · exact keeps_refuse _

theorem keeps_branchCoverage (keys : List BranchKey) (htype : type.Within R) :
    Preserves I (branchCoverage k fuel type keys) := by
  rw [branchCoverage]
  split
  next d heq =>
    have hd := htype.node heq
    refine (keeps_admitted hI hsig fuel _ hd).bind fun cons _ => ?_
    split
    · exact .pure trivial
    · exact keeps_refuse _
  · split
    · exact keeps_refuse _
    · exact .pure trivial

/-! ## Missing cases -/

omit hI hsig

section Matrix

variable {next : List (List (Pattern Term)) → List (Column Term) → Mapping Term →
  Check (Option (List (Pattern Term)))}
variable (hnext : ∀ rows columns m, R.Holds (columns.flatMap Column.parts) → R.Holds m.parts →
  Keeps I (next rows columns m) fun _ => True)
variable {rows : List (List (Pattern Term))} {x : Var}

include hnext

theorem keeps_splitColumn {value : Term} (select : Pattern Term → Option (List (Pattern Term)))
    (build : List (Pattern Term) → Pattern Term) (hx : R.Binds x)
    (hcolumns : R.Holds (columns.flatMap Column.parts)) (hm : R.Holds m.parts)
    (hvalue : value.Within R) (hps : R.Holds ps.parts) :
    Preserves I (splitColumn next rows x columns m value ps select build) := by
  refine (hnext _ _ _ ?_ (Mapping.holds_insert_var hm hx hvalue)).then_pure
  rw [List.flatMap_append, Region.holds_append]
  exact ⟨Telescope.holds_columns hps, hcolumns⟩

include hI hsig

theorem keeps_splitData (d : DataType Term) {cons : List (ConName × List Term)} (fuel : Nat)
    (hx : R.Binds x) (hcolumns : R.Holds (columns.flatMap Column.parts)) (hm : R.Holds m.parts)
    (hcons : ∀ e ∈ cons, ∀ t ∈ e.2, t.Within R) :
    Preserves I (splitData k fuel next rows x columns m d cons) := by
  induction cons with
  | nil => exact .pure trivial
  | cons e cons ih =>
    obtain ⟨c, dataArgs⟩ := e
    rw [List.forall_mem_cons] at hcons
    rw [splitData]
    refine (hI.substParams fuel (hsig.con c) (Substitution.holds_of
      (Mapping.holds_insertAll hm (hsig.dataMapping c hcons.1)))).core fun r hr => ?_
    refine (keeps_paramRefs hI hr.1).core fun refs hrefs => ?_
    refine (hI.build ?_).core fun value hvalue => ?_
    · exact ⟨hcons.1, hrefs⟩
    refine (keeps_splitColumn hnext _ _ hx hcolumns hm hvalue hr.1).bind fun o _ => ?_
    cases o with
    | some missing => exact .pure trivial
    | none => exact ih hcons.2

theorem keeps_split (fuel : Nat) (hx : R.Binds x)
    (hcolumns : R.Holds (columns.flatMap Column.parts)) (hm : R.Holds m.parts)
    (htype : type.Within R) : Preserves I (split k fuel next rows x columns m type) := by
  rw [split]
  split
  next d heq =>
    have hd := htype.node heq
    refine (keeps_admitted hI hsig fuel _ hd).bind fun cons hcons => ?_
    exact keeps_splitData hI hsig hnext d fuel hx hcolumns hm hcons
  next s heq =>
    have hs : R.Holds (Telescope.parts s.params) := htype.parts heq
    refine (hI.substParams fuel hs (Substitution.holds_of hm)).core
      fun r hr => ?_
    refine (keeps_paramRefs hI hr.1).core fun refs hrefs => ?_
    refine (hI.build ?_).core fun value hvalue => ?_
    · exact ⟨hrefs, hs⟩
    exact keeps_splitColumn hnext _ _ hx hcolumns hm hvalue hr.1
  next r heq =>
    have hr := htype.parts heq
    refine (hI.fieldParams hsig (r := ⟨type.stamp, r⟩) fuel hr).core fun ps hps => ?_
    refine (keeps_paramRefs hI hps).core fun refs hrefs => ?_
    refine (hI.makeRecord fuel hr hrefs).core fun value hvalue => ?_
    exact keeps_splitColumn hnext _ _ hx hcolumns hm hvalue hps
  next => exact keeps_refuse _

theorem keeps_missingStep (fuel : Nat) (hcolumns : R.Holds (columns.flatMap Column.parts))
    (hm : R.Holds m.parts) : Preserves I (missingStep k fuel next rows columns m) := by
  cases columns with
  | nil => exact .pure trivial
  | cons c columns =>
    rw [List.flatMap_cons, Region.holds_append] at hcolumns
    have hvar : R.Binds c.var := (Column.holds_iff.mp hcolumns.1).1
    rw [missingStep]
    refine (keeps_typeM hcolumns.1).core fun type htype => ?_
    refine (hI.subst fuel htype (Substitution.holds_of hm)).core fun type htype => ?_
    refine (hI.whnf hsig fuel htype).core fun type htype => ?_
    split
    · exact .pure trivial
    split
    · split
      next d heq =>
        have hd := htype.node heq
        refine (hI.admitted hsig fuel hd).core fun o _ => ?_
        split
        · exact .pure trivial
        · exact .pure trivial
      · exact .pure trivial
    split
    · exact keeps_split hI hsig hnext fuel hvar hcolumns.2 hm htype
    · exact (hnext _ _ _ hcolumns.2 hm).then_pure

end Matrix

include hI hsig

theorem keeps_missing {rows : List (List (Pattern Term))}
    (hcolumns : R.Holds (columns.flatMap Column.parts)) (hm : R.Holds m.parts) :
    Preserves I (missing k fuel rows columns m) := by
  induction fuel generalizing rows columns m with
  | zero => exact .throw
  | succ fuel ih =>
    exact keeps_missingStep hI hsig (fun _ _ _ hcs hm => ih hcs hm) fuel hcolumns hm

theorem keeps_exhaustive (t : Option Term) (e : Elim Term) (hps : R.Holds ps.parts) :
    Preserves I (exhaustive k fuel t ps e) := by
  rw [exhaustive]
  split
  · exact .pure trivial
  refine (keeps_missing hI hsig fuel (Telescope.holds_columns hps) Mapping.holds_empty).bind
    fun o _ => ?_
  cases o with
  | none => exact .pure trivial
  | some ps => exact keeps_refuse _

end Typing

end Recheck
