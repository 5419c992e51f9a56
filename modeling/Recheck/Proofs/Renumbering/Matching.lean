import Recheck.Proofs.Renumbering.Conversion
import Recheck.Proofs.Renumbering.Printing
import Recheck.Typing.Exhaustiveness
import Recheck.Typing.Trees

/-!
# Recheck — checks of pattern matches, seen from two runs

A check that succeeds on one side succeeds on the other. The scopes of the two sides have to
agree on the variables that correspond, and may differ in all others. The lines of a trace do
not matter, but whether one is printed does, since printing takes fuel and numbers: so there
is no trace at all, or one of everything.
-/

namespace Recheck

open List (Forall₂)

open Check (Fails)

section Failing

variable {β : Pairing} {A : Type} {R : A → A → Prop}

theorem Mirrors.refuse {e : TypeError} {x' : Check A} : Mirrors β (refuse e : Check A) x' R :=
  .failing (Fails.refuse e)

/-- A requirement that is refused on both sides or on neither. -/
theorem Mirrors.require {c c' : Prop} [Decidable c] [Decidable c'] {x x' y y' : Check A}
    (h : c ↔ c') (hx : Fails x) (hy : Mirrors β y y' R) :
    Mirrors β (if c then x else y) (if c' then x' else y') R :=
  .ite h (fun _ => .failing hx) fun _ => hy

end Failing

/-! ## Scopes -/

/-- The scopes agree on the variables that correspond. The types found for let clauses do not
matter, since no clauses do. -/
def Scope.Paired (β : Pairing) (scope scope' : Scope) : Prop :=
  scope.context.Paired β scope'.context

theorem Trace.reaches_eq {limit : Int64} (h : limit ≤ 0) (d d' : Nat) :
    reaches limit d = reaches limit d' := by
  rw [reaches, reaches]
  by_cases hlimit : limit < 0
  · simp [hlimit]
  · have h0 : limit.toInt.toNat = 0 := by
      have := Int64.le_iff_toInt_le.mp h
      simp only [Int64.toInt_zero] at this
      omega
    simp [h0]

section Scopes

variable {β : Pairing} {k : Checker} {scope scope' : Scope} (hscope : scope.Paired β scope')
variable {x x' : Var}

include hscope

/-- Checks that are traced alike. The texts of the trace may differ: the trace is no part of what
corresponds. -/
theorem mirrors_traced {A : Type} {R : A → A → Prop} (hk : k.traceDepth ≤ 0)
    {text text' : Check String} {body body' : Scope → Check A}
    (htext : Mirrors β text text' fun _ _ => True)
    (hbody : ∀ s s', s.Paired β s' → Mirrors β (body s) (body' s') R) :
    Mirrors β (traced k scope text body) (traced k scope' text' body') R := by
  have hinner : Mirrors β (body { scope with depth := scope.depth + 1 })
      (body' { scope' with depth := scope'.depth + 1 }) R :=
    hbody _ _ hscope
  refine Mirrors.ite ?_ (fun _ => ?_) fun _ => hinner
  · rw [Trace.reaches_eq hk scope.depth scope'.depth]
  · refine htext.bind fun _ _ _ => ?_
    refine (Mirrors.modify fun _ _ hs => ?_).bind fun _ _ _ => hinner
    exact hs

theorem mirrors_addVar {type type' : Option Term} {t t' : Term} (hx : x.Paired β x')
    (htype : Option.Rel (Term.Like β) type type') :
    Mirrors β (k.addVar scope x type t) (k.addVar scope' x' type' t') (Scope.Paired β) := by
  have hadd := Context.Paired.add? hscope hx htype
  rw [Checker.addVar, Checker.addVar]
  generalize scope.context.add? x type = o, scope'.context.add? x' type' = o' at hadd ⊢
  cases hadd with
  | none => exact .refuse
  | some hcontext => exact .pure hcontext

theorem mirrors_typeOf (hx : x.Paired β x') :
    Mirrors β (scope.typeOf x) (scope'.typeOf x') (Option.Rel (Term.Like β)) := by
  have htype : Option.Rel (Term.Like β) ((scope.context.entry? x).bind ContextEntry.type)
      ((scope'.context.entry? x').bind ContextEntry.type) := by
    have hentry := hscope x x' hx
    generalize scope.context.entry? x = o, scope'.context.entry? x' = o' at hentry ⊢
    cases hentry with
    | none => exact .none
    | some he =>
      obtain ⟨-, htype⟩ := he
      exact htype
  rw [Scope.typeOf, Scope.typeOf, ← hx.kind]
  -- let clauses do not correspond, so the variable is a parameter or given
  rcases β.var_kind hx.serial with hkind | hkind <;> rw [hkind]
  · dsimp only
    generalize (scope.context.entry? x).bind ContextEntry.type = o,
      (scope'.context.entry? x').bind ContextEntry.type = o' at htype ⊢
    cases htype with
    | some ht => exact .pure (.some ht)
    | none => exact .failing (Fails.throw _)
  · exact .pure htype

end Scopes

theorem mirrors_paramRefs {β : Pairing} {ps ps' : Telescope Term}
    (hps : Telescope.Like β ps ps') :
    Mirrors β (paramRefs ps) (paramRefs ps') (Term.AllLike β) :=
  Mirrors.mapM hps fun _ _ hp => mirrors_buildRef hp.var

/-- The data types correspond. -/
inductive DataType.Paired (β : Pairing) : DataType Term → DataType Term → Prop where
  | mk (d : DataName) (sort : USort) {args args' : List Term}
      (hargs : Term.AllLike β args args') : Paired β ⟨d, sort, args⟩ ⟨d, sort, args'⟩

namespace Typing

/-! ## Patterns -/

section Patterns

variable {β : Pairing} {k : Checker} (hsig : k.sig.Steady β) {fuel fuel' : Nat}
  (hle : fuel ≤ fuel')
variable {p p' : Pattern Term} {type type' : Term} {d d' : DataType Term}

theorem mirrors_patternCount (expected found : Nat) :
    Mirrors β (patternCount k expected found) (patternCount k expected found) fun _ _ => True :=
  .require Iff.rfl (Fails.refuse _).bind <|
    .ite Iff.rfl (fun _ => .refuse) fun _ => .pure trivial

theorem mirrors_patternFields {r r' : RecordType Term} (fields : List FieldName)
    (hr : r.Like β r') :
    Mirrors β (patternFields k p type r fields) (patternFields k p' type' r' fields)
      fun _ _ => True := by
  rw [patternFields, patternFields, k.sig.notImplemented_eq hr]
  refine .require Iff.rfl (Fails.refuse _).bind ?_
  generalize (fields.zip (k.sig.notImplemented r')).find? _ = o
  cases o with
  | none => exact .pure trivial
  | some e => exact .refuse

include hsig hle

theorem mirrors_compareTypes (r : Relation) {a a' b b' : Term} (ha : a.Like β a')
    (hb : b.Like β b') :
    Mirrors β (k.compareTypes fuel r a b) (k.compareTypes fuel' r a' b') Eq :=
  (mirrors_build (.univ .omega)).core fun _ _ _ =>
    (mirrors_compare hsig hle k.span r ha hb).liftCheck

theorem mirrors_patternDataType (htype : type.Like β type') :
    Mirrors β (patternDataType k fuel p type) (patternDataType k fuel' p' type') fun q q' =>
      q.1.Like β q'.1 ∧ q.2.Paired β q'.2 := by
  refine (mirrors_whnf hsig hle htype).core fun u u' hu => ?_
  obtain ⟨-, hnode⟩ := hu.destruct
  cases hnode with
  | data d sort hargs => exact .pure ⟨hu, .mk d sort hargs⟩
  | _ => exact .refuse

theorem mirrors_admitted (hd : d.Paired β d') :
    Mirrors β (admitted k fuel type d) (admitted k fuel' type' d')
      (Forall₂ (ConPaired β)) := by
  obtain ⟨d, sort, hargs⟩ := hd
  refine (Recheck.mirrors_admitted hsig hle d sort hargs).core fun o o' ho => ?_
  cases ho with
  | none => exact .refuse
  | some hcons => exact .pure hcons

/-- The same constructor is required of both, and admitted with corresponding arguments. -/
theorem mirrors_requireAdmitted (c : ConName) {words words' more more' : String}
    (hd : d.Paired β d') :
    Mirrors β (requireAdmitted k fuel type d c words more)
      (requireAdmitted k fuel' type' d' c words' more') (Term.AllLike β) := by
  obtain ⟨d, sort, hargs⟩ := hd
  refine .require Iff.rfl (Fails.refuse _).bind ?_
  refine (mirrors_admission hsig hle d sort c hargs).core fun a a' ha => ?_
  cases ha with
  | undetermined => exact .refuse
  | refused => exact .refuse
  | admitted hts => exact .pure hts

set_option linter.unusedSectionVars false in
mutual

theorem mirrors_pattern : ∀ {scope scope' : Scope} {type type' : Term} {p p' : Pattern Term},
    scope.Paired β scope' → type.Like β type' → p.Like β p' →
      Mirrors β (pattern k fuel scope type p) (pattern k fuel' scope' type' p') fun q q' =>
        q.1.Like β q'.1 ∧ q.2.Paired β q'.2
  | _, _, _, _, .bind .., _, hscope, htype, .bind hx hdeclared => by
    rw [pattern, pattern]
    refine (mirrors_buildRef hx).core fun ref ref' href => ?_
    refine (mirrors_compareTypes hsig hle .eq htype hdeclared).bind ?_
    rintro answer _ rfl
    refine .require Iff.rfl (.after fun _ => (Fails.refuse _).bind) ?_
    refine (mirrors_addVar hscope hx (.some hdeclared)).bind fun s s' hs => ?_
    exact .pure ⟨href, hs⟩
  | _, _, _, _, .wild, _, hscope, htype, .wild => by
    rw [pattern, pattern]
    refine (mirrors_freshParam _).core fun x x' hx => ?_
    refine (mirrors_addVar hscope hx (.some htype)).bind fun s s' hs => ?_
    exact (mirrors_buildRef hx).core fun ref ref' href => .pure ⟨href, hs⟩
  | _, _, _, _, .absurd, _, hscope, htype, .absurd => by
    rw [pattern, pattern]
    refine (mirrors_patternDataType hsig hle htype).bind ?_
    rintro ⟨whnf, d⟩ ⟨whnf', d'⟩ ⟨hwhnf, hd⟩
    refine (mirrors_admitted hsig hle hd).bind fun cons cons' hcons => ?_
    refine .require (by rw [forall₂_isEmpty hcons]) (Fails.refuse _).bind ?_
    refine (mirrors_build (.hole _ .none)).core fun hole hole' hhole => ?_
    exact .pure ⟨hhole, hscope⟩
  | _, _, _, _, .con .., _, hscope, htype, .con c hps => by
    rw [pattern, pattern]
    refine (mirrors_patternDataType hsig hle htype).bind ?_
    rintro ⟨whnf, d⟩ ⟨whnf', d'⟩ ⟨hwhnf, hd⟩
    refine (mirrors_requireAdmitted hsig hle c hd).bind fun ts ts' hts => ?_
    obtain ⟨d, sort, hargs⟩ := hd
    rw [hps.length_eq]
    refine (mirrors_patternCount _ _).bind fun _ _ _ => ?_
    refine (mirrors_patternRow hscope (.of (hsig.dataMapping c hts) _)
      (Telescope.Paired.columns (hsig.con c)) hps).bind ?_
    rintro ⟨args, σ, s⟩ ⟨args', σ', s'⟩ ⟨hargs, -, hs⟩
    refine (mirrors_build (.con c sort hts hargs)).core fun t t' ht => ?_
    exact .pure ⟨ht, hs⟩
  | _, _, _, _, .tuple _, _, hscope, htype, .tuple hps => by
    rw [pattern, pattern]
    refine (mirrors_whnf hsig hle htype).core fun u u' hu => ?_
    obtain ⟨hn, hnode⟩ := hu.destruct
    cases hnode with
    | sigma sort hparams =>
      have hcolumns := Telescope.Paired.columns hparams
      rw [Term.node, Term.node]
      dsimp only
      rw [hps.length_eq, hcolumns.length_eq]
      refine (mirrors_patternCount _ _).bind fun _ _ _ => ?_
      refine (mirrors_patternRow hscope .identity hcolumns hps).bind ?_
      rintro ⟨args, σ, s⟩ ⟨args', σ', s'⟩ ⟨hargs, -, hs⟩
      refine (mirrors_build (.tuple sort hargs hn hparams)).core
        fun t t' ht => ?_
      exact .pure ⟨ht, hs⟩
    | _ => exact .refuse
  | _, _, _, _, .record .., _, hscope, htype, .record fields hps => by
    rw [pattern, pattern]
    refine (mirrors_whnf hsig hle htype).core fun u u' hu => ?_
    obtain ⟨hn, hnode⟩ := hu.destruct
    cases hnode with
    | record hr =>
      refine (mirrors_patternFields fields hr).bind fun _ _ _ => ?_
      refine (mirrors_fieldParams hsig hle hn hr).core fun params params' hparams => ?_
      have hcolumns := Telescope.Paired.columns hparams
      dsimp only
      rw [hps.length_eq, hcolumns.length_eq]
      refine (mirrors_patternCount _ _).bind fun _ _ _ => ?_
      refine (mirrors_patternRow hscope .identity hcolumns hps).bind ?_
      rintro ⟨args, σ, s⟩ ⟨args', σ', s'⟩ ⟨hargs, -, hs⟩
      refine (mirrors_makeRecord hle hr hargs).core fun t t' ht => ?_
      exact .pure ⟨ht, hs⟩
    | _ => exact .refuse

theorem mirrors_patternRow : ∀ {scope scope' : Scope} {σ σ' : Substitution}
    {columns columns' : List (Column Term)} {ps ps' : List (Pattern Term)},
    scope.Paired β scope' → σ.Paired β σ' →
      Forall₂ (Column.Like β) columns columns' →
      Forall₂ (Pattern.Like β) ps ps' →
      Mirrors β (patternRow k fuel scope σ columns ps) (patternRow k fuel' scope' σ' columns' ps')
        fun q q' => Term.AllLike β q.1 q'.1 ∧ q.2.1.Paired β q'.2.1 ∧
          q.2.2.Paired β q'.2.2
  | _, _, _, _, _, _, [], _, hscope, hσ, hcolumns, .nil => by
    cases hcolumns with
    | nil => exact .pure ⟨.nil, hσ, hscope⟩
    | cons _ _ => exact .pure ⟨.nil, hσ, hscope⟩
  | _, _, _, _, _, _, _ :: _, _, hscope, hσ, hcolumns, .cons hp hps => by
    cases hcolumns with
    | nil => exact .pure ⟨.nil, hσ, hscope⟩
    | cons hc hcs =>
      rw [patternRow, patternRow]
      refine (mirrors_typeM hc).core fun type type' htype => ?_
      refine (mirrors_subst hle htype hσ).core fun type type' htype => ?_
      refine (mirrors_pattern hscope htype hp).bind ?_
      rintro ⟨t, s⟩ ⟨t', s'⟩ ⟨ht, hs⟩
      refine (mirrors_patternRow hs (hσ.bind hc.var ht) hcs hps).bind ?_
      rintro ⟨ts, τ, s⟩ ⟨ts', τ', s'⟩ ⟨hts, hτ, hs⟩
      exact .pure ⟨.cons ht hts, hτ, hs⟩

end

theorem mirrors_patterns {scope scope' : Scope} {σ σ' : Substitution}
    {columns columns' : List (Column Term)} {ps ps' : List (Pattern Term)}
    (hscope : scope.Paired β scope') (hσ : σ.Paired β σ')
    (hcolumns : Forall₂ (Column.Like β) columns columns')
    (hps : Forall₂ (Pattern.Like β) ps ps') :
    Mirrors β (patterns k fuel scope σ columns ps) (patterns k fuel' scope' σ' columns' ps')
      fun q q' => Term.AllLike β q.1 q'.1 ∧ q.2.1.Paired β q'.2.1 ∧
        q.2.2.Paired β q'.2.2 := by
  rw [patterns, patterns, hps.length_eq, hcolumns.length_eq]
  exact (mirrors_patternCount _ _).bind fun _ _ _ =>
    mirrors_patternRow hsig hle hscope hσ hcolumns hps

end Patterns

/-! ## Clauses and decision trees -/

theorem keys_eq {β : Pairing} {ts ts' : List (BranchKey × Tree Term)}
    (h : Tree.AllLike β ts ts') : ts.map Prod.fst = ts'.map Prod.fst := by
  induction ts generalizing ts' with
  | nil =>
    cases h with
    | nil => rfl
  | cons _ _ ih =>
    cases h with
    | cons key _ hrest => exact congrArg (key :: ·) (ih hrest)

/-- The recursive calls of two checks do the same. -/
def Alike (β : Pairing) (self self' : Scope → Term → Option Term → Check Term) : Prop :=
  ∀ {scope scope' t t' expected expected'}, scope.Paired β scope' → t.Like β t' →
    Option.Rel (Term.Like β) expected expected' →
      Mirrors β (self scope t expected) (self' scope' t' expected') (Term.Like β)

section Trees

variable {β : Pairing} {k : Checker} (hsig : k.sig.Steady β) (hk : k.traceDepth ≤ 0)
  {fuel fuel' : Nat} (hle : fuel ≤ fuel') {self self'} (hself : Alike β self self')
variable {scope scope' : Scope} {type type' result result' : Term} {ps ps' : Telescope Term}

/-- A term that is checked for nothing but its type. -/
theorem Alike.against (hself : Alike β self self') {t t' : Term} (hscope : scope.Paired β scope')
    (ht : t.Like β t') (htype : type.Like β type') :
    Mirrors β (do let _ ← self scope t (some type)) (do let _ ← self' scope' t' (some type'))
      fun _ _ => True :=
  (hself hscope ht (.some htype)).bind fun _ _ _ => .pure trivial

include hsig hk hle hself in
theorem mirrors_clause {c c' : Clause Term} (hscope : scope.Paired β scope')
    (hps : Telescope.Like β ps ps') (hresult : result.Like β result')
    (hc : c.Like β c') :
    Mirrors β (clause k fuel self scope ps result c) (clause k fuel' self' scope' ps' result' c')
      fun _ _ => True := by
  obtain ⟨hpatterns, hbody⟩ := hc
  refine mirrors_traced hscope hk (.pure trivial) fun s s' hs => ?_
  refine (mirrors_patterns hsig hle hs .identity (Telescope.Paired.columns hps) hpatterns).bind ?_
  rintro ⟨ts, σ, s⟩ ⟨ts', σ', s'⟩ ⟨-, hσ, hs⟩
  cases hbody with
  | none =>
    refine .ite ?_ (fun _ => .refuse) fun _ => .pure trivial
    rw [Pattern.Paired.anyAbsurd hpatterns]
  | some hbody =>
    refine (mirrors_subst hle hresult hσ).core fun type type' htype => ?_
    exact hself.against hs hbody htype

include hsig hle

theorem mirrors_nodeParams {m m' : Mapping Term} {columns columns' : List (Column Term)}
    (hscope : scope.Paired β scope') (hm : m.Like β m')
    (hps : Telescope.Like β ps ps')
    (hcolumns : Forall₂ (Column.Like β) columns columns') :
    Mirrors β (nodeParams k fuel scope m ps columns) (nodeParams k fuel' scope' m' ps' columns')
      fun q q' => q.1.Paired β q'.1 ∧ q.2.1.Like β q'.2.1 ∧
        Forall₂ (Column.Like β) q.2.2 q'.2.2 := by
  induction hps generalizing scope scope' m m' columns columns' with
  | nil => exact .pure ⟨hscope, hm, hcolumns⟩
  | cons hp hps ih =>
    cases hcolumns with
    | nil => exact .refuse
    | cons hc hcolumns =>
      rw [nodeParams, nodeParams]
      refine (mirrors_typeM hc).core fun type type' htype => ?_
      refine (mirrors_subst hle htype (.of hm _)).core fun type type' htype => ?_
      refine (mirrors_headTypeM (.cons hp hps)).core fun declared declared' hd => ?_
      refine (mirrors_buildRef hp.var).core fun ref ref' href => ?_
      refine (mirrors_compareTypes hsig hle .eq htype hd).bind ?_
      rintro answer _ rfl
      refine .require Iff.rfl (.after fun _ => (Fails.refuse _).bind) ?_
      refine (mirrors_addVar hscope hp.var (.some hd)).bind fun s s' hs => ?_
      refine (mirrors_compose hle hm (.single (.local hc.var) href) .empty).core fun m m' hm => ?_
      exact ih hs hm hcolumns

/-- What a branch selects is made of new variables on both sides, which correspond. -/
theorem mirrors_branchKey (htype : type.Like β type') (key : BranchKey) :
    Mirrors β (branchKey k fuel type key) (branchKey k fuel' type' key) fun q q' =>
      q.1.Like β q'.1 ∧ Telescope.Like β q.2 q'.2 := by
  obtain ⟨hn, hnode⟩ := htype.destruct
  cases key with
  | con c =>
    rw [branchKey, branchKey]
    cases hnode with
    | data d sort hargs =>
      refine (mirrors_requireAdmitted hsig hle c (.mk d sort hargs)).bind fun ts ts' hts => ?_
      refine (mirrors_substTelescope hle (hsig.con c) (.of (hsig.dataMapping c hts) _)).core
        fun q q' hq => ?_
      refine (mirrors_paramRefs hq.1).core fun refs refs' hrefs => ?_
      refine (mirrors_build (.con c sort hts hrefs)).core fun t t' ht => ?_
      exact .pure ⟨ht, hq.1⟩
    | _ => exact .refuse
  | tuple size =>
    rw [branchKey, branchKey]
    cases hnode with
    | sigma sort hps =>
      refine .require (by rw [hps.length_eq]) (Fails.refuse _).bind ?_
      refine (mirrors_substTelescope hle hps .identity).core fun q q' hq => ?_
      refine (mirrors_paramRefs hq.1).core fun refs refs' hrefs => ?_
      refine (mirrors_build (.tuple sort hrefs hn hps)).core fun t t' ht => ?_
      exact .pure ⟨ht, hq.1⟩
    | _ => exact .refuse
  | record name fields implemented =>
    rw [branchKey, branchKey]
    cases hnode with
    | record hr =>
      refine .require (by rw [hr.record]) (Fails.refuse _).bind ?_
      rw [hr.isImplemented]
      dsimp only
      generalize List.find? _ _ = o
      cases o with
      | some f => exact .failing (Fails.refuse _).bind
      | none =>
        refine (mirrors_fieldParams hsig hle hn hr).core fun ps ps' hps => ?_
        refine (mirrors_paramRefs hps).core fun refs refs' hrefs => ?_
        refine (mirrors_makeRecord hle hr hrefs).core fun t t' ht => ?_
        exact .pure ⟨ht, hps⟩
    | _ => exact .refuse

theorem mirrors_branchCoverage (htype : type.Like β type') (keys : List BranchKey) :
    Mirrors β (branchCoverage k fuel type keys) (branchCoverage k fuel' type' keys)
      fun _ _ => True := by
  have hother : Mirrors β (m := Check)
      (if keys.isEmpty then refuse ((k.about .nonExhaustive none).note "missing case: _") else pure ())
      (if keys.isEmpty then refuse ((k.about .nonExhaustive none).note "missing case: _") else pure ())
      fun _ _ => True := .ite Iff.rfl (fun _ => .refuse) fun _ => .pure trivial
  obtain ⟨-, hnode⟩ := htype.destruct
  rw [branchCoverage, branchCoverage]
  cases hnode with
  | data d sort hargs =>
    refine (mirrors_admitted hsig hle (.mk d sort hargs)).bind fun cons cons' hcons => ?_
    have hfind : Option.Rel (ConPaired β) (cons.find? fun c => !keys.contains (.con c.1))
        (cons'.find? fun c => !keys.contains (.con c.1)) :=
      forall₂_find? (fun c c' hc => by rw [hc.1]) hcons
    generalize cons.find? _ = o, cons'.find? _ = o' at hfind ⊢
    cases hfind with
    | none => exact .pure trivial
    | some _ => exact .refuse
  | _ => exact hother

include hk hself

set_option linter.unusedSectionVars false in
mutual

theorem mirrors_tree : ∀ {scope scope' : Scope} {m m' : Mapping Term} {result result' : Term}
    {columns columns' : List (Column Term)} {t t' : Tree Term}, scope.Paired β scope' →
    m.Like β m' → result.Like β result' →
    Forall₂ (Column.Like β) columns columns' →
    t.Like β t' →
      Mirrors β (tree k fuel self scope m result columns t)
        (tree k fuel' self' scope' m' result' columns' t') fun _ _ => True
  | _, _, _, _, _, _, _, _, .leaf .., _, hscope, hm, hresult, hcolumns, .leaf hps hbody => by
    rw [tree, tree]
    refine (mirrors_nodeParams hsig hle hscope hm hps hcolumns).bind ?_
    rintro ⟨s, m, columns⟩ ⟨s', m', columns'⟩ ⟨hs, hm, hcolumns⟩
    refine .require (by rw [forall₂_isEmpty hcolumns]) (Fails.refuse _).bind ?_
    refine (mirrors_subst hle hresult (.of hm _)).core fun type type' htype => ?_
    exact hself.against hs hbody htype
  | _, _, _, _, _, _, _, _, .branch .., _, hscope, hm, hresult, hcolumns, .branch hps hcs => by
    rw [tree, tree]
    refine (mirrors_nodeParams hsig hle hscope hm hps hcolumns).bind ?_
    rintro ⟨s, m, columns⟩ ⟨s', m', columns'⟩ ⟨hs, hm, hcolumns⟩
    cases hcolumns with
    | nil => exact .refuse
    | cons hc hcolumns =>
      refine (mirrors_typeM hc).core fun type type' htype => ?_
      refine (mirrors_subst hle htype (.of hm _)).core fun type type' htype => ?_
      refine (mirrors_whnf hsig hle htype).core fun type type' htype => ?_
      refine (mirrors_branches hs hm hresult htype hc.var hcolumns hcs).bind fun _ _ _ => ?_
      rw [keys_eq hcs]
      exact mirrors_branchCoverage hsig hle htype _

theorem mirrors_branches : ∀ {scope scope' : Scope} {m m' : Mapping Term}
    {result result' type type' : Term} {x x' : Var} {columns columns' : List (Column Term)}
    {ts ts' : List (BranchKey × Tree Term)}, scope.Paired β scope' →
    m.Like β m' → result.Like β result' → type.Like β type' → x.Paired β x' →
    Forall₂ (Column.Like β) columns columns' →
    Tree.AllLike β ts ts' →
      Mirrors β (branches k fuel self scope m result type x columns ts)
        (branches k fuel' self' scope' m' result' type' x' columns' ts') fun _ _ => True
  | _, _, _, _, _, _, _, _, _, _, _, _, [], _, _, _, _, _, _, _, .nil => by
    rw [branches, branches]
    exact .pure trivial
  | _, _, _, _, _, _, _, _, _, _, _, _, _ :: _, _, hscope, hm, hresult, htype, hx, hcolumns,
      .cons key ht hrest => by
    rw [branches, branches]
    refine Mirrors.bind (R := fun _ _ => True) ?_ fun _ _ _ =>
      mirrors_branches hscope hm hresult htype hx hcolumns hrest
    refine mirrors_traced hscope hk (.pure trivial) fun s s' hs => ?_
    refine (mirrors_branchKey hsig hle htype key).bind ?_
    rintro ⟨value, ps⟩ ⟨value', ps'⟩ ⟨hvalue, hps⟩
    exact mirrors_tree hs (hm.insert (.local hx) hvalue) hresult
      (List.rel_append (Telescope.Paired.columns hps) hcolumns) ht

end

theorem mirrors_elim {e e' : Elim Term} (hscope : scope.Paired β scope')
    (hps : Telescope.Like β ps ps') (hresult : result.Like β result')
    (he : e.Like β e') :
    Mirrors β (elim k fuel self scope ps result e) (elim k fuel' self' scope' ps' result' e')
      fun _ _ => True := by
  obtain ⟨-, hclauses, htree⟩ := he
  refine (Mirrors.forM hclauses fun _ _ hc =>
    mirrors_clause hsig hk hle hself hscope hps hresult hc).bind fun _ _ _ => ?_
  cases htree with
  | none => exact .pure trivial
  | some ht =>
    exact mirrors_tree hsig hk hle hself hscope .empty hresult (Telescope.Paired.columns hps) ht

end Trees

/-! ## Exhaustiveness -/

variable {rows rows' : List (List (Pattern Term))}

section Matrices

variable {β : Pairing}
variable {row row' : List (Pattern Term)}

/-- The matrices correspond, pattern by pattern. -/
abbrev RowsPaired (β : Pairing) (rows rows' : List (List (Pattern Term))) : Prop :=
  Forall₂ (Forall₂ (Pattern.Like β)) rows rows'

/-- The rows that are left after a split. Only the first pattern of a row decides whether it is. -/
theorem RowsPaired.splitRows (size : Nat)
    {select : Pattern Term → Option (List (Pattern Term))}
    (hselect : ∀ p p', p.Like β p' →
      Option.Rel (Forall₂ (Pattern.Like β)) (select p) (select p')) (h : RowsPaired β rows rows') :
    RowsPaired β (splitRows size select rows) (splitRows size select rows') := by
  have hwild : Forall₂ (Pattern.Like β) (List.replicate size .wild)
      (List.replicate size .wild) := List.forall₂_same.mpr fun p hp => by
    rw [List.eq_of_mem_replicate hp]
    exact .wild
  induction h with
  | nil => exact .nil
  | cons hrow hrows ih =>
    cases hrow with
    | nil => exact ih
    | cons hp hps =>
      have hargs := hselect _ _ hp
      cases hp with
      | bind _ _ => exact .cons (List.rel_append hwild hps) ih
      | wild => exact .cons (List.rel_append hwild hps) ih
      | absurd =>
        -- both rows begin with the same pattern, so there is one outcome to generalize
        simp only [Typing.splitRows]
        generalize select _ = o at hargs ⊢
        cases hargs with
        | none => exact ih
        | some hargs => exact .cons (List.rel_append hargs hps) ih
      | con _ _ | tuple _ | record _ _ =>
        simp only [Typing.splitRows]
        generalize select _ = o at hargs ⊢
        generalize select _ = o' at hargs ⊢
        cases hargs with
        | none => exact ih
        | some hargs => exact .cons (List.rel_append hargs hps) ih

theorem paired_conArgs (c : ConName) (p p' : Pattern Term) (h : p.Like β p') :
    Option.Rel (Forall₂ (Pattern.Like β)) (conArgs c p) (conArgs c p') := by
  cases h with
  | con d h =>
    rw [conArgs, conArgs]
    split
    · exact .some h
    · exact .none
  | _ => exact .none

theorem paired_tupleArgs (p p' : Pattern Term) (h : p.Like β p') :
    Option.Rel (Forall₂ (Pattern.Like β)) (tupleArgs p) (tupleArgs p') := by
  cases h with
  | tuple h => exact .some h
  | _ => exact .none

theorem paired_recordArgs (p p' : Pattern Term) (h : p.Like β p') :
    Option.Rel (Forall₂ (Pattern.Like β)) (recordArgs p) (recordArgs p') := by
  cases h with
  | record fields h => exact .some h
  | _ => exact .none

theorem startsAbsurd_eq (h : Forall₂ (Pattern.Like β) row row') :
    startsAbsurd row = startsAbsurd row' := by
  cases h with
  | nil => rfl
  | cons hp _ => cases hp <;> rfl

theorem startsCompound_eq (h : Forall₂ (Pattern.Like β) row row') :
    startsCompound row = startsCompound row' := by
  cases h with
  | nil => rfl
  | cons hp _ => cases hp <;> rfl

theorem RowsPaired.any_eq {p : List (Pattern Term) → Bool}
    (hp : ∀ row row', Forall₂ (Pattern.Like β) row row' → p row = p row') (h : RowsPaired β rows rows') :
    rows.any p = rows'.any p := by
  induction h with
  | nil => rfl
  | cons hrow _ ih => rw [List.any_cons, List.any_cons, hp _ _ hrow, ih]

/-- A case is missing on both sides or on neither. -/
def MissingAlike (o o' : Option (List (Pattern Term))) : Prop := o.isSome = o'.isSome

theorem MissingAlike.map {o o' : Option (List (Pattern Term))}
    {f f' : List (Pattern Term) → List (Pattern Term)} (h : MissingAlike o o') :
    MissingAlike (o.map f) (o'.map f') := by
  rw [MissingAlike, Option.isSome_map, Option.isSome_map]
  exact h

variable {k : Checker} (hsig : k.sig.Steady β) {fuel fuel' : Nat} (hle : fuel ≤ fuel')
  {self self' : List (List (Pattern Term)) → List (Column Term) → Mapping Term →
    Check (Option (List (Pattern Term)))}
  (hself : ∀ rows rows' columns columns' m m', RowsPaired β rows rows' →
    Forall₂ (Column.Like β) columns columns' →
    m.Like β m' →
      Mirrors β (self rows columns m) (self' rows' columns' m') MissingAlike)
  {rows rows' : List (List (Pattern Term))} (hrows : RowsPaired β rows rows')
  {x x' : Var} (hx : x.Paired β x') {columns columns' : List (Column Term)}
  (hcolumns : Forall₂ (Column.Like β) columns columns')
  {m m' : Mapping Term} (hm : m.Like β m')

include hself hrows hx hcolumns hm

theorem mirrors_splitColumn {value value' : Term} {ps ps' : Telescope Term}
    {select : Pattern Term → Option (List (Pattern Term))}
    {build build' : List (Pattern Term) → Pattern Term} (hvalue : value.Like β value')
    (hps : Telescope.Like β ps ps')
    (hselect : ∀ p p', p.Like β p' →
      Option.Rel (Forall₂ (Pattern.Like β)) (select p) (select p')) :
    Mirrors β (splitColumn self rows x columns m value ps select build)
      (splitColumn self' rows' x' columns' m' value' ps' select build') MissingAlike := by
  rw [splitColumn, splitColumn, hps.length_eq]
  exact (hself _ _ _ _ _ _ (hrows.splitRows _ hselect)
    (List.rel_append (Telescope.Paired.columns hps) hcolumns)
    (hm.insert (.local hx) hvalue)).bind fun _ _ ho => .pure ho.map

include hsig hle

theorem mirrors_splitData {d d' : DataType Term} {cons cons' : List (ConName × List Term)}
    (hd : d.Paired β d') (hcons : Forall₂ (ConPaired β) cons cons') :
    Mirrors β (splitData k fuel self rows x columns m d cons)
      (splitData k fuel' self' rows' x' columns' m' d' cons') MissingAlike := by
  obtain ⟨d, sort, hargs⟩ := hd
  induction hcons with
  | nil => exact .pure rfl
  | @cons e e' _ _ he _ ih =>
    obtain ⟨c, ts⟩ := e
    obtain ⟨c', ts'⟩ := e'
    obtain ⟨rfl, hts⟩ : c = c' ∧ Term.AllLike β ts ts' := he
    rw [splitData, splitData]
    refine (mirrors_substTelescope hle (hsig.con c)
      (.of (hm.insertAll (hsig.dataMapping c hts)) _)).core fun q q' hq => ?_
    refine (mirrors_paramRefs hq.1).core fun refs refs' hrefs => ?_
    refine (mirrors_build (.con c sort hts hrefs)).core fun t t' ht => ?_
    refine (mirrors_splitColumn hself hrows hx hcolumns hm ht hq.1 (paired_conArgs c)).bind
      fun o o' ho => ?_
    cases o with
    | some _ =>
      obtain ⟨missing, rfl⟩ := Option.isSome_iff_exists.mp ho.symm
      exact .pure rfl
    | none =>
      obtain rfl := Option.isSome_eq_false_iff.mp ho.symm |> Option.isNone_iff_eq_none.mp
      exact ih

theorem mirrors_split {type type' : Term} (htype : type.Like β type') :
    Mirrors β (split k fuel self rows x columns m type)
      (split k fuel' self' rows' x' columns' m' type') MissingAlike := by
  obtain ⟨hn, hnode⟩ := htype.destruct
  rw [split, split]
  cases hnode with
  | data d sort hargs =>
    refine (mirrors_admitted hsig hle (.mk d sort hargs)).bind fun cons cons' hcons => ?_
    exact mirrors_splitData hsig hle hself hrows hx hcolumns hm (.mk d sort hargs) hcons
  | sigma sort hps =>
    refine (mirrors_substTelescope hle hps (.of hm _)).core fun q q' hq => ?_
    refine (mirrors_paramRefs hq.1).core fun refs refs' hrefs => ?_
    refine (mirrors_build (.tuple sort hrefs hn hps)).core fun t t' ht => ?_
    exact mirrors_splitColumn hself hrows hx hcolumns hm ht hq.1 paired_tupleArgs
  | record hr =>
    refine (mirrors_fieldParams hsig hle hn hr).core fun ps ps' hps => ?_
    refine (mirrors_paramRefs hps).core fun refs refs' hrefs => ?_
    refine (mirrors_makeRecord hle hr hrefs).core fun t t' ht => ?_
    exact mirrors_splitColumn hself hrows hx hcolumns hm ht hps paired_recordArgs
  | _ => exact .refuse

omit hx in
/-- One column of the search for a missing case. -/
theorem mirrors_missingStep :
    Mirrors β (missingStep k fuel self rows columns m) (missingStep k fuel' self' rows' columns' m')
      MissingAlike := by
  unfold missingStep
  cases hcolumns with
  | nil =>
    refine .pure ?_
    rw [forall₂_isEmpty hrows]
    exact rfl
  | cons hc hrest =>
    refine (mirrors_typeM hc).core fun type type' htype => ?_
    refine (mirrors_subst hle htype (.of hm _)).core fun type type' htype => ?_
    refine (mirrors_whnf hsig hle htype).core fun type type' htype => ?_
    refine .ite ?_ (fun _ => .pure rfl) fun _ => ?_
    · rw [hrows.any_eq fun _ _ h => startsAbsurd_eq h]
    refine .ite (by rw [forall₂_isEmpty hrows]) (fun _ => ?_) fun _ => ?_
    -- no rows are left: the case is missing unless the column is of an empty data type
    · obtain ⟨-, hnode⟩ := htype.destruct
      cases hnode with
      | data d sort hargs =>
        refine (Recheck.mirrors_admitted hsig hle d sort hargs).core fun o o' ho => ?_
        cases ho with
        | none => exact .pure rfl
        | some hcons =>
          cases hcons with
          | nil => exact .pure rfl
          | cons _ _ => exact .pure rfl
      | _ => exact .pure rfl
    refine .ite ?_ (fun _ => ?_) fun _ => ?_
    · rw [hrows.any_eq fun _ _ h => startsCompound_eq h]
    · exact mirrors_split hsig hle hself hrows hc.var hrest hm htype
    -- nothing is to be split: the column is passed over
    · refine (hself _ _ _ _ _ _ (List.rel_map (fun _ _ h => ?_) hrows) hrest hm).bind
        fun o o' ho => .pure ho.map
      cases h with
      | nil => exact .nil
      | cons _ h => exact h

end Matrices

section Exhaustive

variable {β : Pairing} {k : Checker} (hsig : k.sig.Steady β) {fuel fuel' : Nat}
  (hle : fuel ≤ fuel')

include hsig hle

theorem mirrors_missing
    {columns columns' : List (Column Term)} {m m' : Mapping Term} (hrows : RowsPaired β rows rows')
    (hcolumns : Forall₂ (Column.Like β) columns columns')
    (hm : m.Like β m') :
    Mirrors β (missing k fuel rows columns m) (missing k fuel' rows' columns' m')
      MissingAlike := by
  induction fuel generalizing fuel' rows rows' columns columns' m m' with
  | zero => exact .failing (Fails.throw _)
  | succ fuel ih =>
    obtain ⟨fuel', rfl, hrest⟩ := exists_fuel_of_succ_le hle
    exact mirrors_missingStep hsig hrest
      (fun _ _ _ _ _ _ hrows hcolumns hm => ih hrest hrows hcolumns hm) hrows hcolumns hm

theorem mirrors_exhaustive {t t' : Option Term} {ps ps' : Telescope Term} {e e' : Elim Term}
    (hps : Telescope.Like β ps ps') (he : e.Like β e') :
    Mirrors β (exhaustive k fuel t ps e) (exhaustive k fuel' t' ps' e') fun _ _ => True := by
  obtain ⟨-, hclauses, htree⟩ := he
  have hrows : RowsPaired β (List.map Clause.patterns _) (List.map Clause.patterns _) :=
    List.rel_map (fun c c' hc => by
      obtain ⟨hps, -⟩ := hc
      exact hps) hclauses
  refine .ite ?_ (fun _ => .pure trivial) fun _ => ?_
  · rw [forall₂_isEmpty hclauses, htree.isSome_eq]
  refine (mirrors_missing hsig hle hrows (Telescope.Paired.columns hps) .empty).bind
    fun o o' ho => ?_
  cases o with
  | some _ => exact .refuse
  | none =>
    obtain rfl := Option.isSome_eq_false_iff.mp ho.symm |> Option.isNone_iff_eq_none.mp
    exact .pure trivial

end Exhaustive

end Typing

end Recheck
