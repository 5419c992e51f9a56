import Recheck.Admission
import Recheck.Proofs.Coupling
import Recheck.Proofs.Renumbering.Substitution

/-!
# Recheck — reduction, seen from two runs

Both runs unfold the same declarations, so these have to correspond to themselves. Then
matching, evaluating and reducing to weak-head normal form do the same on both sides, and so
does what is read off a reduction: the status of a term and the constructors that an instance
of a data type admits.
-/

namespace Recheck

open List (Forall₂)

variable {β : Pairing} {sig : Signature}

/-! ## Signatures -/

inductive Body.Paired (β : Pairing) : Body → Body → Prop where
  | expr {t t' : Term} (ht : t.Like β t') : Paired β (.expr t) (.expr t')
  | elim {e e' : Elim Term} (he : e.Like β e') : Paired β (.elim e) (.elim e')
  | interval {ps ps' : Telescope Term} {ends ends' : List (Option Term × Option Term)}
      {otherwise otherwise' : Option (Elim Term)}
      (hends : Forall₂ (fun e e' => Option.Rel (Term.Like β) e.1 e'.1 ∧
        Option.Rel (Term.Like β) e.2 e'.2) ends ends')
      (hotherwise : Option.Rel (Elim.Like β) otherwise otherwise') :
      Paired β (.interval ps ends otherwise) (.interval ps' ends' otherwise')

/-- All declarations correspond to themselves. -/
structure Signature.Steady (β : Pairing) (sig : Signature) : Prop where
  data : ∀ d, Telescope.Like β (sig.data d).params (sig.data d).params
  con : ∀ c, Telescope.Like β (sig.con c).params (sig.con c).params
  patterns : ∀ c, Option.Rel (Forall₂ (Pattern.Like β))
    (sig.con c).patterns (sig.con c).patterns
  this : ∀ r, (sig.record r).this.Paired β (sig.record r).this
  thisType : ∀ r, (sig.record r).thisType.Like β (sig.record r).thisType
  field : ∀ f, (sig.field f).type.Like β (sig.field f).type
  params : ∀ f, Telescope.Like β (sig.func f).params (sig.func f).params
  resultType : ∀ f, (sig.func f).resultType.Like β (sig.func f).resultType
  body : ∀ f, Option.Rel (Body.Paired β) (sig.func f).body (sig.func f).body

theorem Signature.Steady.dataColumns (hsig : sig.Steady β) (c : ConName) :
    Forall₂ (Column.Like β) (sig.dataColumns c) (sig.dataColumns c) := by
  have hpatterns := hsig.patterns c
  rw [Signature.dataColumns]
  generalize (sig.con c).patterns = o at hpatterns ⊢
  cases hpatterns with
  | none => exact Telescope.Paired.columns (hsig.data _)
  | some hps =>
    exact List.rel_map (fun _ _ hb => Column.Paired.ofTyped hb.1 hb.2)
      (Pattern.Paired.bindingsOf hps)

theorem Signature.Steady.dataMapping (hsig : sig.Steady β) (c : ConName) {ts ts' : List Term}
    (hts : Term.AllLike β ts ts') :
    (sig.dataMapping c ts).Like β (sig.dataMapping c ts') :=
  .insertVars .empty (List.rel_map (fun _ _ hc => Column.Paired.var hc) (hsig.dataColumns c)) hts

/-! ## Records -/

section Records

variable {β : Pairing} {sig : Signature} (hsig : sig.Steady β) {fuel fuel' : Nat}
  (hle : fuel ≤ fuel')
variable {this this' : Term} {n n' : Nat} {r r' : RecordType Term} {args args' : List Term}

include hsig hle in
theorem mirrors_fieldTypeAt (f : FieldName) (sortArg : USort) (hthis : this.Like β this') :
    Mirrors β (fieldTypeAt sig fuel f sortArg this) (fieldTypeAt sig fuel' f sortArg this')
      (Term.Like β) :=
  mirrors_subst hle (hsig.field f) (.of (.single (.local (hsig.this _)) hthis) _)

include hle in
theorem mirrors_overThis {body body' : Term} (hn : β.stamp n n') (hr : r.Like β r')
    (hbody : body.Like β body') :
    Mirrors β (overThis sig fuel ⟨n, r⟩ body) (overThis sig fuel' ⟨n', r'⟩ body')
      (Term.Like β) := by
  have hrecord : (Stamped.record ⟨n, r⟩).Like β (Stamped.record ⟨n', r'⟩) :=
    .intro hn (.record hr)
  refine (mirrors_freshParam _).bind fun x x' hx => ?_
  refine (mirrors_buildRef hx).bind fun ref ref' href => ?_
  refine (mirrors_subst hle hbody (.single hr.this href)).bind fun b b' hb => ?_
  exact mirrors_build (.lam _ (.cons ⟨hx, .some hrecord⟩ .nil) hb)

include hsig hle

theorem mirrors_fieldParamsFrom (hn : β.stamp n n') (hr : r.Like β r')
    (fs : List FieldName) {m m' : Mapping Term} (hm : m.Like β m') :
    Mirrors β (fieldParamsFrom sig fuel ⟨n, r⟩ m fs) (fieldParamsFrom sig fuel' ⟨n', r'⟩ m' fs)
      (Telescope.Like β) := by
  induction fs generalizing m m' with
  | nil => exact .pure .nil
  | cons f fs ih =>
    have hsort := hr.sortArg
    rw [fieldParamsFrom, fieldParamsFrom]
    refine (mirrors_buildRef hr.this).bind fun this this' hthis => ?_
    rw [hsort]
    refine (mirrors_fieldTypeAt hsig hle f _ hthis).bind fun type type' htype => ?_
    refine (mirrors_subst hle htype (.of hm _)).bind fun type type' htype => ?_
    refine (mirrors_freshParam _).bind fun x x' hx => ?_
    refine (mirrors_buildRef hx).bind fun ref ref' href => ?_
    refine (mirrors_overThis hle hn hr href).bind fun proj proj' hproj => ?_
    exact (ih (hm.insert (.field f) hproj)).bind fun ps ps' hps =>
      .pure (.cons ⟨hx, .some htype⟩ hps)

theorem mirrors_fieldParams (hn : β.stamp n n') (hr : r.Like β r') :
    Mirrors β (fieldParams sig fuel ⟨n, r⟩) (fieldParams sig fuel' ⟨n', r'⟩)
      (Telescope.Like β) := by
  rw [fieldParams, fieldParams]
  refine Mirrors.bind (R := Mapping.Like β) ?_ fun m m' hm => ?_
  · refine Mirrors.foldlM hr.impls (fun m m' hm e e' he => ?_) .empty
    refine (mirrors_overThis hle hn hr he.2).bind fun proj proj' hproj => .pure ?_
    rw [he.1]
    exact hm.insert (.field _) hproj
  · simp only [sig.notImplemented_eq hr]
    exact mirrors_fieldParamsFrom hsig hle hn hr _ hm

omit hsig in
theorem mirrors_implementAll {copy copy' : RecordType Term} (hr : r.Like β r')
    (hthis : this.Like β this') (hcopy : copy.Like β copy') (fs : List FieldName)
    (hargs : Term.AllLike β args args') :
    Mirrors β (implementAll sig fuel r this copy fs args)
      (implementAll sig fuel' r' this' copy' fs args') (RecordType.Like β) := by
  induction fs generalizing copy copy' args args' with
  | nil => exact .pure hcopy
  | cons f fs ih =>
    unfold implementAll
    refine (mirrors_implementation hle f hr hthis).bind fun o o' ho => ?_
    cases ho with
    | some himpl => exact ih (hcopy.implement f himpl) hargs
    | none =>
      cases hargs with
      | nil => exact .throw
      | cons harg hargs => exact ih (hcopy.implement f harg) hargs

omit hsig in
theorem mirrors_makeRecord (hr : r.Like β r')
    (hargs : Term.AllLike β args args') :
    Mirrors β (makeRecord sig fuel r args) (makeRecord sig fuel' r' args') (Term.Like β) := by
  have hr₀ := hr
  obtain ⟨-, -⟩ := hr
  refine (mirrors_newRecordType _ _ _ _).bind fun copy copy' hcopy => ?_
  refine (mirrors_buildRef hcopy.this).bind fun this this' hthis => ?_
  refine (mirrors_implementAll hle hr₀ hthis hcopy _ hargs).bind fun full full' hfull => ?_
  refine mirrors_freshStamp.bind fun n n' hn => ?_
  exact mirrors_build (.new .none hn hfull)

end Records

/-! ## Matching -/

abbrev Match.Paired (β : Pairing) : Match → Match → Prop :=
  Match.Rel (Term.Like β) (Mapping.Like β)

inductive Evaluation.Paired (β : Pairing) : Evaluation → Evaluation → Prop where
  | reduced {t t' : Term} (ht : t.Like β t') : Paired β (.reduced t) (.reduced t')
  | stuck {o o' : Option Term} (ho : Option.Rel (Term.Like β) o o') :
      Paired β (.stuck o) (.stuck o')

theorem Evaluation.Paired.reduct? {e e' : Evaluation} (h : e.Paired β e') :
    Option.Rel (Term.Like β) e.reduct? e'.reduct? := by
  cases h with
  | reduced ht => exact .some ht
  | stuck _ => exact .none

/-- A constructor with its arguments corresponds to the same constructor. -/
def ConPaired (β : Pairing) (p p' : ConName × List Term) : Prop :=
  p.1 = p'.1 ∧ Term.AllLike β p.2 p'.2

theorem mirrors_constructor? {t t' : Term} (ht : t.Like β t') :
    Mirrors β t.constructor? t'.constructor? (Option.Rel (ConPaired β)) := by
  obtain ⟨-, hnode⟩ := ht.destruct
  rw [Term.constructor?, Term.constructor?]
  cases hnode with
  | con c sort hdata hargs => exact .pure (.some ⟨rfl, hargs⟩)
  | int i =>
    refine Mirrors.ite Iff.rfl (fun _ => .pure (.some ⟨rfl, .nil⟩)) fun _ => ?_
    refine (mirrors_build (.int _)).bind fun u u' hu => .pure ?_
    exact .some ⟨rfl, .cons hu .nil⟩
  | _ => exact .pure .none

namespace Reduction

/-- The recursive calls of two reductions do the same. -/
def Alike (β : Pairing) (self self' : Term → Core Term) : Prop :=
  ∀ t t', t.Like β t' → Mirrors β (self t) (self' t') (Term.Like β)

section Matching

variable {β : Pairing} {sig : Signature} {fuel fuel' : Nat} (hle : fuel ≤ fuel')
  {self self' : Term → Core Term} (hself : Alike β self self')
variable {ts ts' args args' : List Term}

/-- Doing the same, as a relation of evaluations. -/
def likeness (levels : LevelSubst) : Coupling sig fuel fuel' self self' levels where
  Moment := Unit
  Later _ _ := True
  vars := Var.Paired β
  bodies := Term.Like β
  terms _ := Term.Like β
  records _ := RecordType.Like β
  maps _ := Mapping.Like β
  Runs _ x x' Q := Mirrors β x x' (Q ())
  Ends _ x x' := Mirrors β x x' (Evaluation.Paired β)
  terms_later _ h := h
  records_later _ h := h
  maps_later _ h := h
  maps_empty _ := .empty
  maps_insert hm hx ht := hm.insert (.local hx) ht
  pure h := .pure h
  bind hx hf := hx.bind fun a a' h => hf () a a' trivial h
  ends_bind hx hf := hx.bind fun a a' h => hf () a a' trivial h
  stuck h := .pure (.stuck h)
  resume hb hm hts := (mirrors_subst hle hb (.of hm levels)).bind fun _ _ ht =>
    (mirrors_makeApp hle ht hts).bind fun _ _ hu => .pure (.reduced hu)
  reduces ht := hself _ _ ht
  node ht := by
    obtain ⟨-, hnode⟩ := ht.destruct
    cases hnode with
    | tuple _ hts => exact .tuple hts
    | new _ _ hr => exact .new hr
    | _ => exact .atom rfl rfl
  constructor ht := mirrors_constructor? ht
  name hr := hr.record
  implementation f hr ht := mirrors_implementation hle f hr ht
  malformed _ := .throw

include hle hself

theorem mirrors_elim (levels : LevelSubst) {e e' : Elim Term}
    (hargs : Term.AllLike β args args') (he : e.Like β e') :
    Mirrors β (elim sig fuel self levels args e) (elim sig fuel' self' levels args' e')
      (Evaluation.Paired β) := by
  obtain ⟨-, hclauses, htree⟩ := he
  let C : Coupling sig fuel fuel' self self' levels := likeness hle hself levels
  cases htree with
  | some ht => exact C.ends_tree (w := ()) .empty hargs ht
  | none => exact C.ends_clauses (w := ()) hargs hclauses

theorem mirrors_call (hsig : sig.Steady β) (f : FuncName) (sortArg : USort)
    (hargs : Term.AllLike β args args') :
    Mirrors β (call sig fuel self f sortArg args) (call sig fuel' self' f sortArg args')
      (Evaluation.Paired β) := by
  have hbody := hsig.body f
  rw [call, call]
  dsimp only
  generalize (sig.func f).body = o at hbody ⊢
  cases hbody with
  | none => exact .pure (.stuck .none)
  | some hbody =>
    cases hbody with
    | expr ht =>
      have hm := Mapping.Paired.insertVars .empty (Telescope.Rel.vars (hsig.params f)) hargs
      exact (mirrors_subst hle ht (.of hm _)).bind fun u u' hu => .pure (.reduced hu)
    | elim he => exact mirrors_elim hle hself _ hargs he
    | interval _ hotherwise =>
      cases hotherwise with
      | none => exact .pure (.stuck .none)
      | some he => exact mirrors_elim hle hself _ hargs he

theorem mirrors_caseOf {c c' : CaseOf Term} (hc : c.Like β c') :
    Mirrors β (caseOf sig fuel self c) (caseOf sig fuel' self' c') (Evaluation.Paired β) := by
  obtain ⟨-, -, -, helim, hargs⟩ := hc
  cases helim with
  | none => exact .throw
  | some he => exact mirrors_elim hle hself _ hargs he

/-! ## One head step -/

omit hself hle in
/-- A node is built anew on both sides or on neither. -/
theorem mirrors_rebuilt {old old' new new' : Term} {node node' : Node Term}
    (hold : old.Like β old') (hnew : new.Like β new')
    (hnode : node.Like β node') :
    Mirrors β (rebuilt old new node) (rebuilt old' new' node') (Option.Rel (Term.Like β)) :=
  Mirrors.ite (hnew.same_iff hold) (fun _ => .pure .none) fun _ =>
    (mirrors_build hnode).bind fun _ _ hu => .pure (.some hu)

/-- One head step; the cases follow the forms of terms. -/
theorem mirrors_step (hsig : sig.Steady β) {t t' : Term} (ht : t.Like β t') :
    Mirrors β (step sig fuel self t) (step sig fuel' self' t') (Option.Rel (Term.Like β)) := by
  obtain ⟨-, hnode⟩ := ht.destruct
  rw [step, step]
  cases hnode with
  | ref hx =>
    exact Mirrors.ite (by rw [hx.kind]) (fun h => absurd h hx.ne_clause) fun _ => .pure .none
  | app hfn harg =>
    refine (hself _ _ hfn).bind fun head head' hhead => ?_
    have hrebuilt := mirrors_rebuilt hfn hhead (.app hhead harg)
    obtain ⟨-, hnode⟩ := hhead.destruct
    cases hnode with
    | lam sort hps hbody =>
      exact (mirrors_makeApp hle hhead (.cons harg .nil)).bind fun u u' hu => .pure (.some hu)
    | _ => exact hrebuilt
  | call f sort hargs =>
    exact (mirrors_call hle hself hsig f sort hargs).bind fun e e' he => .pure he.reduct?
  | field f sort harg =>
    refine (hself _ _ harg).bind fun value value' hvalue => ?_
    have hrebuilt := mirrors_rebuilt harg hvalue (.field f sort hvalue)
    obtain ⟨-, hnode⟩ := hvalue.destruct
    cases hnode with
    | new hrenewed hn hr =>
      refine (mirrors_implementation hle f hr hvalue).bind fun o o' ho => ?_
      cases ho with
      | some hu => exact .pure (.some hu)
      | none => exact hrebuilt
    | _ => exact hrebuilt
  | proj hu index =>
    refine (hself _ _ hu).bind fun value value' hvalue => ?_
    have hrebuilt := mirrors_rebuilt hu hvalue (.proj hvalue index)
    obtain ⟨-, hnode⟩ := hvalue.destruct
    cases hnode with
    | tuple sort hfields hn hps =>
      refine (mirrors_componentAt index hfields).bind fun o o' ho => ?_
      cases ho with
      | some hc => exact .pure (.some hc)
      | none => exact hrebuilt
    | _ => exact hrebuilt
  | case hc => exact (mirrors_caseOf hle hself hc).bind fun e e' he => .pure he.reduct?
  | ofType hu htype => exact .pure (.some hu)
  | _ => exact .pure .none

end Matching

end Reduction

/-! ## The operations -/

section Operations

variable {β : Pairing} {sig : Signature} (hsig : sig.Steady β) {fuel fuel' : Nat}
  (hle : fuel ≤ fuel')
variable {t t' : Term}

include hsig hle

/-- Weak-head normal forms correspond. -/
theorem mirrors_whnf (ht : t.Like β t') :
    Mirrors β (t.whnf sig fuel) (t'.whnf sig fuel') (Term.Like β) := by
  induction fuel generalizing fuel' t t' with
  | zero => exact Mirrors.outOfFuel
  | succ fuel ih =>
    obtain ⟨fuel', rfl, hrest⟩ := exists_fuel_of_succ_le hle
    rw [Term.whnf, Term.whnf]
    refine (Reduction.mirrors_step hrest (fun _ _ hu => ih hrest hu) hsig ht).bind fun o o' ho => ?_
    cases ho with
    | none => exact .pure ht
    | some hu => exact ih hrest hu

theorem alike_whnf : Reduction.Alike β (Term.whnf sig fuel) (Term.whnf sig fuel') :=
  fun _ _ ht => mirrors_whnf hsig hle ht

theorem mirrors_evalCall (f : FuncName) (sortArg : USort) {args args' : List Term}
    (hargs : Term.AllLike β args args') :
    Mirrors β (evalCall sig fuel f sortArg args) (evalCall sig fuel' f sortArg args')
      (Evaluation.Paired β) :=
  Reduction.mirrors_call hle (alike_whnf hsig hle) hsig f sortArg hargs

theorem mirrors_evalCase {c c' : CaseOf Term} (hc : c.Like β c') :
    Mirrors β (evalCase sig fuel c) (evalCase sig fuel' c') (Evaluation.Paired β) :=
  Reduction.mirrors_caseOf hle (alike_whnf hsig hle) hc

theorem mirrors_matchPatterns {ps ps' : List (Pattern Term)} {ts ts' : List Term}
    (hps : Forall₂ (Pattern.Like β) ps ps')
    (hts : Term.AllLike β ts ts') :
    Mirrors β (matchPatterns sig fuel ps ts) (matchPatterns sig fuel' ps' ts')
      (Match.Paired β) :=
  (Reduction.likeness hle (alike_whnf hsig hle) .empty).runs_matchPatterns (w := ())
    hps hts

/-- The same status on both sides; it does not hang on an unknown. -/
def StatusPaired (β : Pairing) (p p' : Decision × Option Term) : Prop :=
  p.1 = p'.1 ∧ p.1 ≠ .maybe ∧ Option.Rel (Term.Like β) p.2 p'.2

omit hsig hle in
theorem mirrors_statusWith {self self' : Term → Core (Decision × Option Term)}
    {e e' : Evaluation} (he : e.Paired β e')
    (hself : ∀ t t', t.Like β t' → Mirrors β (self t) (self' t') (StatusPaired β)) :
    Mirrors β (e.statusWith self) (e'.statusWith self') (StatusPaired β) := by
  cases he with
  | reduced _ => exact .pure ⟨rfl, Decision.noConfusion, .none⟩
  | stuck ho =>
    cases ho with
    | none => exact .pure ⟨rfl, Decision.noConfusion, .none⟩
    | some ht =>
      refine (hself _ _ ht).bind ?_
      rintro ⟨d, o⟩ ⟨d', o'⟩ ⟨hd, hmaybe, ho⟩
      obtain rfl : d = d' := hd
      refine .pure ⟨rfl, ?_, ho⟩
      rw [if_neg hmaybe]
      exact Decision.noConfusion

theorem mirrors_status (ht : t.Like β t') :
    Mirrors β (t.status sig fuel) (t'.status sig fuel') (StatusPaired β) := by
  induction fuel generalizing fuel' t t' with
  | zero => exact Mirrors.outOfFuel
  | succ fuel ih =>
    obtain ⟨fuel', rfl, hrest⟩ := exists_fuel_of_succ_le hle
    obtain ⟨-, hnode⟩ := ht.destruct
    rw [Term.status, Term.status]
    cases hnode with
    | ref hx =>
      refine .pure ?_
      rw [hx.kind]
      split
      · exact ⟨rfl, Decision.noConfusion, .none⟩
      · exact ⟨rfl, Decision.noConfusion, .some ht⟩
    | app hfn harg =>
      refine (mirrors_underlying hrest hfn).bind fun u u' hu => ?_
      obtain ⟨-, hnode⟩ := hu.destruct
      cases hnode with
      | lam _ _ _ => exact .pure ⟨rfl, Decision.noConfusion, .none⟩
      | _ => exact ih hrest hfn
    | call f sort hargs =>
      exact (mirrors_evalCall hsig hrest f sort hargs).bind fun e e' he =>
        mirrors_statusWith he fun _ _ hu => ih hrest hu
    | field f sort harg =>
      refine (mirrors_whnf hsig hrest harg).bind fun value value' hvalue => ?_
      obtain ⟨-, hnode⟩ := hvalue.destruct
      cases hnode with
      | new _ _ hr =>
        refine Mirrors.ite (by rw [hr.isImplemented])
          (fun _ => .pure ⟨rfl, Decision.noConfusion, .none⟩) fun _ => ?_
        exact ih hrest hvalue
      | _ => exact ih hrest hvalue
    | proj hu index =>
      refine (mirrors_whnf hsig hrest hu).bind fun value value' hvalue => ?_
      obtain ⟨-, hnode⟩ := hvalue.destruct
      cases hnode with
      | tuple sort hfields hn hps =>
        refine Mirrors.ite (by rw [hfields.length_eq])
          (fun _ => .pure ⟨rfl, Decision.noConfusion, .none⟩) fun _ => ?_
        exact ih hrest hvalue
      | _ => exact ih hrest hvalue
    | case hc =>
      exact (mirrors_evalCase hsig hrest hc).bind fun e e' he =>
        mirrors_statusWith he fun _ _ hu => ih hrest hu
    | hole goal hpart => exact .pure ⟨rfl, Decision.noConfusion, .some ht⟩
    | _ => exact .pure ⟨rfl, Decision.noConfusion, .none⟩

theorem mirrors_isWhnf (ht : t.Like β t') :
    Mirrors β (t.isWhnf sig fuel) (t'.isWhnf sig fuel') fun d d' => d = d' ∧ d ≠ .maybe :=
  (mirrors_status hsig hle ht).bind fun _ _ hp => .pure ⟨hp.1, hp.2.1⟩

theorem mirrors_piParameters (ht : t.Like β t') :
    Mirrors β (piParameters sig fuel t) (piParameters sig fuel' t') fun p p' =>
      Forall₂ (Column.Like β) p.1 p'.1 ∧ p.2.Like β p'.2 := by
  induction fuel generalizing fuel' t t' with
  | zero => exact Mirrors.outOfFuel
  | succ fuel ih =>
    obtain ⟨fuel', rfl, hrest⟩ := exists_fuel_of_succ_le hle
    rw [piParameters, piParameters]
    refine (mirrors_whnf hsig hrest ht).bind fun u u' hu => ?_
    obtain ⟨-, hnode⟩ := hu.destruct
    cases hnode with
    | pi sort hps hcodomain =>
      exact (ih hrest hcodomain).bind fun _ _ hp =>
        .pure ⟨List.rel_append (Telescope.Paired.columns hps) hp.1, hp.2⟩
    | _ => exact .pure ⟨.nil, hu⟩

end Operations

/-! ## Constructors of a data type -/

inductive Admission.Paired (β : Pairing) : Admission → Admission → Prop where
  | admitted {ts ts' : List Term} (hts : Term.AllLike β ts ts') :
      Paired β (.admitted ts) (.admitted ts')
  | refused : Paired β .refused .refused
  | undetermined : Paired β .undetermined .undetermined

section Admission

variable {β : Pairing}
variable {args args' : List Term}

mutual

theorem mirrors_toTerm : ∀ {p p' : Pattern Term}, p.Like β p' →
    Mirrors β p.toTerm p'.toTerm (Term.Like β)
  | .bind .., _, .bind hx _ => by
    rw [Pattern.toTerm, Pattern.toTerm]
    exact mirrors_buildRef hx
  | .con .., _, .con c h => by
    rw [Pattern.toTerm, Pattern.toTerm]
    exact (mirrors_toTerms h).bind fun ts ts' hts => mirrors_build (.con c _ .nil hts)
  | .wild, _, .wild => mirrors_build (.hole _ .none)
  | .absurd, _, .absurd => mirrors_build (.hole _ .none)
  | .tuple _, _, .tuple _ => mirrors_build (.hole _ .none)
  | .record .., _, .record _ _ => mirrors_build (.hole _ .none)

theorem mirrors_toTerms : ∀ {ps ps' : List (Pattern Term)},
    Forall₂ (Pattern.Like β) ps ps' →
      Mirrors β (Pattern.toTerms ps) (Pattern.toTerms ps') (Term.AllLike β)
  | [], _, .nil => Mirrors.pure .nil
  | _ :: _, _, .cons h hs => (mirrors_toTerm h).bind fun _ _ ht =>
    (mirrors_toTerms hs).bind fun _ _ hts => .pure (.cons ht hts)

end

variable {sig : Signature} (hsig : sig.Steady β) {fuel fuel' : Nat} (hle : fuel ≤ fuel')

include hsig hle

theorem mirrors_admission (d : DataName) (sort : USort) (c : ConName)
    (hargs : Term.AllLike β args args') :
    Mirrors β (DataType.admission sig fuel ⟨d, sort, args⟩ c)
      (DataType.admission sig fuel' ⟨d, sort, args'⟩ c) (Admission.Paired β) := by
  have hpatterns := hsig.patterns c
  rw [DataType.admission, DataType.admission]
  generalize (sig.con c).patterns = o at hpatterns ⊢
  cases hpatterns with
  | none => exact .pure (.admitted hargs)
  | some hps =>
    refine (mirrors_matchPatterns hsig hle hps hargs).bind fun r r' hr => ?_
    cases hr with
    | no => exact .pure .refused
    | maybe _ => exact .pure .undetermined
    | yes hm =>
      refine .pure (.admitted ?_)
      exact List.rel_filterMap (fun _ _ hb => hm.get? (.local hb.1)) (Pattern.Paired.bindingsOf hps)

theorem mirrors_admittedAmong (d : DataName) (sort : USort) (cs : List ConName)
    (hargs : Term.AllLike β args args') :
    Mirrors β (DataType.admittedAmong sig fuel ⟨d, sort, args⟩ cs)
      (DataType.admittedAmong sig fuel' ⟨d, sort, args'⟩ cs)
      (Option.Rel (Forall₂ (ConPaired β))) := by
  induction cs with
  | nil => exact .pure (.some .nil)
  | cons c cs ih =>
    rw [DataType.admittedAmong, DataType.admittedAmong]
    refine (mirrors_admission hsig hle d sort c hargs).bind fun r r' hr => ?_
    cases hr with
    | undetermined => exact .pure .none
    | refused => exact ih
    | admitted hts =>
      refine ih.bind fun o o' ho => .pure ?_
      cases ho with
      | none => exact .none
      | some hcs => exact .some (.cons ⟨rfl, hts⟩ hcs)

theorem mirrors_admitted (d : DataName) (sort : USort)
    (hargs : Term.AllLike β args args') :
    Mirrors β (DataType.admitted sig fuel ⟨d, sort, args⟩)
      (DataType.admitted sig fuel' ⟨d, sort, args'⟩) (Option.Rel (Forall₂ (ConPaired β))) :=
  mirrors_admittedAmong hsig hle d sort _ hargs

theorem mirrors_dataTypeOf (c : ConName) (sort : USort) {dataArgs dataArgs' : List Term}
    (hdata : Term.AllLike β dataArgs dataArgs') :
    Mirrors β (ConApp.dataType sig fuel ⟨c, sort, dataArgs, args⟩)
      (ConApp.dataType sig fuel' ⟨c, sort, dataArgs', args'⟩) fun d d' =>
        d.data = d'.data ∧ d.sortArg = d'.sortArg ∧ Term.AllLike β d.args d'.args := by
  have hpatterns := hsig.patterns c
  rw [ConApp.dataType, ConApp.dataType]
  dsimp only
  generalize (sig.con c).patterns = o at hpatterns ⊢
  cases hpatterns with
  | none => exact .pure ⟨rfl, rfl, hdata⟩
  | some hps =>
    refine (Mirrors.mapM hps fun p p' hp => ?_).bind fun ts ts' hts => .pure ⟨rfl, rfl, hts⟩
    exact (mirrors_toTerm hp).bind fun t t' ht =>
      mirrors_subst hle ht (.of (hsig.dataMapping c hdata) _)

end Admission

end Recheck
