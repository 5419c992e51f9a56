import Recheck.Admission
import Recheck.Proofs.Coupling
import Recheck.Proofs.Keeps.Substitution

/-!
# Recheck — reduction keeps invariants

Record types, weak-head reduction, the constructors that a data type admits, and the two
observers of terms, the search for occurrences and the printer. None of them does more to
the store than substitute, so each keeps every invariant of substitution.
-/

namespace Recheck

variable {sig : Signature} {R : Region} {I : SolverState → Prop}
variable (hI : Invariant sig R I) (hsig : sig.Within R)

/-! ## Record types -/

namespace Invariant

variable {this : Term} {r : Stamped (RecordType Term)} {args : List Term}

include hI hsig

variable (fuel : Nat)

theorem fieldTypeAt (f : FieldName) (sortArg : USort) (hthis : this.Within R) :
    Keeps I (Recheck.fieldTypeAt sig fuel f sortArg this) (Term.Within R) :=
  hI.subst fuel (hsig.field f)
    (Mapping.holds_insert_var Mapping.holds_empty (hsig.this _) hthis)

omit hsig in
theorem overThis {body : Term} (hr : R.Holds r.val.parts) (hbody : body.Within R) :
    Keeps I (Recheck.overThis sig fuel r body) (Term.Within R) := by
  have hthis : R.Binds r.val.this := by simp at hr; exact hr.1
  have htype : r.record.Within R := Term.within_mk.mpr hr
  refine (hI.freshVar _ _).bind fun x hx => ?_
  refine (hI.buildRef hx).bind fun ref href => ?_
  refine (hI.subst fuel hbody (Substitution.holds_single hthis href)).bind fun body hbody => ?_
  exact hI.build ⟨by simpa using ⟨hx, htype⟩, hbody⟩

theorem fieldParamsFrom {m : Mapping Term} (fs : List FieldName) (hr : R.Holds r.val.parts)
    (hm : R.Holds m.parts) :
    Keeps I (Recheck.fieldParamsFrom sig fuel r m fs) fun ps =>
      R.Holds ps.parts := by
  have hthis : R.Binds r.val.this := by simp at hr; exact hr.1
  induction fs generalizing m with
  | nil => exact .pure (by simp)
  | cons f fs ih =>
    rw [Recheck.fieldParamsFrom]
    refine (hI.buildRef hthis).bind fun this hthis => ?_
    refine (hI.fieldTypeAt hsig fuel f _ hthis).bind fun type htype => ?_
    refine (hI.subst fuel htype hm).bind fun type htype => ?_
    refine (hI.freshVar _ _).bind fun x hx => ?_
    refine (hI.buildRef hx).bind fun ref href => ?_
    refine (hI.overThis fuel hr href).bind fun projection hprojection => ?_
    have hm' := Mapping.holds_insert hm (v := .field f) (by simp) hprojection
    refine (ih hm').bind fun rest hrest => .pure ?_
    exact Telescope.holds_cons.mpr ⟨hx, by simpa using htype, hrest⟩

theorem fieldParams (hr : R.Holds r.val.parts) :
    Keeps I (Recheck.fieldParams sig fuel r) fun ps => R.Holds ps.parts := by
  refine (Keeps.foldlM (Q := fun m => R.Holds m.parts) (fun m hm e he => ?_)
    Mapping.holds_empty).bind fun m hm => hI.fieldParamsFrom hsig fuel _ hr hm
  have himpl : e.2.Within R := by
    simp only [RecordType.parts, Region.holds_cons, Region.holds_map] at hr
    exact hr.2 e he
  refine (hI.overThis fuel hr himpl).bind fun projection hprojection => .pure ?_
  exact Mapping.holds_insert hm (by simp) hprojection

omit hsig in
/-- Each field is implemented as in the record type, or else by the next argument. -/
theorem implementAll {r copy : RecordType Term} (fs : List FieldName) (hr : R.Holds r.parts)
    (hthis : this.Within R) (hcopy : R.Holds copy.parts) (hargs : ∀ t ∈ args, t.Within R) :
    Keeps I (Recheck.implementAll sig fuel r this copy fs args) fun r => R.Holds r.parts := by
  induction fs generalizing copy args with
  | nil => exact .pure hcopy
  | cons f fs ih =>
    unfold Recheck.implementAll
    refine (hI.implementation fuel f hr hthis).bind fun o ho => ?_
    cases o with
    | some impl => exact ih (RecordType.holds_implement hcopy (ho impl rfl)) hargs
    | none =>
      cases args with
      | nil => exact .throw
      | cons arg args =>
        rw [List.forall_mem_cons] at hargs
        exact ih (RecordType.holds_implement hcopy hargs.1) hargs.2

omit hsig in
theorem makeRecord {r : RecordType Term} (hr : R.Holds r.parts) (hargs : ∀ t ∈ args, t.Within R) :
    Keeps I (Recheck.makeRecord sig fuel r args) (Term.Within R) := by
  refine (hI.newRecordType _ _ _ _).bind fun copy hcopy => ?_
  have hparts : R.Holds copy.parts := by simpa [hcopy.1] using hcopy.2
  refine (hI.buildRef hcopy.2).bind fun this hthis => ?_
  refine (hI.implementAll fuel _ hr hthis hparts hargs).bind fun full hfull => ?_
  refine hI.fresh.bind fun stamp _ => hI.build ?_
  exact ⟨by simp, hfull⟩

end Invariant

/-! ## Matching -/

/-- What a match binds keeps to the region, and so does the argument that blocks it. -/
def Match.Within (R : Region) : Match → Prop
  | .no => True
  | .yes m => R.Holds m.parts
  | .maybe t => t.Within R

/-- The reduct keeps to the region, and so does the argument that blocks the evaluation. -/
def Evaluation.Within (R : Region) : Evaluation → Prop
  | .reduced t => t.Within R
  | .stuck blocker => ∀ t, blocker = some t → t.Within R

theorem Evaluation.Within.reduct {e : Evaluation} (h : e.Within R) :
    ∀ t, e.reduct? = some t → t.Within R := by
  cases e with
  | reduced t =>
    rintro _ ⟨rfl⟩
    exact h
  | stuck b => exact fun t ht => nomatch ht

theorem fixed_of_holds {ps : List (Part Term)} (h : R.Holds ps) :
    Part.Fixed (fun x x' => R.Binds x ∧ x = x') (fun t t' => t.Within R ∧ t = t') ps :=
  ⟨fun _ ht => ⟨h _ ht, rfl⟩, fun _ hx => ⟨h _ hx, rfl⟩⟩

namespace Reduction

variable {self : Term → Core Term} (hself : ∀ t, t.Within R → Keeps I (self t) (Term.Within R))
variable {t : Term} {args : List Term}

include hI

theorem keeps_constructor? (ht : t.Within R) :
    Keeps I t.constructor? fun o => ∃ o' : Option (ConName × List Term),
      Option.Rel (fun c c' => c.1 = c'.1 ∧
        List.Forall₂ (fun u u' => u.Within R ∧ u = u') c.2 c'.2) o o' := by
  rw [Term.constructor?]
  split
  next c heq => exact .pure ⟨_, .some ⟨rfl, forall₂_self (ht.node heq).2⟩⟩
  next n heq =>
    split
    · exact .pure ⟨_, .some ⟨rfl, .nil⟩⟩
    · refine (hI.build (by trivial)).bind fun u hu => .pure ?_
      exact ⟨_, .some ⟨rfl, .cons ⟨hu, rfl⟩ .nil⟩⟩
  next => exact .pure ⟨_, .none⟩

/-- The invariant as a relation of a run to itself. -/
def invariance (fuel : Nat) (levels : LevelSubst) : Coupling sig fuel fuel self self levels where
  Moment := Unit
  Later _ _ := True
  vars x x' := R.Binds x ∧ x = x'
  bodies t t' := t.Within R ∧ t = t'
  terms _ t t' := t.Within R ∧ t = t'
  records _ r r' := R.Holds r.parts ∧ r = r'
  maps _ m m' := R.Holds m.parts ∧ m = m'
  Runs _ x _ Q := Keeps I x fun a => ∃ a', Q () a a'
  Ends _ x _ := Keeps I x (Evaluation.Within R)
  terms_later _ h := h
  records_later _ h := h
  maps_later _ h := h
  maps_empty _ := ⟨Mapping.holds_empty, rfl⟩
  maps_insert hm hx ht := ⟨Mapping.holds_insert_var hm.1 hx.1 ht.1, by rw [hm.2, hx.2, ht.2]⟩
  pure h := .pure ⟨_, h⟩
  bind hx hf := hx.bind fun _ ha => ha.elim fun _ h => hf () _ _ trivial h
  ends_bind hx hf := hx.bind fun _ ha => ha.elim fun _ h => hf () _ _ trivial h
  stuck h := .pure (of_rel_self h)
  resume hb hm hts := (hI.subst fuel hb.1 (Substitution.holds_of hm.1)).bind fun t ht =>
    (hI.makeApp fuel ht ((List.forall₂_and_left _ _).mp hts).1).bind fun u hu => .pure hu
  reduces ht := (hself _ ht.1).mono fun u hu => ⟨u, hu, rfl⟩
  node {w t t'} ht := by
    obtain ⟨ht, rfl⟩ := ht
    generalize hnode : t.node = node
    have h := ht.node hnode
    cases node with
    | tuple => exact .tuple (forall₂_self h.1)
    | new => exact .new ⟨h.2, rfl⟩
    | _ => exact .atom rfl rfl
  constructor ht := keeps_constructor? hI ht.1
  name h := by rw [h.2]
  implementation f hr ht := (hI.implementation fuel f hr.1 ht.1).mono fun o ho => ⟨o, rel_self ho⟩
  malformed _ := .throw

include hself

variable (fuel : Nat)

theorem keeps_matchPatterns {ps : List (Pattern Term)} {ts : List Term}
    (hps : R.Holds (Pattern.partsOf ps)) (hts : ∀ t ∈ ts, t.Within R) :
    Keeps I (matchPatterns sig fuel self ps ts) (Match.Within R) := by
  refine ((invariance hI hself fuel .empty).runs_matchPatterns (w := ())
    (Part.Fixed.patterns ps (fixed_of_holds hps)) (forall₂_self hts)).mono ?_
  rintro _ ⟨_, h⟩
  cases h with
  | no => trivial
  | yes h | maybe h => exact h.1

/-! ## Evaluating matches and calls -/

theorem keeps_elim {e : Elim Term} (levels : LevelSubst) (hargs : ∀ t ∈ args, t.Within R)
    (he : R.Holds e.parts) : Keeps I (elim sig fuel self levels args e) (Evaluation.Within R) :=
  (invariance hI hself fuel levels).ends_elim (w := ()) (fixed_of_holds he) (forall₂_self hargs)

include hsig in
theorem keeps_call (f : FuncName) (sortArg : USort) (hargs : ∀ t ∈ args, t.Within R) :
    Keeps I (call sig fuel self f sortArg args) (Evaluation.Within R) := by
  have hbody := hsig.body f
  rw [call]
  dsimp only
  split
  · exact .pure (by simp [Evaluation.Within])
  · exact .pure (by simp [Evaluation.Within])
  next body heq =>
    have hexpr := hbody _ heq
    simp only [Body.parts, Region.holds_cons, Part.within_term] at hexpr
    have hm := Mapping.holds_insertVars Mapping.holds_empty
      (fun x => Telescope.binds_of_mem_vars (hsig.params f)) hargs
    exact (hI.subst fuel hexpr.1 (Substitution.holds_of hm)).bind fun t ht => .pure ht
  next e heq => exact keeps_elim hI hself fuel _ hargs (hbody _ heq)
  next ps ends e heq =>
    have helim := hbody _ heq
    simp only [Body.parts, Option.toList_some, List.flatMap_cons, List.flatMap_nil,
      List.append_nil, Region.holds_append] at helim
    exact keeps_elim hI hself fuel _ hargs helim.2

theorem keeps_caseOf {c : CaseOf Term} (hc : R.Holds c.parts) :
    Keeps I (caseOf sig fuel self c) (Evaluation.Within R) := by
  simp only [CaseOf.parts, Region.holds_append, Region.holds_map, Region.holds_flatMap,
    Option.mem_toList, Part.within_term] at hc
  rw [caseOf]
  split
  · exact .throw
  next e heq => exact keeps_elim hI hself fuel _ hc.1.1.1.1 (hc.2 e heq)

/-! ## Head steps -/

omit hself in
/-- The node is built again only if the part at its head has changed. -/
theorem keeps_rebuilt {n : Node Term} (old new : Term) (hnode : n.Within R) :
    Keeps I (rebuilt old new n) fun o => ∀ t, o = some t → t.Within R := by
  rw [rebuilt]
  split
  · exact .pure (by simp)
  · refine (hI.build hnode).bind fun t ht => .pure ?_
    rintro _ ⟨rfl⟩
    exact ht

include hsig in
/-- One step of reduction; the cases follow the forms of terms. -/
theorem keeps_step (ht : t.Within R) :
    Keeps I (step sig fuel self t) fun o => ∀ u, o = some u → u.Within R := by
  obtain ⟨stamp, node⟩ := t
  have h := ht.node rfl
  cases node with
  | ref x =>
    show Keeps I (if x.kind = .clause then _ else _) _
    split
    -- only references to let clauses unfold, and the region says to which ones there may be some
    next hkind =>
      refine (hI.clause (h hkind)).bind fun c hc => .pure ?_
      rintro _ ⟨rfl⟩
      exact hc.1.1
    next => exact .pure (by simp)
  | app fn arg =>
    refine (hself fn h.1).bind fun head hhead => ?_
    split
    · refine (hI.makeApp fuel hhead (by simpa using h.2)).bind fun t ht => .pure ?_
      rintro _ ⟨rfl⟩
      exact ht
    · exact keeps_rebuilt hI fn head ⟨hhead, h.2⟩
  | call f sortArg args =>
    refine (keeps_call hI hsig hself fuel f sortArg h).bind fun e he => .pure ?_
    exact he.reduct
  | field f sortArg arg =>
    refine (hself arg h).bind fun value hvalue => ?_
    have hrebuilt := keeps_rebuilt hI arg value (n := .field f sortArg value) hvalue
    split
    next renewed r heq =>
      have hr := hvalue.node heq
      refine (hI.implementation fuel f hr.2 hvalue).bind fun o ho => ?_
      cases o with
      | some u => exact .pure ho
      | none => exact hrebuilt
    next => exact Keeps.bind (P := fun o => o = none) (.pure rfl) fun o ho => ho ▸ hrebuilt
  | proj u index =>
    refine (hself u h).bind fun value hvalue => ?_
    have hrebuilt := keeps_rebuilt hI u value (n := .proj value index) hvalue
    split
    next fields type heq =>
      have hfields := hvalue.node heq
      refine (Invariant.componentAt index hfields.1).bind fun o ho => ?_
      cases o with
      | some c => exact .pure ho
      | none => exact hrebuilt
    next => exact Keeps.bind (P := fun o => o = none) (.pure rfl) fun o ho => ho ▸ hrebuilt
  | letIn strict xs body =>
    refine .pure ?_
    rintro _ ⟨rfl⟩
    exact h.2
  | case c =>
    refine (keeps_caseOf hI hself fuel h).bind fun e he => .pure ?_
    exact he.reduct
  | ofType u type =>
    refine .pure ?_
    rintro _ ⟨rfl⟩
    exact h.1
  | unknown v => exact hI.solution? _
  | delayed u exprs levels =>
    refine (hI.solution? u).bind fun o _ => ?_
    split
    · exact .pure (by simp)
    · refine (hI.expandDelayed fuel levels h.1 h.2).bind fun e he => .pure ?_
      rintro _ ⟨rfl⟩
      exact he
  | con _ | data _ | record _ | lam | pi | sigma _ | tuple | univ _ | new | int _ | hole =>
    exact .pure (by simp)

end Reduction

namespace Invariant

variable {t : Term}

include hI hsig

variable (fuel : Nat)

theorem whnf (ht : t.Within R) : Keeps I (t.whnf sig fuel) (Term.Within R) := by
  induction fuel generalizing t with
  | zero => exact .throw
  | succ fuel ih =>
    rw [Term.whnf]
    refine (Reduction.keeps_step hI hsig (fun u hu => ih hu) fuel ht).bind fun o ho => ?_
    cases o with
    | none => exact .pure ht
    | some u => exact ih (ho u rfl)

theorem evalCall {args : List Term} (f : FuncName) (sortArg : USort)
    (hargs : ∀ t ∈ args, t.Within R) :
    Keeps I (Recheck.evalCall sig fuel f sortArg args) (Evaluation.Within R) :=
  Reduction.keeps_call hI hsig (fun _ ht => hI.whnf hsig fuel ht) fuel f sortArg hargs

theorem evalCase {c : CaseOf Term} (hc : R.Holds c.parts) :
    Keeps I (Recheck.evalCase sig fuel c) (Evaluation.Within R) :=
  Reduction.keeps_caseOf hI (fun _ ht => hI.whnf hsig fuel ht) fuel hc

theorem matchPatterns {ps : List (Pattern Term)} {ts : List Term}
    (hps : R.Holds (Pattern.partsOf ps)) (hts : ∀ t ∈ ts, t.Within R) :
    Keeps I (Recheck.matchPatterns sig fuel ps ts) (Match.Within R) :=
  Reduction.keeps_matchPatterns hI (fun _ ht => hI.whnf hsig fuel ht) fuel hps hts

/-! ## Normal forms -/

omit hI hsig in
/-- An evaluation that an argument blocks is stuck on what that argument is stuck on. -/
theorem statusWith {self : Term → Core (Decision × Option Term)} {e : Evaluation}
    (hself : ∀ t, t.Within R → Keeps I (self t) fun r => ∀ u, r.2 = some u → u.Within R)
    (he : e.Within R) :
    Keeps I (e.statusWith self) fun r => ∀ u, r.2 = some u → u.Within R := by
  match e with
  | .reduced _ => exact .pure (by simp)
  | .stuck none => exact .pure (by simp)
  | .stuck (some t) => exact (hself t (he t rfl)).bind fun r hr => .pure hr

variable (fuel : Nat) (ht : t.Within R)

include ht

/-- The induction is on the fuel: what a term is stuck on can be stuck itself. -/
theorem status : Keeps I (t.status sig fuel) fun r => ∀ u, r.2 = some u → u.Within R := by
  induction fuel generalizing t with
  | zero => exact .throw
  | succ fuel ih =>
    obtain ⟨stamp, node⟩ := t
    have h := ht.node rfl
    cases node with
    | ref x =>
      refine .pure fun u hu => ?_
      split at hu
      · cases hu
      · obtain rfl := Option.some.inj hu
        exact ht
    | app fn arg =>
      refine (hI.underlying fuel h.1).bind fun u _ => ?_
      split
      · exact .pure (by simp)
      · exact ih h.1
    | call f sortArg args =>
      exact (hI.evalCall hsig fuel f sortArg h).bind fun e he => statusWith (fun _ hu => ih hu) he
    | field f sortArg arg =>
      refine (hI.whnf hsig fuel h).bind fun value hvalue => ?_
      split
      · split
        · exact .pure (by simp)
        · exact ih hvalue
      · exact ih hvalue
    | proj u index =>
      refine (hI.whnf hsig fuel h).bind fun value hvalue => ?_
      split
      · split
        · exact .pure (by simp)
        · exact ih hvalue
      · exact ih hvalue
    | case c =>
      exact (hI.evalCase hsig fuel h).bind fun e he => statusWith (fun _ hu => ih hu) he
    | hole goal part =>
      refine .pure fun u hu => ?_
      obtain rfl := Option.some.inj hu
      exact ht
    | unknown v =>
      refine (hI.solution? _).bind fun o ho => ?_
      cases o with
      | some u => exact ih (ho u rfl)
      | none =>
        refine .pure fun u hu => ?_
        obtain rfl := Option.some.inj hu
        exact ht
    | delayed u exprs levels =>
      exact (hI.expandDelayed fuel levels h.1 h.2).bind fun e he => ih he
    | letIn | ofType | con _ | data _ | record _ | lam | pi | sigma _ | tuple | univ _ | new
    | int _ => exact .pure (by simp)

theorem isWhnf : Preserves I (t.isWhnf sig fuel) :=
  (hI.status hsig fuel ht).then_pure

theorem stuckOn : Keeps I (t.stuckOn sig fuel) fun o => ∀ u, o = some u → u.Within R :=
  (hI.status hsig fuel ht).bind fun _ hr => .pure hr

theorem stuckUnknown : Preserves I (t.stuckUnknown sig fuel) := by
  refine (hI.stuckOn hsig fuel ht).bind fun o ho => ?_
  cases o with
  | none => exact .pure trivial
  | some u =>
    refine (hI.solution? u).bind fun o _ => ?_
    split
    · exact .pure trivial
    · exact .pure trivial

theorem piParameters : Keeps I (Recheck.piParameters sig fuel t) fun r =>
      R.Holds (r.1.flatMap Column.parts) ∧ r.2.Within R := by
  induction fuel generalizing t with
  | zero => exact .throw
  | succ fuel ih =>
    rw [Recheck.piParameters]
    refine (hI.whnf hsig fuel ht).bind fun t ht => ?_
    split
    next sort ps codomain heq =>
      have h := ht.node heq
      refine (ih h.2).bind fun r hr => .pure ⟨?_, hr.2⟩
      rw [List.flatMap_append, Region.holds_append]
      exact ⟨Telescope.holds_columns h.1, hr.1⟩
    next => exact .pure ⟨by simp, ht⟩

end Invariant

/-! ## Constructors of a data type -/

/-- The data arguments of an admitted constructor keep to the region. -/
def Admission.Within (R : Region) : Admission → Prop
  | .admitted dataArgs => ∀ t ∈ dataArgs, t.Within R
  | .refused | .undetermined => True

theorem Signature.Within.dataMapping (hsig : sig.Within R) {dataArgs : List Term} (c : ConName)
    (h : ∀ t ∈ dataArgs, t.Within R) : R.Holds (sig.dataMapping c dataArgs).parts := by
  have hcolumns := hsig.dataColumns c
  refine Mapping.holds_insertVars Mapping.holds_empty (fun x hx => ?_) h
  obtain ⟨column, hmem, rfl⟩ := List.mem_map.mp hx
  simp only [Column.parts, Region.holds_flatMap, Region.holds_cons] at hcolumns
  exact (hcolumns column hmem).1

namespace Invariant

variable {d : DataType Term}

include hI

set_option linter.unusedSectionVars false in
mutual

theorem toTerm : ∀ p : Pattern Term, R.Holds p.parts → Keeps I p.toTerm (Term.Within R)
  | .bind x type => by
    intro hp
    simp only [Pattern.parts, Pattern.bindings, List.flatMap_cons, List.flatMap_nil,
      List.append_nil, Region.holds_cons, Part.within_binder] at hp
    rw [Pattern.toTerm]
    exact hI.buildRef hp.1
  | .con c args => by
    intro hp
    rw [Pattern.toTerm]
    refine (toTerms args hp).bind fun ts hts => hI.build ?_
    exact ⟨by simp, hts⟩
  | .wild | .absurd | .tuple _ | .record .. => fun _ => by
    rw [Pattern.toTerm]
    exact hI.build (by simp)

theorem toTerms : ∀ ps : List (Pattern Term), R.Holds (Pattern.partsOf ps) →
    Keeps I (Pattern.toTerms ps) fun ts => ∀ t ∈ ts, t.Within R
  | [] => fun _ => by rw [Pattern.toTerms]; exact .pure (by simp)
  | p :: ps => by
    intro hps
    rw [Pattern.partsOf_cons, Region.holds_append] at hps
    rw [Pattern.toTerms]
    refine (toTerm p hps.1).bind fun t ht => (toTerms ps hps.2).bind fun ts hts => .pure ?_
    exact List.forall_mem_cons.mpr ⟨ht, hts⟩

end

include hsig

variable (fuel : Nat)

theorem admission (c : ConName) (hd : ∀ t ∈ d.args, t.Within R) :
    Keeps I (d.admission sig fuel c) (Admission.Within R) := by
  rw [DataType.admission]
  split
  · exact .pure hd
  next ps hps =>
    refine (hI.matchPatterns hsig fuel (hsig.patterns c ps hps) hd).bind fun r hr => ?_
    cases r with
    | no => exact .pure trivial
    | maybe t => exact .pure trivial
    | yes m =>
      refine .pure fun t ht => ?_
      obtain ⟨b, -, hget⟩ := List.mem_filterMap.mp ht
      exact Mapping.within_get? hr hget

/-- One constructor that cannot be decided leaves all of them open. -/
theorem admittedAmong (cs : List ConName) (hd : ∀ t ∈ d.args, t.Within R) :
    Keeps I (d.admittedAmong sig fuel cs) fun o =>
      ∀ cons, o = some cons → ∀ e ∈ cons, ∀ t ∈ e.2, t.Within R := by
  induction cs with
  | nil =>
    refine .pure ?_
    rintro _ ⟨rfl⟩
    simp
  | cons c cs ih =>
    rw [DataType.admittedAmong]
    refine (hI.admission hsig fuel c hd).bind fun r hr => ?_
    cases r with
    | undetermined => exact .pure (by simp)
    | refused => exact ih
    | admitted dataArgs =>
      refine ih.bind fun o ho => .pure fun cons hcons => ?_
      obtain ⟨rest, rfl, rfl⟩ := Option.map_eq_some_iff.mp hcons
      exact List.forall_mem_cons.mpr ⟨hr, ho rest rfl⟩

theorem admitted (hd : ∀ t ∈ d.args, t.Within R) :
    Keeps I (d.admitted sig fuel) fun o =>
      ∀ cons, o = some cons → ∀ e ∈ cons, ∀ t ∈ e.2, t.Within R :=
  hI.admittedAmong hsig fuel _ hd

theorem dataType {c : ConApp Term} (hc : ∀ t ∈ c.dataArgs, t.Within R) :
    Keeps I (c.dataType sig fuel) fun d => ∀ t ∈ d.args, t.Within R := by
  rw [ConApp.dataType]
  dsimp only
  split
  · exact .pure hc
  next ps hps =>
    have hparts := hsig.patterns c.con ps hps
    have hσ := hsig.dataMapping c.con hc
    refine (Keeps.mapM (Q := Term.Within R) fun p hp => ?_).bind fun args hargs => .pure hargs
    exact (hI.toTerm p (Pattern.holds_of_mem hparts hp)).bind fun t ht => hI.subst fuel ht hσ

end Invariant

end Recheck
