import Recheck.Proofs.Renumbering.Substitution

/-!
# Recheck — texts, seen from two runs

Corresponding terms are printed by the same steps. The texts are the same too, since no numbers
are printed, but nothing depends on them.
-/

namespace Recheck

variable {β : Pairing}

theorem Term.Like.asEquality {t t' : Term} (ht : t.Like β t') :
    Option.Rel (fun p p' => p.1.Like β p'.1 ∧ p.2.1.Like β p'.2.1 ∧ p.2.2.Like β p'.2.2)
      t.asEquality t'.asEquality := by
  obtain ⟨-, hnode⟩ := ht.destruct
  cases hnode with
  | call f sort hargs =>
    cases hargs with
    | nil => exact .none
    | cons h₁ hargs =>
      cases hargs with
      | nil => exact .none
      | cons h₂ hargs =>
        cases hargs with
        | nil => exact .none
        | cons h₃ hargs =>
          cases hargs with
          | cons _ _ => exact .none
          | nil =>
            simp only [Term.asEquality, Term.node]
            split
            · exact .some ⟨h₁, h₂, h₃⟩
            · exact .none
  | _ => exact .none

/-- The operations do the same, whatever they return. -/
abbrev Echoes {A : Type} (β : Pairing) (x x' : Core A) : Prop := Mirrors β x x' fun _ _ => True

section Printer

variable {β : Pairing} {sig : Signature} {fuel fuel' : Nat} (hle : fuel ≤ fuel')
variable {t t' : Term}

include hle in
theorem mirrors_isAtomic (ht : t.Like β t') :
    Mirrors β (t.isAtomic sig fuel) (t'.isAtomic sig fuel') Eq := by
  cases fuel with
  | zero => exact Mirrors.outOfFuel
  | succ fuel =>
    obtain ⟨fuel', rfl, -⟩ := exists_fuel_of_succ_le hle
    obtain ⟨-, hnode⟩ := ht.destruct
    rw [Term.isAtomic, Term.isAtomic]
    cases hnode with
    | sigma sort hps => exact .pure (forall₂_isEmpty hps)
    | call f sort hargs => exact .pure (forall₂_isEmpty hargs)
    | con c sort hdata hargs => exact .pure (forall₂_isEmpty hargs)
    | data d sort hargs => exact .pure (forall₂_isEmpty hargs)
    | record hr => exact .pure (forall₂_isEmpty hr.impls)
    | _ => exact .pure rfl

namespace Printer

variable {self self' : Term → Core String}
  (hself : ∀ t t', t.Like β t' → Echoes β (self t) (self' t'))
variable {ts ts' : List Term} {ps ps' : Telescope Term}

include hself

/-- A text that is put together from another one. -/
theorem echoes_text {f f' : String → String} (ht : t.Like β t') :
    Echoes β (do return f (← self t)) (do return f' (← self' t')) :=
  (hself _ _ ht).bind fun _ _ _ => .pure trivial

include hle in
theorem echoes_arg (ht : t.Like β t') :
    Echoes β (arg sig fuel self t) (arg sig fuel' self' t') := by
  refine (mirrors_isAtomic hle ht).bind ?_
  rintro atomic _ rfl
  exact Mirrors.ite Iff.rfl (fun _ => hself _ _ ht) fun _ => echoes_text hself ht

include hle in
theorem echoes_args (hts : Term.AllLike β ts ts') :
    Echoes β (args sig fuel self ts) (args sig fuel' self' ts') := by
  induction hts with
  | nil => exact .pure trivial
  | cons ht _ ih =>
    exact (echoes_arg hle hself ht).bind fun _ _ _ => ih.bind fun _ _ _ => .pure trivial

theorem echoes_params (group : Option Bool) (hps : Telescope.Like β ps ps') :
    Echoes β (params self group ps) (params self' group ps') := by
  induction hps generalizing group with
  | nil => exact Mirrors.ite Iff.rfl (fun _ => .throw) fun _ => .pure trivial
  | cons hp hps ih =>
    obtain ⟨hx, htype⟩ := hp
    rw [params, params]
    cases htype with
    | none => exact (ih _).bind fun _ _ _ => .pure trivial
    | some ht => exact (hself _ _ ht).bind fun _ _ _ => (ih _).bind fun _ _ _ => .pure trivial

theorem echoes_recordType {r r' : RecordType Term} (hr : r.Like β r') :
    Echoes β (recordType sig self r) (recordType sig self' r') := by
  refine Mirrors.bind (R := fun _ _ => True) ?_ fun _ _ _ => .pure trivial
  rw [impls, impls, sig.implemented_eq hr]
  refine Mirrors.bind (R := List.Forall₂ fun _ _ => True) ?_ fun texts texts' htexts => ?_
  · refine Mirrors.filterMapM (forall₂_eq _) ?_
    rintro f _ rfl
    exact Mirrors.optionMapM (hr.impl? f) fun _ _ himpl => echoes_text hself himpl
  · exact Mirrors.ite (by rw [forall₂_isEmpty htexts]) (fun _ => .pure trivial)
      fun _ => .pure trivial

theorem echoes_scrutinees (hts : Term.AllLike β ts ts')
    (hps : Telescope.Like β ps ps') :
    Echoes β (scrutinees self ts ps) (scrutinees self' ts' ps') := by
  induction hts generalizing ps ps' with
  | nil => exact .pure trivial
  | cons ht _ ih =>
    cases hps with
    | nil => exact (hself _ _ ht).bind fun _ _ _ => (ih .nil).bind fun _ _ _ => .pure trivial
    | cons _ hps =>
      exact (hself _ _ ht).bind fun _ _ _ => (ih hps).bind fun _ _ _ => .pure trivial

theorem echoes_clause {c c' : Clause Term} (hc : c.Like β c') :
    Echoes β (clause self c) (clause self' c') := by
  obtain ⟨-, hbody⟩ := hc
  rw [clause, clause]
  cases hbody with
  | none => exact .pure trivial
  | some hbody => exact echoes_text hself hbody

theorem echoes_caseOf {c c' : CaseOf Term} (hc : c.Like β c') :
    Echoes β (caseOf self c) (caseOf self' c') := by
  have hclauses : List.Forall₂ (Clause.Like β) (c.elim.elim [] Elim.clauses)
      (c'.elim.elim [] Elim.clauses) := by
    obtain ⟨-, -, -, helim, -⟩ := hc
    cases helim with
    | none => exact .nil
    | some he =>
      obtain ⟨-, hclauses, -⟩ := he
      exact hclauses
  obtain ⟨hps, hresult, -, -, hargs⟩ := hc
  refine (echoes_scrutinees hself hargs hps).bind fun _ _ _ => ?_
  refine (hself _ _ hresult).bind fun _ _ _ => ?_
  exact (Mirrors.mapM hclauses fun _ _ hc => echoes_clause hself hc).bind
    fun _ _ _ => .pure trivial

include hle

/-- One step of printing; the cases follow the forms of terms. -/
theorem echoes_step (ht : t.Like β t') :
    Echoes β (step sig fuel self t) (step sig fuel' self' t') := by
  obtain ⟨-, hnode⟩ := ht.destruct
  rw [step, step]
  cases hnode with
  | ref hx => exact .pure trivial
  | @app fn fn' _ _ hfn harg =>
    have hrest {f f' : String → String} :
        Echoes β (do return f (← arg sig fuel self _)) (do return f' (← arg sig fuel' self' _)) :=
      (echoes_arg hle hself harg).bind fun _ _ _ => .pure trivial
    have hother : Echoes β (do return (← arg sig fuel self fn) ++ " " ++ (← arg sig fuel self _))
        (do return (← arg sig fuel' self' fn') ++ " " ++ (← arg sig fuel' self' _)) :=
      (echoes_arg hle hself hfn).bind fun _ _ _ => hrest
    obtain ⟨-, hnode⟩ := hfn.destruct
    cases hnode with
    | app _ _ => exact (hself _ _ hfn).bind fun _ _ _ => hrest
    | _ => exact hother
  | call f sort hargs =>
    have hcall : Echoes β (do return f.name ++ (← args sig fuel self _))
        (do return f.name ++ (← args sig fuel' self' _)) :=
      (echoes_args hle hself hargs).bind fun _ _ _ => .pure trivial
    have hequality := ht.asEquality
    simp only [Term.node]
    generalize Term.asEquality _ = o at hequality ⊢
    generalize Term.asEquality _ = o' at hequality ⊢
    cases hequality with
    | none => exact hcall
    | some h =>
      refine (echoes_arg hle hself h.2.1).bind fun _ _ _ => ?_
      exact (echoes_arg hle hself h.2.2).bind fun _ _ _ => .pure trivial
  | con c sort hdata hargs =>
    exact (echoes_args hle hself hargs).bind fun _ _ _ => .pure trivial
  | data d sort hargs =>
    exact (echoes_args hle hself hargs).bind fun _ _ _ => .pure trivial
  | field f sort harg => exact (echoes_arg hle hself harg).bind fun _ _ _ => .pure trivial
  | record hr => exact echoes_recordType hself hr
  | lam sort hps hbody | pi sort hps hbody =>
    exact (echoes_params hself none hps).bind fun _ _ _ => echoes_text hself hbody
  | sigma sort hps =>
    refine Mirrors.ite (by rw [forall₂_isEmpty hps]) (fun _ => .pure trivial) fun _ => ?_
    exact (echoes_params hself none hps).bind fun _ _ _ => .pure trivial
  | tuple sort hfields hn hps =>
    refine Mirrors.bind (R := fun _ _ => True) ?_ fun _ _ _ => .pure trivial
    exact (Mirrors.mapM hfields hself).bind fun _ _ _ => .pure trivial
  | proj hu index => exact (echoes_arg hle hself hu).bind fun _ _ _ => .pure trivial
  | univ sort => exact .pure trivial
  | new hrenewed hn hr =>
    cases hrenewed with
    | none => exact (echoes_recordType hself hr).bind fun _ _ _ => .pure trivial
    | some hu =>
      refine (echoes_arg hle hself hu).bind fun _ _ _ => ?_
      exact (echoes_recordType hself hr).bind fun _ _ _ => .pure trivial
  | case hc => exact echoes_caseOf hself hc
  | ofType hu htype => exact (hself _ _ hu).bind fun _ _ _ => echoes_text hself htype
  | int i => exact .pure trivial
  | hole goal hpart =>
    cases goal with
    | true => exact .pure trivial
    | false =>
      cases hpart with
      | none => exact .pure trivial
      | some hu => exact echoes_text hself hu

end Printer

include hle

theorem echoes_print (ht : t.Like β t') : Echoes β (t.print sig fuel) (t'.print sig fuel') := by
  induction fuel generalizing fuel' t t' with
  | zero => exact Mirrors.outOfFuel
  | succ fuel ih =>
    obtain ⟨fuel', rfl, hrest⟩ := exists_fuel_of_succ_le hle
    exact Printer.echoes_step hrest (fun _ _ hu => ih hrest hu) ht

/-- Both runs come to a text, also if printing the term ends in a fault. -/
theorem echoes_quote (ht : t.Like β t') : Echoes β (t.quote sig fuel) (t'.quote sig fuel') := by
  intro s s' hs
  have h : Reflects β (fun _ _ => True) (t'.print sig fuel' s') (t.print sig fuel s) :=
    echoes_print hle ht s s' hs
  rw [Term.quote, Term.quote]
  cases hr : t.print sig fuel s with
  | ok text s₁ =>
    rw [hr] at h
    obtain ⟨text', s₁', hr', -, hs₁⟩ := h
    rw [hr']
    exact ⟨text', s₁', rfl, trivial, hs₁⟩
  | error f s₁ =>
    rw [hr] at h
    by_cases hf : f = .outOfFuel
    · subst hf
      exact .inl rfl
    · obtain ⟨s₁', hr', hs₁⟩ := h.resolve_left hf
      rw [hr']
      cases f with
      | outOfFuel => exact absurd rfl hf
      | _ => exact ⟨_, s₁', rfl, trivial, hs₁⟩

end Printer

end Recheck
