import Recheck.Proofs.Keeps.Conversion
import Recheck.Proofs.Renumbering.Reduction

/-!
# Recheck — comparisons, seen from two runs

Two comparisons of corresponding terms give the same answer. There are no unknowns in them that
could be assigned to.
-/

namespace Recheck

open List (Forall₂)

/-! ## The solver -/

namespace Solver

variable {β : Pairing}

theorem mirrors_addLevelEquation (e : LevelEquation) :
    Mirrors β (addLevelEquation e) (addLevelEquation e) Eq := by
  refine Mirrors.get.bind fun s s' hs => ?_
  have hflag := hs.equations.deferLevels.1.trans hs.equations.deferLevels.2.symm
  refine Mirrors.ite (by rw [hflag]) (fun _ => ?_) fun _ => .pure rfl
  refine (Mirrors.modify fun _ _ hs => ?_).bind fun _ _ _ => .pure rfl
  exact ⟨hs.store, hs.equations.1, hs.equations.2⟩

theorem lasting_mirrors : Lasting fun x => Mirrors β x x Eq where
  pure _ := .pure rfl
  throw _ := .throw
  putOff := mirrors_addLevelEquation
  both hx hy := hx.bind fun _ _ hc => hc ▸ .ite Iff.rfl (fun _ => hy) fun _ => .pure rfl

theorem mirrors_compareSorts (span : Span) (r : Relation) (a b : USort) :
    Mirrors β (compareSorts span r a b) (compareSorts span r a b) Eq :=
  lasting_mirrors.compareSorts span r a b

end Solver

/-! ## Correspondences of bound variables -/

theorem Renaming.relates_bind (ρ : Renaming) (x y z w : Var) :
    (ρ.bind x y).relates z w = if z = x then y == w else ρ.relates z w := by
  rw [Renaming.relates, Renaming.bind, List.lookup_cons]
  by_cases hzx : z = x
  · rw [if_pos hzx, hzx, beq_self_eq_true]
    rfl
  · have hrest : (ρ.pairs.filter fun e => e.1 ≠ x).lookup z = ρ.pairs.lookup z := by
      induction ρ.pairs with
      | nil => rfl
      | cons e es ih =>
        obtain ⟨u, v⟩ := e
        by_cases hux : u = x
        · rw [List.filter_cons_of_neg (by simpa using hux), ih, List.lookup_cons,
            beq_false_of_ne (hux ▸ hzx)]
        · rw [List.filter_cons_of_pos (by simpa using hux), List.lookup_cons, List.lookup_cons, ih]
    rw [if_neg hzx, beq_false_of_ne hzx]
    exact congrArg (· == some w) hrest

/-- The correspondences of bound variables agree on variables that correspond. -/
structure Renaming.Paired (β : Pairing) (ρ ρ' : Renaming) : Prop where
  relates : ∀ {x x' y y'}, x.Paired β x' → y.Paired β y' → ρ.relates x y = ρ'.relates x' y'

namespace Renaming.Paired

variable {β : Pairing} {ρ ρ' : Renaming} {x x' y y' : Var}

theorem empty : Renaming.empty.Paired β .empty := ⟨fun _ _ => rfl⟩

theorem bind (h : ρ.Paired β ρ') (hx : x.Paired β x') (hy : y.Paired β y') :
    (ρ.bind x y).Paired β (ρ'.bind x' y') := by
  refine ⟨fun hz hw => ?_⟩
  rw [Renaming.relates_bind, Renaming.relates_bind, h.relates hz hw]
  refine if_congr (hz.eq_iff hx) ?_ rfl
  exact Bool.eq_iff_iff.mpr (by simpa using hy.eq_iff hw)

end Renaming.Paired

/-- Whether the node is a function, a tuple or a record value. -/
def Node.isIntroduction : Node Term → Bool
  | .lam .. | .tuple .. | .new .. => true
  | _ => false

namespace Conversion

/-! ## Unknowns -/

section Unknowns

variable {β : Pairing} {sig : Signature} {fuel fuel' : Nat} {ρ ρ' : Renaming}
variable {a a' b b' : Term} {type type' : Option Term}

/-- No unknown decides on the comparison. -/
theorem mirrors_unknowns (hsig : sig.Steady β) (hle : fuel ≤ fuel') (span : Span) (r : Relation)
    (ha : a.Like β a') (hb : b.Like β b') :
    Mirrors β (unknowns sig fuel span ρ r a b type) (unknowns sig fuel' span ρ' r a' b' type')
      fun o o' => o = none ∧ o' = none := by
  refine (mirrors_isWhnf hsig hle ha).liftSolver.bind ?_
  rintro da _ ⟨rfl, hda⟩
  refine (mirrors_isWhnf hsig hle hb).liftSolver.bind ?_
  rintro db _ ⟨rfl, hdb⟩
  refine Mirrors.ite Iff.rfl (fun _ => .pure ⟨rfl, rfl⟩) fun hmaybe => ?_
  exact absurd (by simp [hda, hdb]) hmaybe

end Unknowns

/-! ## The comparison -/

/-- The recursive calls of two comparisons give the same answers. -/
def Alike (β : Pairing)
    (self self' : Renaming → Relation → Term → Term → Option Term → Solver Bool) : Prop :=
  ∀ ⦃ρ ρ' a a' b b' type type'⦄ (r : Relation), ρ.Paired β ρ' → a.Like β a' → b.Like β b' →
    Mirrors β (self ρ r a b type) (self' ρ' r a' b' type') Eq

section Step

variable {β : Pairing} {sig : Signature} {fuel fuel' : Nat} (hle : fuel ≤ fuel')
  {self self'} (hself : Alike β self self')
variable {as as' bs bs' : List Term} {ps ps' qs qs' : Telescope Term} {t t' value value' : Term}
  {r r' a a' b b' : RecordType Term} {type type' : Option Term}

theorem mirrors_both {x x' y y' : Solver Bool} (hx : Mirrors β x x' Eq)
    (hy : Mirrors β y y' Eq) : Mirrors β (both x y) (both x' y') Eq := by
  refine hx.bind ?_
  rintro answer _ rfl
  exact Mirrors.ite Iff.rfl (fun _ => hy) fun _ => .pure rfl

include hself

variable {ρ ρ' : Renaming}

section

variable (hρ : ρ.Paired β ρ') (has : Term.AllLike β as as')
  (hbs : Term.AllLike β bs bs')

include hρ has hbs

theorem mirrors_pairs : Mirrors β (pairs self ρ as bs) (pairs self' ρ' as' bs') Eq := by
  induction has generalizing bs bs' with
  | nil => exact .pure rfl
  | cons ha _ ih =>
    cases hbs with
    | nil => exact .pure rfl
    | cons hb hbs => exact mirrors_both (hself .eq hρ ha hb) (ih hbs)

theorem mirrors_args : Mirrors β (args self ρ as bs) (args self' ρ' as' bs') Eq :=
  Mirrors.ite (by rw [has.length_eq, hbs.length_eq]) (fun _ => mirrors_pairs hself hρ has hbs)
    fun _ => .pure rfl

end

theorem mirrors_params (r : Relation) (hρ : ρ.Paired β ρ')
    (hps : Telescope.Like β ps ps')
    (hqs : Telescope.Like β qs qs') :
    Mirrors β (params self r ρ ps qs) (params self' r ρ' ps' qs') Eq := by
  induction hps generalizing ρ ρ' qs qs' with
  | nil =>
    cases hqs with
    | nil => exact .pure rfl
    | cons _ _ => exact .pure rfl
  | cons hp hps ih =>
    cases hqs with
    | nil => exact .pure rfl
    | cons hq hqs =>
      rw [params, params]
      refine (mirrors_headTypeM (.cons hp hps)).liftSolver.bind fun a a' ha => ?_
      refine (mirrors_headTypeM (.cons hq hqs)).liftSolver.bind fun b b' hb => ?_
      exact mirrors_both (hself r hρ ha hb) (ih (hρ.bind hp.var hq.var) hqs)

theorem mirrors_firstParam (hρ : ρ.Paired β ρ')
    {rest rest' : Renaming → Telescope Term → Telescope Term → Solver Bool}
    (hps : Telescope.Like β ps ps') (hqs : Telescope.Like β qs qs')
    (hrest : ∀ ρ ρ' ps ps' qs qs', ρ.Paired β ρ' → Telescope.Like β ps ps' →
      Telescope.Like β qs qs' →
        Mirrors β (rest ρ ps qs) (rest' ρ' ps' qs') Eq) :
    Mirrors β (firstParam self ρ ps qs rest) (firstParam self' ρ' ps' qs' rest') Eq := by
  cases hps with
  | nil => exact .throw
  | cons hp hps =>
    cases hqs with
    | nil => exact .throw
    | cons hq hqs =>
      refine (mirrors_headTypeM (.cons hp hps)).liftSolver.bind fun a a' ha => ?_
      refine (mirrors_headTypeM (.cons hq hqs)).liftSolver.bind fun b b' hb => ?_
      exact mirrors_both (hself .eq hρ ha hb)
        (hrest _ _ _ _ _ _ (hρ.bind hp.var hq.var) hps hqs)

include hle in
theorem mirrors_eta (hρ : ρ.Paired β ρ') (sort : USort) {body body' : Term}
    (hps : Telescope.Like β ps ps') (hbody : body.Like β body') (ht : t.Like β t') :
    Mirrors β (eta sig fuel self ρ sort ps body t) (eta sig fuel' self' ρ' sort ps' body' t')
      Eq := by
  cases hps with
  | nil => exact .throw
  | cons hp hps =>
    refine (mirrors_buildRef hp.var).liftSolver.bind fun ref ref' href => ?_
    refine (mirrors_makeApp hle ht (.cons href .nil)).liftSolver.bind fun app app' happ => ?_
    refine (mirrors_makeLam sort hps hbody).liftSolver.bind fun rest rest' hrest => ?_
    exact hself .eq hρ hrest happ

theorem mirrors_tupleEta (hρ : ρ.Paired β ρ') {us us' : List Term} (index : Nat) (ht : t.Like β t')
    (hus : Term.AllLike β us us') :
    Mirrors β (tupleEta self ρ t index us) (tupleEta self' ρ' t' index us') Eq := by
  induction hus generalizing index with
  | nil => exact .pure rfl
  | cons hu _ ih =>
    rw [tupleEta, tupleEta]
    refine (mirrors_makeProj _ ht).liftSolver.bind fun proj proj' hproj => ?_
    exact mirrors_both (hself .eq hρ hu hproj) (ih _)

include hle in
theorem mirrors_recordEta (hρ : ρ.Paired β ρ') (hvalue : value.Like β value')
    (hr : r.Like β r') (ht : t.Like β t') (fs : List FieldName) :
    Mirrors β (recordEta sig fuel self ρ value r t fs)
      (recordEta sig fuel' self' ρ' value' r' t' fs) Eq := by
  have hsort := hr.sortArg
  induction fs with
  | nil => exact .pure rfl
  | cons f fs ih =>
    rw [recordEta, recordEta]
    refine (mirrors_implementation hle f hr hvalue).liftSolver.bind fun o o' ho => ?_
    cases ho with
    | none => exact .pure rfl
    | some himpl =>
      rw [hsort]
      refine (mirrors_makeField hle f _ ht).liftSolver.bind fun proj proj' hproj => ?_
      exact mirrors_both (hself .eq hρ himpl hproj) ih

include hle in
/-- All fields of a record value. -/
theorem mirrors_recordValueEta (hρ : ρ.Paired β ρ') (hvalue : value.Like β value')
    (hr : r.Like β r') (ht : t.Like β t') :
    Mirrors β (recordEta sig fuel self ρ value r t (sig.record r.record).fields)
      (recordEta sig fuel' self' ρ' value' r' t' (sig.record r'.record).fields) Eq := by
  rw [← hr.record]
  exact mirrors_recordEta hle hself hρ hvalue hr ht _

theorem mirrors_impls (hρ : ρ.Paired β ρ') (r : Relation) (ha : a.Like β a')
    (hb : b.Like β b') (fs : List FieldName) :
    Mirrors β (impls self ρ r a b fs) (impls self' ρ' r a' b' fs) Eq := by
  induction fs with
  | nil => exact .pure rfl
  | cons f fs ih =>
    have hia := ha.impl? f
    have hib := hb.impl? f
    rw [impls, impls]
    generalize a.impl? f = oa, a'.impl? f = oa' at hia ⊢
    generalize b.impl? f = ob, b'.impl? f = ob' at hib ⊢
    cases hia with
    | some hia =>
      cases hib with
      | some hib => exact mirrors_both (hself .eq hρ hia hib) ih
      | none => exact Mirrors.ite Iff.rfl (fun _ => ih) fun _ => .pure rfl
    | none =>
      cases hib with
      | some hib => exact Mirrors.ite Iff.rfl (fun _ => ih) fun _ => .pure rfl
      | none => exact ih

theorem mirrors_recordTypes (hρ : ρ.Paired β ρ') (r : Relation) (ha : a.Like β a')
    (hb : b.Like β b') :
    Mirrors β (recordTypes sig self ρ r a b) (recordTypes sig self' ρ' r a' b') Eq := by
  rw [recordTypes, recordTypes, ← ha.record, ← hb.record]
  exact Mirrors.ite Iff.rfl
    (fun _ => mirrors_impls hself (hρ.bind ha.this hb.this) r ha hb _) fun _ => .pure rfl

omit hself in
theorem mirrors_literalCon (n : Int) :
    Mirrors β (literalCon n) (literalCon n) fun c c' => c.con = c'.con ∧ c.sortArg = c'.sortArg ∧
      Term.AllLike β c.dataArgs c'.dataArgs ∧
      Term.AllLike β c.args c'.args := by
  refine Mirrors.ite Iff.rfl (fun _ => .pure ⟨rfl, rfl, .nil, .nil⟩) fun _ => ?_
  refine (mirrors_build (.int _)).bind fun t t' ht => .pure ?_
  exact ⟨rfl, rfl, .nil, .cons ht .nil⟩

include hle

/-- Two terms in weak-head normal form, of which the second is neither a function nor a tuple nor a
record value. -/
theorem mirrors_rigid (span : Span) (hρ : ρ.Paired β ρ') (r : Relation) {a a' b b' : Term}
    (ha : a.Like β a') (hb : b.Like β b') (hform : b.node.isIntroduction = false) :
    Mirrors β (heads sig fuel span self ρ r a b type)
      (heads sig fuel' span self' ρ' r a' b' type') Eq := by
  have hargs {as as' bs bs' : List Term} (has : Term.AllLike β as as')
      (hbs : Term.AllLike β bs bs') := mirrors_args hself hρ has hbs
  obtain ⟨-, hna⟩ := ha.destruct
  obtain ⟨-, hnb⟩ := hb.destruct
  rw [heads, heads]
  cases hna with
  | lam s hps hbody =>
    cases hnb with
    | _ => first | exact mirrors_eta hle hself hρ s hps hbody hb | cases hform
  | tuple s hfields hn hps =>
    cases hnb with
    | _ => first | exact mirrors_tupleEta hself hρ 0 hb hfields | cases hform
  | new hrenewed hn hr =>
    cases hnb with
    | _ => first | exact mirrors_recordValueEta hle hself hρ ha hr hb | cases hform
  | ref hx =>
    cases hnb with
    | ref hy =>
      refine .pure ?_
      rw [hρ.relates hx hy]
      exact congrArg (· || _) (Bool.eq_iff_iff.mpr (by simpa using hx.eq_iff hy))
    | _ => first | exact .pure rfl | cases hform
  | app hfn harg =>
    cases hnb with
    | app hfn' harg' =>
      exact mirrors_both (hself .eq hρ hfn hfn') (hself .eq hρ harg harg')
    | _ => first | exact .pure rfl | cases hform
  | call f s hts =>
    cases hnb with
    | call g s' hts' => exact Mirrors.ite Iff.rfl (fun _ => hargs hts hts') fun _ => .pure rfl
    | _ => first | exact .pure rfl | cases hform
  | con c s hds hts =>
    cases hnb with
    | con d s' hds' hts' => exact Mirrors.ite Iff.rfl (fun _ => hargs hts hts') fun _ => .pure rfl
    | int i =>
      refine (mirrors_literalCon i).liftSolver.bind fun d d' hd => ?_
      exact Mirrors.ite (by rw [hd.1]) (fun _ => hargs hts hd.2.2.2) fun _ => .pure rfl
    | _ => first | exact .pure rfl | cases hform
  | data d s hts =>
    cases hnb with
    | data e s' hts' => exact Mirrors.ite Iff.rfl (fun _ => hargs hts hts') fun _ => .pure rfl
    | _ => first | exact .pure rfl | cases hform
  | field f s hu =>
    cases hnb with
    | field g s' hv =>
      exact Mirrors.ite Iff.rfl (fun _ => hself .eq hρ hu hv) fun _ => .pure rfl
    | _ => first | exact .pure rfl | cases hform
  | record hc =>
    cases hnb with
    | record hd => exact mirrors_recordTypes hself hρ r hc hd
    | _ => first | exact .pure rfl | cases hform
  | pi s hps hcodomain =>
    cases hnb with
    | pi s' hps' hcodomain' =>
      refine mirrors_firstParam hself hρ hps hps' fun ρ ρ' ps ps' qs qs' hρ hps hqs => ?_
      refine (mirrors_makePi s hps hcodomain).liftSolver.bind fun x x' hx => ?_
      refine (mirrors_makePi s' hqs hcodomain').liftSolver.bind fun y y' hy => ?_
      exact hself r hρ hx hy
    | _ => first | exact .pure rfl | cases hform
  | sigma s hps =>
    cases hnb with
    | sigma s' hps' => exact mirrors_params hself r hρ hps hps'
    | _ => first | exact .pure rfl | cases hform
  | proj hu i =>
    cases hnb with
    | proj hv j =>
      exact Mirrors.ite Iff.rfl (fun _ => hself .eq hρ hu hv) fun _ => .pure rfl
    | _ => first | exact .pure rfl | cases hform
  | univ s =>
    cases hnb with
    | univ s' =>
      exact Mirrors.ite Iff.rfl (fun _ => .pure rfl) fun _ => Solver.mirrors_compareSorts span r s s'
    | _ => first | exact .pure rfl | cases hform
  | int i =>
    cases hnb with
    | int j => exact .pure rfl
    | con d s' hds' hts' =>
      refine (mirrors_literalCon i).liftSolver.bind fun c c' hc => ?_
      obtain ⟨c, s, ds, ts⟩ := c
      obtain ⟨c', s', ds', ts'⟩ := c'
      obtain ⟨rfl, rfl, hds, hts⟩ : c = c' ∧ s = s' ∧ Term.AllLike β ds ds' ∧
        Term.AllLike β ts ts' := hc
      exact (mirrors_build (.con c s hds hts)).liftSolver.bind fun a a' ha =>
        hself r hρ ha hb
    | _ => first | exact .pure rfl | cases hform
  | case hc =>
    cases hnb with
    | case hd =>
      obtain ⟨-, -, -, helim, hts⟩ := hc
      obtain ⟨-, -, -, helim', hts'⟩ := hd
      refine Mirrors.ite ?_ (fun _ => hargs hts hts') fun _ => .pure rfl
      refine Relator.rel_eq (r := Option.Rel β.stamp) ⟨?_, ?_⟩ ?_ ?_
      · rintro _ _ _ ⟨h⟩ ⟨h'⟩
        · rw [β.stamp_unique.1 h h']
        · rfl
      · rintro _ _ _ ⟨h⟩ ⟨h'⟩
        · rw [β.stamp_unique.2 h h']
        · rfl
      · cases helim with
        | none => exact .none
        | some he =>
          obtain ⟨hstamp, -, -⟩ := he
          exact .some hstamp
      · cases helim' with
        | none => exact .none
        | some he =>
          obtain ⟨hstamp, -, -⟩ := he
          exact .some hstamp
    | _ => first | exact .pure rfl | cases hform
  | ofType _ _ | hole _ _ =>
    cases hnb with
    | _ => first | exact .pure rfl | cases hform

/-- Two terms in weak-head normal form. A function, a tuple or a record value decides alone
what is done; all others are compared with terms of the same form only. -/
theorem mirrors_heads (span : Span) (hρ : ρ.Paired β ρ') (r : Relation) {a a' b b' : Term}
    (ha : a.Like β a') (hb : b.Like β b') :
    Mirrors β (heads sig fuel span self ρ r a b type)
      (heads sig fuel' span self' ρ' r a' b' type') Eq := by
  obtain ⟨-, hna⟩ := ha.destruct
  obtain ⟨-, hnb⟩ := hb.destruct
  cases hnb with
  | lam s hps hbody =>
    cases hna with
    | lam s' hps' hbody' =>
      rw [heads, heads]
      refine mirrors_firstParam hself hρ hps' hps fun ρ ρ' ps ps' qs qs' hρ hps hqs => ?_
      refine (mirrors_makeLam s' hps hbody').liftSolver.bind fun x x' hx => ?_
      refine (mirrors_makeLam s hqs hbody).liftSolver.bind fun y y' hy => ?_
      exact hself .eq hρ hx hy
    | _ => exact mirrors_eta hle hself hρ s hps hbody ha
  | tuple _ hfields _ _ =>
    cases hna with
    | lam s hps hbody => exact mirrors_eta hle hself hρ s hps hbody hb
    | tuple _ hfields' _ _ => exact mirrors_args hself hρ hfields' hfields
    | _ => exact mirrors_tupleEta hself hρ 0 ha hfields
  | new _ _ hr =>
    cases hna with
    | lam s hps hbody => exact mirrors_eta hle hself hρ s hps hbody hb
    | new _ _ hr' => exact mirrors_recordTypes hself hρ .eq hr' hr
    | _ => exact mirrors_recordValueEta hle hself hρ hb hr ha
  | _ => exact mirrors_rigid hle hself span hρ r ha hb rfl

theorem mirrors_step (hsig : sig.Steady β) (span : Span) (hρ : ρ.Paired β ρ') (r : Relation)
    {a a' b b' : Term} (ha : a.Like β a') (hb : b.Like β b') :
    Mirrors β (step sig fuel span self ρ r a b type)
      (step sig fuel' span self' ρ' r a' b' type') Eq := by
  have hisHole {t t' : Term} (ht : t.Like β t') : isHole t = isHole t' := by
    obtain ⟨-, hnode⟩ := ht.destruct
    cases hnode <;> rfl
  refine Mirrors.ite (ha.same_iff hb) (fun _ => .pure rfl) fun _ => ?_
  refine (mirrors_whnf hsig hle ha).liftSolver.bind fun a a' ha => ?_
  refine (mirrors_whnf hsig hle hb).liftSolver.bind fun b b' hb => ?_
  refine Mirrors.ite ?_ (fun _ => .pure rfl) fun _ => ?_
  · rw [hisHole ha, hisHole hb, Bool.eq_iff_iff.mpr (ha.same_iff hb)]
  refine (mirrors_unknowns hsig hle span r ha hb).bind ?_
  rintro _ _ ⟨rfl, rfl⟩
  exact mirrors_heads hle hself span hρ r ha hb

end Step

theorem alike_run {β : Pairing} {sig : Signature} (hsig : sig.Steady β) (span : Span)
    {fuel fuel' : Nat} (hle : fuel ≤ fuel') :
    Alike β (run sig span fuel) (run sig span fuel') := by
  induction fuel generalizing fuel' with
  | zero =>
    intro _ _ _ _ _ _ _ _ _ _ _ _
    exact Mirrors.outOfFuel
  | succ fuel ih =>
    obtain ⟨fuel', rfl, hrest⟩ := exists_fuel_of_succ_le hle
    intro ρ ρ' a a' b b' type type' r hρ ha hb
    exact mirrors_step hrest (ih hrest) hsig span hρ r ha hb

end Conversion

/-- Comparisons of corresponding terms give the same answer. -/
theorem mirrors_compare {β : Pairing} {sig : Signature} (hsig : sig.Steady β)
    {fuel fuel' : Nat} (hle : fuel ≤ fuel') (span : Span) (r : Relation) {a a' b b' : Term}
    {type type' : Option Term} (ha : a.Like β a') (hb : b.Like β b') :
    Mirrors β (Solver.compare sig fuel span r a b type)
      (Solver.compare sig fuel' span r a' b' type') Eq :=
  Conversion.alike_run hsig span hle r .empty ha hb

end Recheck
