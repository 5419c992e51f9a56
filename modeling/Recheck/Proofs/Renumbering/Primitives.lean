import Recheck.Proofs.Renumbering.Lookup
import Recheck.Proofs.Renumbering.Runs

/-!
# Recheck — the counter, seen from two runs

The operations that take numbers, and the constructors of terms. All others are made of them.
-/

namespace Recheck

variable {β : Pairing}
variable {x x' v v' : Var} {t t' : Term} {ps ps' : Telescope Term}

/-! ## Numbers -/

/-- The numbers that are handed out next correspond. -/
theorem mirrors_fresh : Mirrors β Core.fresh Core.fresh fun n n' =>
    ∃ k, n = β.left.store.next + k ∧ n' = β.right.store.next + k := by
  rintro s s' ⟨k, hk, hk'⟩
  refine ⟨s'.next, { s' with next := s'.next + 1 }, rfl, ⟨k, hk, hk'⟩, k + 1, ?_, ?_⟩
  · exact congrArg (· + 1) hk
  · exact congrArg (· + 1) hk'

theorem mirrors_freshStamp : Mirrors β Core.fresh Core.fresh β.stamp := by
  refine mirrors_fresh.mono ?_
  rintro _ _ ⟨k, rfl, rfl⟩
  exact β.stamp_fresh k

theorem mirrors_build {n n' : Node Term} (h : n.Like β n') :
    Mirrors β (Core.build n) (Core.build n') (Term.Like β) :=
  mirrors_freshStamp.bind fun _ _ hstamp => .pure (.intro hstamp h)

theorem mirrors_freshVar {kind : VarKind} (hkind : kind = .param ∨ kind = .given) (name : String) :
    Mirrors β (Core.freshVar kind name) (Core.freshVar kind name) (Var.Paired β) := by
  refine mirrors_fresh.bind ?_
  rintro _ _ ⟨k, rfl, rfl⟩
  exact .pure (.mk (β.var_fresh kind hkind k))

theorem mirrors_freshParam (name : String) :
    Mirrors β (Core.freshVar .param name) (Core.freshVar .param name) (Var.Paired β) :=
  mirrors_freshVar (.inl rfl) name

theorem mirrors_buildRef (hx : x.Paired β x') :
    Mirrors β (Core.build (.ref x)) (Core.build (.ref x')) (Term.Like β) :=
  mirrors_build (.ref hx)

/-! ## Constructors -/

theorem mirrors_typeM {c c' : Column Term} (hc : c.Like β c') :
    Mirrors β c.typeM c'.typeM (Term.Like β) := by
  obtain ⟨hp, htype⟩ := hc
  cases htype with
  | some ht => exact .pure ht
  | none =>
    rw [Column.typeM, Column.typeM, Column.var, Column.var, hp.var.name]
    exact .throw

theorem mirrors_headTypeM (hps : Telescope.Like β ps ps') :
    Mirrors β ps.headTypeM ps'.headTypeM (Term.Like β) := by
  cases hps with
  | nil => exact .throw
  | cons hp hps => exact mirrors_typeM ⟨hp, Telescope.Paired.headType (.cons hp hps)⟩

theorem mirrors_newRecordType (r : RecordName) (sortArg sort : USort) (universes : UniverseKind) :
    Mirrors β (newRecordType r sortArg sort universes) (newRecordType r sortArg sort universes)
      (RecordType.Like β) :=
  (mirrors_freshVar (.inr rfl) _).bind fun _ _ hx => .pure ⟨.nil, hx⟩

theorem mirrors_componentAt {fields fields' : List Term} (index : Int64)
    (h : Term.AllLike β fields fields') :
    Mirrors β (componentAt fields index) (componentAt fields' index)
      (Option.Rel (Term.Like β)) :=
  Mirrors.ite Iff.rfl (fun _ => .throw) fun _ => .pure (forall₂_getElem? h _)

theorem mirrors_makeProj (index : Int64) (ht : t.Like β t') :
    Mirrors β (makeProj t index) (makeProj t' index) (Term.Like β) := by
  have hproj : Mirrors β (Core.build (.proj t index)) (Core.build (.proj t' index))
      (Term.Like β) := mirrors_build (.proj ht index)
  obtain ⟨-, hnode⟩ := ht.destruct
  cases hnode with
  | tuple sort hfields hn hps =>
    refine (mirrors_componentAt index hfields).bind fun o o' ho => ?_
    cases ho with
    | some hu => exact .pure hu
    | none => exact hproj
  | _ => exact hproj

theorem mirrors_makeLam (sort : USort) {body body' : Term}
    (hps : Telescope.Like β ps ps') (hbody : body.Like β body') :
    Mirrors β (makeLam sort ps body) (makeLam sort ps' body') (Term.Like β) :=
  Mirrors.ite (by rw [forall₂_isEmpty hps]) (fun _ => .pure hbody) fun _ =>
    mirrors_build (.lam sort hps hbody)

theorem mirrors_makePi (sort : USort) {codomain codomain' : Term}
    (hps : Telescope.Like β ps ps') (hcodomain : codomain.Like β codomain') :
    Mirrors β (makePi sort ps codomain) (makePi sort ps' codomain') (Term.Like β) :=
  Mirrors.ite (by rw [forall₂_isEmpty hps]) (fun _ => .pure hcodomain) fun _ =>
    mirrors_build (.pi sort hps hcodomain)

end Recheck
