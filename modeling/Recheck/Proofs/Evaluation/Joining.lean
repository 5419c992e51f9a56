import Recheck.Proofs.Contraction

/-!
# Recheck — contractions of one term can be joined

Contraction is confluent (`Indexed.Contracts.join`): what a term contracts to in one way and
what it contracts to in another way contract to a common term. So it does not matter which of the
redexes in its way a computation contracts, and which ones it leaves.

`Indexed.Root` is the contraction of a node itself. `Indexed.Par` contracts the parts of a
node, all of them at once, and then the node itself if it is a redex by then. A redex
that comes about by contracting the parts counts too, so two such steps meet again
after one step each, by induction on the term alone.
-/

namespace Recheck

open List (Forall₂)

namespace Indexed

/-! ## The redex at the root -/

theorem map_abs_injective {bs cs : List Indexed} (h : bs.map abs = cs.map abs) : bs = cs :=
  List.map_injective_iff.mpr (fun _ _ h => Indexed.abs.inj h) h

/-- A redex contracts to one term only. -/
theorem Root.unique {n m k : Indexed} (h : Root n m) (h' : Root n k) : m = k := by
  cases h with
  | beta h =>
    cases h' with
    | beta h' =>
      obtain ⟨⟨rfl⟩, -⟩ := List.cons.inj (h.symm.trans h')
      rfl
  | betaRest h =>
    cases h' with
    | betaRest h' => rw [map_abs_injective (h.symm.trans h')]
  | component h =>
    cases h' with
    | component h' => exact Option.some.inj (h.symm.trans h')
  | impl h =>
    cases h' with
    | impl h' =>
      obtain ⟨rfl⟩ := Option.some.inj (h.symm.trans h')
      rfl

/-! ## Contraction at many places -/

/-- Contracts redexes at any number of places at once, from the inside to the outside. -/
inductive Par : Indexed → Indexed → Prop where
  | bound (i : Nat) : Par (.bound i) (.bound i)
  | free (x : Var) : Par (.free x) (.free x)
  | abs {n n' : Indexed} (h : Par n n') : Par (.abs n) (.abs n')
  | node {head : Head} {ns ns' : List Indexed} (hlength : ns.length = ns'.length)
      (h : ∀ n n', (n, n') ∈ ns.zip ns' → Par n n') : Par (.node head ns) (.node head ns')
  | root {head : Head} {ns ns' : List Indexed} {m : Indexed} (hlength : ns.length = ns'.length)
      (h : ∀ n n', (n, n') ∈ ns.zip ns' → Par n n') (hroot : Root (.node head ns') m) :
      Par (.node head ns) m

namespace Par

variable {n n' m : Indexed} {head : Head} {ns ns' : List Indexed}

theorem of_parts (h : Forall₂ Par ns ns') : Par (.node head ns) (.node head ns') :=
  .node h.length_eq fun _ _ hmem => (List.forall₂_iff_zip.mp h).2 hmem

theorem of_root (h : Forall₂ Par ns ns') (hroot : Root (.node head ns') m) :
    Par (.node head ns) m :=
  .root h.length_eq (fun _ _ hmem => (List.forall₂_iff_zip.mp h).2 hmem) hroot

/-- The parts of a node are contracted, and then perhaps the node itself. -/
theorem node_inv (h : Par (.node head ns) m) : ∃ ns', Forall₂ Par ns ns' ∧
    (m = .node head ns' ∨ Root (.node head ns') m) := by
  cases h with
  | node hlength h =>
    exact ⟨_, List.forall₂_iff_zip.mpr ⟨hlength, fun hmem => h _ _ hmem⟩, .inl rfl⟩
  | root hlength h hroot =>
    exact ⟨_, List.forall₂_iff_zip.mpr ⟨hlength, fun hmem => h _ _ hmem⟩, .inr hroot⟩

theorem abs_inv (h : Par (.abs n) m) : ∃ n', m = .abs n' ∧ Par n n' := by
  cases h with
  | abs h => exact ⟨_, rfl, h⟩

protected theorem refl (n : Indexed) : Par n n := by
  induction n using parts_induction with
  | bound i => exact .bound i
  | free x => exact .free x
  | abs n ih => exact .abs ih
  | node head ns ih => exact .of_parts (List.forall₂_same.mpr ih)

theorem contracts (h : Par n m) : Contracts n m := by
  induction h with
  | bound | free => exact .refl _
  | abs _ ih => exact .abs ih
  | node hlength _ ih =>
    exact .parts (List.forall₂_iff_zip.mpr ⟨hlength, fun hmem => ih _ _ hmem⟩)
  | root hlength _ hroot ih =>
    refine Contracts.trans (.parts ?_) (.root hroot)
    exact List.forall₂_iff_zip.mpr ⟨hlength, fun hmem => ih _ _ hmem⟩

theorem rename (h : Par n n') (ξ : Nat → Nat) : Par (n.rename ξ) (n'.rename ξ) := by
  induction h generalizing ξ with
  | bound i => exact .bound _
  | free x => exact .free x
  | abs _ ih => exact .abs (ih _)
  | node hlength _ ih =>
    rw [rename_node, rename_node]
    refine .of_parts ?_
    rw [List.forall₂_map_left_iff, List.forall₂_map_right_iff]
    exact List.forall₂_iff_zip.mpr ⟨hlength, fun hmem => ih _ _ hmem ξ⟩
  | root hlength _ hroot ih =>
    rw [rename_node]
    have hroot' := hroot.act acts_inst (Values.id.renamed ξ)
    rw [← rename_eq_inst, ← rename_eq_inst, rename_node] at hroot'
    refine .of_root ?_ hroot'
    rw [List.forall₂_map_left_iff, List.forall₂_map_right_iff]
    exact List.forall₂_iff_zip.mpr ⟨hlength, fun hmem => ih _ _ hmem ξ⟩

protected theorem inst (h : Par n n') {ρ ρ' : Values} (hbound : ∀ i, Par (ρ.bound i) (ρ'.bound i))
    (hfree : ∀ x, Par (ρ.free x) (ρ'.free x)) : Par (n.inst ρ) (n'.inst ρ') := by
  have hall : ∀ {ns ns' : List Indexed} {ρ ρ' : Values}, ns.length = ns'.length →
      (∀ n n', (n, n') ∈ ns.zip ns' → Par (n.inst ρ) (n'.inst ρ')) →
      Forall₂ Par (ns.map (Indexed.inst ρ)) (ns'.map (Indexed.inst ρ')) := by
    intro ns ns' ρ ρ' hlength h
    rw [List.forall₂_map_left_iff, List.forall₂_map_right_iff]
    exact List.forall₂_iff_zip.mpr ⟨hlength, fun hmem => h _ _ hmem⟩
  induction h generalizing ρ ρ' with
  | bound i => exact hbound i
  | free x => exact hfree x
  | abs _ ih =>
    refine .abs (ih (fun i => ?_) fun x => (hfree x).rename _)
    cases i with
    | zero => exact .bound 0
    | succ i => exact (hbound i).rename _
  | node hlength _ ih =>
    rw [inst_node, inst_node]
    exact .of_parts (hall hlength fun n n' hmem => ih n n' hmem hbound hfree)
  | root hlength _ hroot ih =>
    have hroot' := hroot.act acts_inst ρ'
    rw [inst_node] at hroot' ⊢
    exact .of_root (hall hlength fun n n' hmem => ih n n' hmem hbound hfree) hroot'

theorem single {b b' a a' : Indexed} (hb : Par b b') (ha : Par a a') :
    Par (b.inst (.single a)) (b'.inst (.single a')) := by
  refine hb.inst (fun i => ?_) fun x => .free x
  cases i with
  | zero => exact ha
  | succ i => exact .bound i

/-- Nothing but their parts can be contracted in nodes of these forms. -/
theorem node_inv_of_not_root (h : Par (.node head ns) m)
    (hhead : ∀ ns' m, ¬ Root (.node head ns') m) :
    ∃ ns', m = .node head ns' ∧ Forall₂ Par ns ns' := by
  obtain ⟨ns', hns', rfl | hroot⟩ := h.node_inv
  · exact ⟨ns', rfl, hns'⟩
  · exact absurd hroot (hhead ns' m)

theorem lookup_zip {K : Type} [BEq K] {k : K} {ks : List K} (h : Forall₂ Par ns ns')
    (hn : (ks.zip ns).lookup k = some n) : ∃ n', (ks.zip ns').lookup k = some n' ∧ Par n n' := by
  induction h generalizing ks with
  | nil => cases ks <;> cases hn
  | cons hm _ ih =>
    cases ks with
    | nil => cases hn
    | cons j ks =>
      rw [List.zip_cons_cons, List.lookup_cons] at hn ⊢
      cases hk : k == j with
      | true =>
        rw [hk] at hn
        obtain rfl := Option.some.inj hn
        exact ⟨_, rfl, hm⟩
      | false =>
        rw [hk] at hn
        exact ih hn

theorem component {t t' u : Indexed} {index : Int64} (h : Par t t')
    (hu : t.component? index = some u) : ∃ u', t'.component? index = some u' ∧ Par u u' := by
  unfold component? at hu
  split at hu
  next fields type parts =>
    obtain ⟨parts', rfl, hparts⟩ := h.node_inv_of_not_root fun _ _ hroot => by cases hroot
    split at hu
    next hlt =>
      obtain ⟨hlt', rfl⟩ := List.getElem?_eq_some_iff.mp hu
      have hlt'' : index.toNatClampNeg < parts'.length := hparts.length_eq ▸ hlt'
      refine ⟨parts'[index.toNatClampNeg], ?_, (List.forall₂_iff_get.mp hparts).2 _ hlt' hlt''⟩
      exact (if_pos hlt).trans (List.getElem?_eq_getElem hlt'')
    next => cases hu
  next => cases hu

theorem implementation {t t' b : Indexed} {f : FieldName} (h : Par t t')
    (hb : t.implementation? f = some (.abs b)) :
    ∃ b', t'.implementation? f = some (.abs b') ∧ Par b b' := by
  unfold implementation? at hb
  split at hb
  next renewed type parts =>
    obtain ⟨parts', rfl, hparts⟩ := h.node_inv_of_not_root fun _ _ hroot => by cases hroot
    obtain ⟨x, hx, hbx⟩ := lookup_zip hparts hb
    obtain ⟨b', rfl, hb'⟩ := hbx.abs_inv
    exact ⟨b', hx, hb'⟩
  next => cases hb

theorem map_abs {bs : List Indexed} (h : Forall₂ Par (bs.map .abs) ns) :
    ∃ bs', ns = bs'.map .abs ∧ Forall₂ Par bs bs' := by
  induction bs generalizing ns with
  | nil => exact ⟨[], List.forall₂_nil_left_iff.mp h, .nil⟩
  | cons b bs ih =>
    obtain ⟨n, ns, hn, hns, rfl⟩ := List.forall₂_cons_left_iff.mp h
    obtain ⟨b', rfl, hb'⟩ := hn.abs_inv
    obtain ⟨bs', rfl, hbs'⟩ := ih hns
    exact ⟨b' :: bs', rfl, .cons hb' hbs'⟩

/-- What is behind the type of the first parameter of a function. -/
theorem lam_parts {sort : USort} {ps : List (Param Unit)} {parts bs : List Indexed} {k : Nat}
    (h : Par (.node (.form (.lam sort ps ())) parts) m) (hbs : parts.drop k = bs.map .abs) :
    ∃ parts' bs', m = .node (.form (.lam sort ps ())) parts' ∧ parts'.drop k = bs'.map .abs ∧
      Forall₂ Par bs bs' := by
  obtain ⟨parts', rfl, hparts⟩ := h.node_inv_of_not_root fun _ _ hroot => by cases hroot
  have hdrop : Forall₂ Par (parts.drop k) (parts'.drop k) := List.forall₂_drop k hparts
  rw [hbs] at hdrop
  obtain ⟨bs', hbs', hall⟩ := map_abs hdrop
  exact ⟨parts', bs', rfl, hbs', hall⟩

/-- A redex stays one if its parts are contracted. -/
theorem of_redex (h : Forall₂ Par ns ns') (hroot : Root (.node head ns) m) :
    ∃ m', Root (.node head ns') m' ∧ Par m m' := by
  cases hroot with
  | @beta a b sort p parts hb =>
    obtain _ | ⟨hf, _ | ⟨ha, _ | _⟩⟩ := h
    have hbs : parts.drop p.type.toList.length = [b].map .abs := hb
    obtain ⟨parts', bs', rfl, hdrop, hall⟩ := hf.lam_parts hbs
    obtain _ | ⟨hb', _ | _⟩ := hall
    exact ⟨_, .beta hdrop, hb'.single ha⟩
  | @betaRest a sort p q ps parts bs hbs =>
    obtain _ | ⟨hf, _ | ⟨ha, _ | _⟩⟩ := h
    obtain ⟨parts', bs', rfl, hdrop, hall⟩ := hf.lam_parts hbs
    refine ⟨_, .betaRest hdrop, .of_parts ?_⟩
    rw [List.forall₂_map_left_iff, List.forall₂_map_right_iff]
    exact hall.imp fun _ _ hb => hb.single ha
  | component hu =>
    obtain _ | ⟨ht, _ | _⟩ := h
    obtain ⟨u', hu', hpar⟩ := ht.component hu
    exact ⟨u', .component hu', hpar⟩
  | impl hb =>
    obtain _ | ⟨ht, _ | _⟩ := h
    obtain ⟨b', hb', hpar⟩ := ht.implementation hb
    exact ⟨_, .impl hb', hpar.single ht⟩

theorem forall₂_join (ih : ∀ n ∈ ns, ∀ u v, Par n u → Par n v → ∃ w, Par u w ∧ Par v w)
    {us vs : List Indexed} (hu : Forall₂ Par ns us) (hv : Forall₂ Par ns vs) :
    ∃ ws, Forall₂ Par us ws ∧ Forall₂ Par vs ws := by
  induction hu generalizing vs with
  | nil =>
    cases hv
    exact ⟨[], .nil, .nil⟩
  | cons hn _ ih' =>
    obtain ⟨v, vs, hn', hvs, rfl⟩ := List.forall₂_cons_left_iff.mp hv
    rw [List.forall_mem_cons] at ih
    obtain ⟨w, huw, hvw⟩ := ih.1 _ _ hn hn'
    obtain ⟨ws, hus, hvs⟩ := ih' ih.2 hvs
    exact ⟨w :: ws, .cons huw hus, .cons hvw hvs⟩

/-- Two steps from one term can be joined by one step each. -/
theorem diamond (n : Indexed) : ∀ u v, Par n u → Par n v → ∃ w, Par u w ∧ Par v w := by
  induction n using parts_induction with
  | bound i | free x =>
    intro u v hu hv
    cases hu
    cases hv
    exact ⟨_, .refl _, .refl _⟩
  | abs n ih =>
    intro u v hu hv
    obtain ⟨u, rfl, hn⟩ := hu.abs_inv
    obtain ⟨v, rfl, hn'⟩ := hv.abs_inv
    obtain ⟨w, huw, hvw⟩ := ih u v hn hn'
    exact ⟨.abs w, .abs huw, .abs hvw⟩
  | node head ns ih =>
    intro u v hu hv
    obtain ⟨us, hus, hu⟩ := hu.node_inv
    obtain ⟨vs, hvs, hv⟩ := hv.node_inv
    obtain ⟨ws, huw, hvw⟩ := forall₂_join ih hus hvs
    rcases hu with rfl | hu
    · rcases hv with rfl | hv
      · exact ⟨_, .of_parts huw, .of_parts hvw⟩
      · obtain ⟨w, hw, hpar⟩ := of_redex hvw hv
        exact ⟨w, .of_root huw hw, hpar⟩
    · obtain ⟨w, hw, hpar⟩ := of_redex huw hu
      rcases hv with rfl | hv
      · exact ⟨w, hpar, .of_root hvw hw⟩
      · obtain ⟨w', hw', hpar'⟩ := of_redex hvw hv
        obtain rfl := hw.unique hw'
        exact ⟨w, hpar, hpar'⟩

end Par

/-! ## Confluence -/

namespace Contracts

variable {n m u v : Indexed} {head : Head} {ns : List Indexed}

theorem par_of_root (h : Root n m) : Par n m := by
  cases n with
  | node head ns => exact .of_root (List.forall₂_same.mpr fun n _ => .refl n) h
  | _ => cases h

/-- Contraction is contraction at many places, many times. -/
theorem steps (h : Contracts n m) : Relation.ReflTransGen Par n m := by
  induction h with
  | refl n => exact .refl
  | trans _ _ ih ih' => exact ih.trans ih'
  | abs _ ih => exact ih.lift Indexed.abs fun _ _ h => .abs h
  | @part head before after n n' _ ih =>
    have hrefl : ∀ ns : List Indexed, Forall₂ Par ns ns := fun ns =>
      List.forall₂_same.mpr fun n _ => .refl n
    exact ih.lift (fun n => Indexed.node head (before ++ n :: after)) fun n n' h =>
      .of_parts (List.rel_append (hrefl before) (.cons h (hrefl after)))
  | root h => exact .single (par_of_root h)

theorem of_steps (h : Relation.ReflTransGen Par n m) : Contracts n m := by
  induction h with
  | refl => exact .refl _
  | tail _ h ih => exact ih.trans h.contracts

/-- Contraction is confluent. -/
theorem join (hu : Contracts n u) (hv : Contracts n v) : ∃ w, Contracts u w ∧ Contracts v w := by
  obtain ⟨w, huw, hvw⟩ := Relation.church_rosser (fun l u v hu hv => by
    obtain ⟨w, huw, hvw⟩ := Par.diamond l u v hu hv
    exact ⟨w, .single huw, .single hvw⟩) hu.steps hv.steps
  exact ⟨w, of_steps huw, of_steps hvw⟩

end Contracts

/-- The terms contract to a common one. -/
def Joins (n m : Indexed) : Prop := ∃ k, Contracts n k ∧ Contracts m k

namespace Joins

variable {n m k : Indexed}

/-- Contractions of one term. -/
theorem of_common (hn : Contracts k n) (hm : Contracts k m) : Joins n m := hn.join hm

end Joins

end Indexed

end Recheck
