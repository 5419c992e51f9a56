import Recheck.Proofs.Deferral.Following

/-!
# Recheck — substitution into whole terms

What `Term.subst` and `Mapping.compose` come to on the meanings of whole terms: instances,
contracted further (`fades_subst`, `means_subst`, `means_compose`). Nothing is asked of the
terms but that they mean something on their own.
-/

namespace Recheck

open Indexed (Values Contracts)

/-- The term, on its own and under a level substitution, means the indexed term. -/
def Term.Means (R : Reader) (s : Store) (levels : LevelSubst) (t : Term) (n : Indexed) : Prop :=
  Recheck.Means R (s.vista [] s.next []) ⟨levels, false⟩ [] (.term t) [n]

/-- The mapping replaces variables, each of them once, by terms that mean the values. -/
structure Mapping.Means (R : Reader) (s : Store) (levels : LevelSubst) (m : Mapping Term)
    (values : Var → Indexed) : Prop where
  keys : ∀ e ∈ m.entries, ∃ x : Var, e.1 = .local x ∧ x.kind ≠ .unknown
  nodup : (m.entries.map Prod.fst).Nodup
  replaced : ∀ x u, m.get? (.local x) = some u → u.Means R s levels (values x)
  others : ∀ x, m.get? (.local x) = none → values x = .free x

/-- Values for the free variables. -/
def Indexed.Values.ofFree (values : Var → Indexed) : Values := ⟨.bound, values⟩

section Whole

variable {R R' : Reader} {s s' : Store} {k : Nat} {levels : LevelSubst} {m : Mapping Term}
variable {values : Var → Indexed} {t : Term} {n : Indexed}

theorem Term.Means.of_vista (h : Recheck.Means R (s.vista [] k []) .start [] (.term t) [n])
    (hk : k ≤ s.next) : t.Means R s .empty n :=
  h.mono ⟨fun _ _ hc => hc, rfl, hk, rfl⟩

theorem Term.Means.extend (h : t.Means R s levels n) (hs : Extends R' [] k [] s s') :
    t.Means R s' levels n :=
  (Recheck.Means.mono h (hs.vista_le (by simp) s.next [])).mono
    ⟨fun _ _ hc => hc, rfl, hs.next, rfl⟩

theorem Mapping.Means.extend (h : m.Means R s levels values) (hs : Extends R' [] k [] s s') :
    m.Means R s' levels values :=
  ⟨h.keys, h.nodup, fun x u hu => (h.replaced x u hu).extend hs, h.others⟩

/-- The phase in which the substitution into a whole term starts. -/
theorem Mapping.Means.phase (h : m.Means R s .empty values) (hs : s.Numbered)
    (hactive : (Substitution.of m levels).isIdentity = false) :
    Phase R s (.of m levels) (.ofFree values) (s.vista [] s.next []) ⟨levels, false⟩ [] [] s.next []
    where
  toScoping := .start hs
  ages := le_rfl
  defined x xs hx := by simp at hx
  shows _ _ hc := hc
  known := rfl
  shared := rfl
  active := hactive
  locals := ⟨h.keys, h.nodup⟩
  levels := rfl
  bound x i hi := by simp [Store.vista] at hi
  free x hx hkind hage stamp := by
    show Recheck.Means R _ _ _ (.term ((m.get? (.local x)).getD _)) [values x]
    cases hget : m.get? (.local x) with
    | some u => exact h.replaced x u hget
    | none =>
      rw [h.others x hget]
      exact .ref (.free hx hkind hage)
  mapped := by simp
  newer _ x hx := by simp [Store.vista] at hx

theorem Mapping.Means.eq_free (h : m.Means R s levels values) (hm : m.isEmpty) : values = .free :=
  funext fun x => h.others x (by simp [Mapping.get?, List.isEmpty_iff.mp hm])

/-- Substitution into a term acts on its meaning by an instance and contractions, but for what
is lost. -/
theorem fades_subst (fuel : Nat) (hs : s.Numbered) (hm : m.Means R s .empty values)
    (ht : t.Means R s levels n) : Yields (t.subst R.sig fuel (.of m levels)) s fun t' s' =>
      Extends R [] s.next [] s s' ∧ ∃ n', t'.Means R s' .empty n' ∧
        Fades R s' (n.inst (.ofFree values)) n' := by
  unfold Term.subst Traversal.applyFrom
  cases hactive : (Substitution.of m levels).isIdentity with
  | true =>
    rw [Substitution.isIdentity, Bool.and_eq_true] at hactive
    obtain rfl : levels = .empty := LevelSubst.eq_empty hactive.2
    refine .pure ⟨.refl, n, ht, ?_⟩
    rw [hm.eq_free hactive.1, Values.ofFree, ← Values.id, Indexed.inst_id]
    exact .refl n
  | false =>
    refine Yields.mono (.start (Traversal.follows_traverse R fuel (hm.phase hs hactive) ht)) ?_
    rintro t' s' ⟨hextends, n', hn', hcontracts⟩
    exact ⟨hextends, n', .of_vista hn' hextends.next, hcontracts⟩

/-- Substitution into a term acts on its meaning by an instance and contractions. -/
theorem means_subst [R.Plain] (fuel : Nat) (hs : s.Numbered) (hm : m.Means R s .empty values)
    (ht : t.Means R s levels n) : Yields (t.subst R.sig fuel (.of m levels)) s fun t' s' =>
      Extends R [] s.next [] s s' ∧ ∃ n', t'.Means R s' .empty n' ∧
        Contracts (n.inst (.ofFree values)) n' := by
  refine Yields.mono (fades_subst fuel hs hm ht) ?_
  rintro t' s' ⟨hextends, n', hn', hfades⟩
  exact ⟨hextends, n', hn', hfades.contracts⟩

/-- The values of a mapping for some variables, in front of those of another mapping. -/
def frontValues (xs : List Var) (ns : List Indexed) (values : Var → Indexed) (x : Var) : Indexed :=
  ((xs.idxOf? x).bind (ns[·]?)).getD (values x)

theorem Mapping.Means.after {m' : Mapping Term} {xs : List Var} {us : List Term}
    {ns : List Indexed} (h : m.Means R s .empty values)
    (hkeys : m'.entries.map Prod.fst = xs.map .local) (hnodup : xs.Nodup)
    (hkinds : ∀ x ∈ xs, x.kind ≠ .unknown) (hlength : us.length = xs.length)
    (hus : List.Forall₂ (fun u n => u.Means R s .empty n) us ns) :
    ((Substitution.of m levels).after m' xs us .empty).exprs.Means R s .empty
      (frontValues xs ns values) := by
  have hlocal : ((Substitution.of m levels).after m' xs us .empty).Local :=
    Substitution.Local.after ⟨h.keys, h.nodup⟩ hkeys hnodup hkinds hlength
  have hother : ∀ x, x ∉ xs → frontValues xs ns values x = values x := fun x hx => by
    rw [frontValues, List.idxOf?_eq_none_iff.mpr hx]
    rfl
  have hkeyed : ∀ x ∈ xs, ∃ u, ((Substitution.of m levels).after m' xs us .empty).exprs.get?
      (.local x) = some u ∧ u.Means R s .empty (frontValues xs ns values x) := by
    intro x hx
    obtain ⟨i, hi⟩ := Option.isSome_iff_exists.mp (List.isSome_idxOf?.mpr hx)
    obtain ⟨hlt, -⟩ := List.findIdx?_eq_some_iff_getElem.mp hi
    have hu : i < us.length := hlength ▸ hlt
    have hn : i < ns.length := hus.length_eq ▸ hu
    refine ⟨us[i], Substitution.get?_after _ _ _ hi (List.getElem?_eq_getElem hu), ?_⟩
    rw [frontValues, hi, Option.bind_some, List.getElem?_eq_getElem hn]
    exact (List.forall₂_iff_get.mp hus).2 i hu hn
  refine ⟨hlocal.keys, hlocal.nodup, fun x u hu => ?_, fun x hnone => ?_⟩
  · by_cases hx : x ∈ xs
    · obtain ⟨u', hget, hmeans⟩ := hkeyed x hx
      exact Option.some.inj (hget.symm.trans hu) ▸ hmeans
    · rw [Substitution.get?_after_of_not_mem _ _ _ hkeys hx] at hu
      rw [hother x hx]
      exact h.replaced x u hu
  · by_cases hx : x ∈ xs
    · obtain ⟨u', hget, -⟩ := hkeyed x hx
      rw [hget] at hnone
      cases hnone
    · rw [Substitution.get?_after_of_not_mem _ _ _ hkeys hx] at hnone
      rw [hother x hx]
      exact h.others x hnone

/-- The composition of a mapping with a substitution puts instances in, contracted further. -/
theorem means_compose [R.Plain] {m' : Mapping Term} {values' : Var → Indexed} (fuel : Nat) (hs : s.Numbered)
    (hm : m.Means R s levels values) (hm' : m'.Means R s .empty values') :
    Yields (m.compose R.sig fuel (.of m' levels)) s fun m'' s' => Extends R [] s.next [] s s' ∧
      ∃ values'', m''.Means R s' .empty values'' ∧
        ∀ x, Contracts ((values x).inst (.ofFree values')) (values'' x) := by
  unfold Mapping.compose
  by_cases hempty : m.isEmpty
  · unfold Traversal.composeFrom
    rw [if_pos hempty]
    refine .pure ⟨.refl, values', hm', fun x => ?_⟩
    rw [hm.eq_free hempty]
    exact .refl _
  cases hactive : (Substitution.of m' levels).isIdentity with
  | true =>
    unfold Traversal.composeFrom
    rw [if_neg hempty, if_pos hactive]
    rw [Substitution.isIdentity, Bool.and_eq_true] at hactive
    obtain rfl : levels = .empty := LevelSubst.eq_empty hactive.2
    refine .pure ⟨.refl, values, hm, fun x => ?_⟩
    rw [hm'.eq_free hactive.1, Values.ofFree, ← Values.id, Indexed.inst_id]
    exact .refl _
  | false =>
    obtain ⟨xs, hkeys, hkinds⟩ := exists_vars hm.keys
    have hnodup : xs.Nodup := nodup_locals.mp (hkeys ▸ hm.nodup)
    have hvalues : List.Forall₂ (fun t n => t.Means R s levels n) (m.entries.map Prod.snd)
        (xs.map values) :=
      forall₂_values hkeys fun x u hu => hm.replaced x u (lookup_of_nodup hm.nodup hu)
    refine Yields.mono (Traversal.follows_compose (Traversal.follows_traverse R fuel) hkeys hvalues
      (hm'.phase hs hactive)) ?_
    rintro m'' s' ⟨hextends, us, ns, hafter, hlength, hus, hall⟩
    obtain rfl : m'' = ((Substitution.of m' levels).after m xs us .empty).exprs :=
      congrArg Substitution.exprs (hafter .empty)
    have hus' : List.Forall₂ (fun u n => u.Means R s' .empty n) us ns :=
      hus.imp fun _ _ h => .of_vista h hextends.next
    refine ⟨hextends, _, (hm'.extend hextends).after hkeys hnodup hkinds hlength hus', fun x => ?_⟩
    unfold frontValues
    cases hi : xs.idxOf? x with
    | none =>
      rw [hm.others x (Mapping.get?_of_keys hkeys (List.idxOf?_eq_none_iff.mp hi))]
      exact .refl _
    | some i =>
      obtain ⟨hlt, heq, -⟩ := List.findIdx?_eq_some_iff_getElem.mp hi
      obtain rfl : xs[i] = x := beq_iff_eq.mp heq
      have hlt' : i < ((xs.map values).map (Indexed.inst (.ofFree values'))).length := by simpa using hlt
      have hn : i < ns.length := hall.length_eq ▸ hlt'
      have hi := ((List.forall₂_iff_get.mp hall).2 i hlt' hn).contracts
      rw [Option.bind_some, List.getElem?_eq_getElem hn]
      simpa using hi

end Whole

end Recheck
