import Recheck.Proofs.Deferral.Clauses

/-!
# Recheck — substitution acts on meanings

The steps of a traversal that are not about copying alone: contractions, which start further
substitutions, and what waits. A solved unknown is replaced by a copy of its solution. A
delayed substitution is composed with the one that comes across it, and carried out. At an
unsolved unknown, the part of the substitution that concerns its bounds is delayed.

In each case the outcome means an instance of what was meant before, contracted further
(`Traversal.follows_step`), and by induction on the depth so does the outcome of a whole
traversal (`Traversal.follows_traverse`).
-/

namespace Recheck

open Indexed (Values Contracts)

namespace Traversal

/-- What a traversal makes of a term in the scope `ys`, starting in the store `s`. -/
def Results (R : Reader) (hidden : List Var) (k : Nat) (ys : List Var) (s : Store) (n : Indexed)
    (t : Term) (s' : Store) : Prop :=
  Extends R hidden k ys s s' ∧ ∃ n',
    Means R (s'.vista hidden k ys) .start [] (.term t) [n'] ∧ Fades R s' n n'

section Step

variable {R : Reader} {self} (hself : Follows R self)
variable {s : Store} {σ : Substitution} {ρ : Values} {V : Vista} {M : Mode}
variable {inner hidden ys : List Var} {k : Nat}
variable {node : Node Term} {parts values : List Indexed} {n : Indexed} {arg u t : Term}
  {stamp : Nat} {x v : Var} {r : MappingRef Term} {m : Mapping Term} {xs bounds : List Var}

/-! ## Contraction -/

/-- A new node of terms that mean something. -/
theorem results_build {shape : Shape} (hparts : node.hasParts) (hnode : node.Readable R.sig)
    (hfits : ∀ s ∈ (node.sorted R.sig).erase.sorts, R.fits .empty s)
    (h : Means R (s.vista hidden k ys) .start [] (.plan (node.sorted R.sig).plan) parts)
    (hshape : R.shape .empty (node.sorted R.sig).erase = shape)
    (hn : Fades R s n (.node (.form shape) parts)) :
    Yields (Core.build node) s (Results R hidden k ys s n) := by
  refine Yields.build ⟨.tick 1, _, .node hparts hnode hfits (h.mono ?_), ?_⟩
  · exact ⟨fun _ _ hc => hc, rfl, le_rfl, rfl⟩
  · rw [← hshape] at hn
    exact hn.mono fun _ hv => hv

/-- What a function of some parameters means. -/
theorem means_lam {scope : List Var} {sort : USort} {p : Param Term} {ps : Telescope Term}
    {body : Term} (h : Means R V M scope (.term (.mk stamp (.lam sort (p :: ps) body))) [n]) :
    p.var.kind ≠ .unknown ∧ (∀ s ∈ [sort], R.fits M.levels s) ∧ ∃ types ms,
      n = .node (.form (R.shape M.levels (.lam sort (p.erase :: ps.map Param.erase) ())))
        (types ++ ms.map .abs) ∧
      (types ++ ms.map Indexed.abs).drop p.erase.type.toList.length = ms.map .abs ∧
      Means R V M (p.var :: scope) (.plan (ps.plan (.terms [body]))) ms := by
  obtain ⟨-, hfits, parts, rfl, hparts⟩ := (means_node_iff rfl).mp h
  obtain ⟨types, _, rfl, htypes, hunder⟩ := means_append_iff.mp hparts
  obtain ⟨hkind, ms, rfl, hms⟩ := means_under_iff.mp hunder
  exact ⟨hkind, hfits, types, ms, rfl, p.drop_types (means_terms_iff.mp htypes).length_eq, hms⟩

include hself

/-- Applies a function that has been copied. -/
theorem results_makeApp {fn : Term} {f a : Indexed} (hphase : Phase R s σ ρ V M inner hidden k ys)
    (hfn : Means R (s.vista hidden k ys) .start [] (.term fn) [f])
    (harg : Means R (s.vista hidden k ys) .start [] (.term arg) [a]) :
    Yields (makeAppFrom self fn [arg]) s
      (Results R hidden k ys s (.node (.form (.app () ())) [f, a])) := by
  obtain ⟨stamp, node⟩ := fn
  refine yields_app (fun _ => ?_) (fun sort p body hnode => ?_) ?_
  · exact results_build rfl trivial (by simp [Node.sorted, Node.erase, Node.sorts])
      (.term hfn (.term harg .done)) rfl (.refl _)
  · obtain rfl : node = .lam sort [p] body := hnode
    obtain ⟨hkind, hfits, types, ms, rfl, hdrop, hms⟩ := means_lam hfn
    obtain _ | ⟨hb, _ | _⟩ := (means_terms_iff.mp hms)
    refine Yields.mono (hself (hphase.contract hkind harg) hb) ?_
    rintro t s' ⟨hextends, r, hr, hcontracts⟩
    exact ⟨hextends, r, hr, (Fades.of_contracts (.root (.beta hdrop))).trans hcontracts⟩
  · intro sort p q ps body ps' body' s₂ hnode herase hruns
    obtain rfl : node = .lam sort (p :: q :: ps) body := hnode
    obtain ⟨hkind, hfits, types, ms, rfl, hdrop, hms⟩ := means_lam hfn
    obtain ⟨hextends, rs, hrs, hall⟩ := hruns.runs.copied hself (hphase.contract hkind harg) hms
    have hrest : Fades R s₂ (.node (.form (.app () ())) [.node (.form (R.shape .empty
        (.lam sort (p.erase :: q.erase :: ps.map Param.erase) ())))
          (types ++ ms.map Indexed.abs), a])
        (.node (.form (R.shape .empty (.lam sort (ps'.map Param.erase) ()))) rs) := by
      rw [herase]
      exact (Fades.of_contracts (.root (.betaRest hdrop))).trans (.parts hall)
    have hbuild : Yields (Core.build (.lam sort ps' body')) s₂ (Results R hidden k ys s₂ _) :=
      results_build rfl trivial hfits hrs rfl hrest
    exact hbuild.mono fun t s' h => ⟨hextends.trans h.1, h.2⟩

omit hself in
/-- Projects a tuple component that has been copied. -/
theorem results_makeProj (index : Int64)
    (hu : Means R (s.vista hidden k ys) .start [] (.term u) [n]) :
    Yields (makeProj u index) s
      (Results R hidden k ys s (.node (.form (.proj () index)) [n])) := by
  obtain ⟨stamp, node⟩ := u
  refine yields_proj (fun _ => ?_) fun fields type v hnode hget => ?_
  · exact results_build rfl trivial (by simp [Node.sorted, Node.erase, Node.sorts])
      (.term hu .done) rfl (.refl _)
  · obtain rfl : node = .tuple fields type := hnode
    obtain ⟨-, -, parts, rfl, hparts⟩ := (means_node_iff rfl).mp hu
    obtain ⟨ms, ms', rfl, hms, -⟩ := means_append_iff.mp hparts
    obtain ⟨m, hm, hsome⟩ := component?_tuple ms' (means_terms_iff.mp hms) hget
    exact ⟨.refl, m, hm, .of_contracts (.root (.component hsome))⟩

/-- Projects a field of a record value that has been copied. -/
theorem results_makeField (f : FieldName) (sort : USort)
    (hphase : Phase R s σ ρ V M inner hidden k ys) (hfits : R.fits .empty sort)
    (harg : Means R (s.vista hidden k ys) .start [] (.term arg) [n]) :
    Yields (makeFieldFrom self f sort arg) s
      (Results R hidden k ys s (.node (.form (R.shape .empty (.field f sort ()))) [n])) := by
  obtain ⟨stamp, node⟩ := arg
  refine yields_field (fun _ => ?_) fun renewed type impl hnode himpl => ?_
  · exact results_build rfl trivial (by simpa [Node.sorted, Node.erase, Node.sorts] using hfits)
      (.term harg .done) rfl (.refl _)
  · obtain rfl : node = .new renewed type := hnode
    obtain ⟨hproper, -, parts, hn, hparts⟩ := (means_node_iff rfl).mp harg
    obtain ⟨_, ms, rfl, himpls, -⟩ := means_append_iff.mp hparts
    obtain ⟨hkind, bs, rfl, hbs⟩ := means_under_iff.mp himpls
    rw [← RecordType.Proper.impl?_sorted hproper] at himpl
    obtain ⟨b, hread, hb⟩ := (lookup_parts ms (means_terms_iff.mp hbs) f).2 impl himpl
    have himplementation : n.implementation? f = some (.abs b) := by
      have hnames : ((type.val.sorted R.sig).erase.mapSorts
          fun s => R.shows (s.subst .empty)).impls.map Prod.fst =
            (type.val.sorted R.sig).impls.map Prod.fst := by
        simp [RecordType.erase, RecordType.mapSorts, Function.comp_def]
      rw [hn, ← hb, ← hnames]
      rfl
    refine Yields.mono (hself (hphase.contract hkind harg) hread) ?_
    rintro t s' ⟨hextends, m, hm, hcontracts⟩
    exact ⟨hextends, m, hm, (Fades.of_contracts (.root (.impl himplementation))).trans hcontracts⟩

/-! ## References -/

theorem results_ref (hphase : Phase R s σ ρ V M inner hidden k ys)
    (hn : V.Locates M.closed inner x n) :
    Yields (step R.sig self σ (.mk stamp (.ref x))) s (Results R hidden k ys s (n.inst ρ)) := by
  have himage := hphase.locates hn stamp
  unfold step
  dsimp only [Term.node]
  cases hget : σ.exprs.get? (.local x) with
  | some u =>
    rw [hget] at himage
    exact .pure ⟨.refl, _, himage, .refl _⟩
  | none =>
    rw [hget] at himage
    dsimp only
    split
    next hkind =>
      -- only a clause around the redex that is being contracted is not replaced
      have hnot : x ∉ inner := by
        intro hmem
        have := hphase.mapped x hmem hkind
        rw [hget] at this
        cases this
      have hx : x ∈ V.outer := (List.mem_append.mp (hn.mem_of_clause hkind)).resolve_left hnot
      obtain ⟨hopen, hnewer⟩ := hn.of_clause hkind hnot
      obtain ⟨hlevels, hkeys⟩ := hphase.newer hopen x hx hkind hnot hnewer
      have hmem : x ∈ ys := (means_ref_iff.mp himage).mem_of_clause hkind
      refine Yields.bind (follows_updateClause hself hphase hmem hkind hlevels hkeys) ?_
      intro _ s' hextends
      exact .pure ⟨hextends, _, himage.mono (hextends.vista_le hphase.hides k ys), .refl _⟩
    next => exact .pure ⟨.refl, _, himage, .refl _⟩

/-! ## What waits -/

omit hself in
theorem yields_mapping {Q : Mapping Term → Store → Prop} (hm : s.known.mapping? r = some m)
    (h : Q m s) : Yields (Core.mapping r) s Q := by
  have hmapping : s.mapping? r = s.known.mapping? r := by cases r <;> rfl
  exact Yields.mapping fun m' hm' => Option.some.inj (hm.symm.trans (hmapping ▸ hm')) ▸ h

section

variable (hkeys : m.entries.map Prod.fst = xs.map .local)
  (hvalues : List.Forall₂ (fun t n => Means R V M inner (.term t) [n]) (m.entries.map Prod.snd)
    values) (hphase : Phase R s σ ρ V M inner hidden k ys)

include hkeys hvalues hphase

/-- The values of a mapping, substituted into. -/
theorem follows_values :
    Yields (m.entries.mapM fun e => return (e.1, ← applyFrom self σ e.2)) s fun es s' =>
      Extends R hidden k ys s s' ∧ ∃ us values', es = localEntries xs us ∧
        us.length = xs.length ∧
        List.Forall₂ (fun u n => Means R (s'.vista hidden k ys) .start [] (.term u) [n]) us values' ∧
        List.Forall₂ (Fades R s') (values.map (Indexed.inst ρ)) values' := by
  obtain ⟨entries⟩ := m
  dsimp only at hkeys hvalues ⊢
  induction entries generalizing s xs values with
  | nil =>
    obtain rfl : xs = [] := List.map_eq_nil_iff.mp hkeys.symm
    cases hvalues
    exact .pure ⟨.refl, [], [], rfl, rfl, .nil, .nil⟩
  | cons e entries ih =>
    cases xs with
    | nil => cases hkeys
    | cons x xs =>
      obtain ⟨hkey, hkeys⟩ := List.cons.inj hkeys
      obtain ⟨n, ns, hn, hns, rfl⟩ := List.forall₂_cons_left_iff.mp hvalues
      rw [List.mapM_cons]
      have happly : Yields (applyFrom self σ e.2) s (Results R hidden k ys s (n.inst ρ)) := by
        unfold applyFrom
        rw [hphase.active]
        exact .start (hself hphase hn)
      refine .seq (Yields.bind happly ?_)
      rintro u s₁ ⟨hextends, n', hu, hcontracts⟩
      refine .pure (Yields.bind (ih (hphase.grow hextends) hkeys hns) ?_)
      rintro es s₂ ⟨hextends', us, values', rfl, hlength, hus, hall⟩
      refine .pure ⟨hextends.trans hextends', u :: us, n' :: values', by rw [hkey]; rfl,
        by simp [hlength], ?_, .cons (hcontracts.mono hextends'.lost) hall⟩
      exact .cons (hu.mono (hextends'.vista_le hphase.hides k ys)) hus

/-- A mapping composed with the substitution. -/
theorem follows_compose :
    Yields (composeFrom self m σ) s fun m' s' => Extends R hidden k ys s s' ∧ ∃ us values',
      (∀ levels, Substitution.of m' (levels.compose σ.levels) = σ.after m xs us levels) ∧
      us.length = xs.length ∧
      List.Forall₂ (fun u n => Means R (s'.vista hidden k ys) .start [] (.term u) [n]) us values' ∧
      List.Forall₂ (Fades R s') (values.map (Indexed.inst ρ)) values' := by
  unfold composeFrom
  split
  next hempty =>
    obtain ⟨entries⟩ := m
    obtain rfl : entries = [] := List.isEmpty_iff.mp hempty
    obtain rfl : xs = [] := List.map_eq_nil_iff.mp hkeys.symm
    cases hvalues
    refine .pure ⟨.refl, [], [], fun levels => ?_, rfl, .nil, .nil⟩
    have hall : σ.exprs.entries.filter (fun e => !(Mapping.mk (T := Term) []).contains e.1) =
        σ.exprs.entries := List.filter_eq_self.mpr fun _ _ => rfl
    rw [Substitution.after, hall]
    rfl
  next =>
    rw [hphase.active]
    refine Yields.bind (follows_values hself hkeys hvalues hphase) ?_
    rintro _ s' ⟨hextends, us, values', rfl, hlength, hus, hall⟩
    exact .pure ⟨hextends, us, values', fun levels => rfl, hlength, hus, hall⟩

end

/-- A delayed substitution is carried out together with the one that comes across it. -/
theorem results_delayed {levels : LevelSubst} (hphase : Phase R s σ ρ V M inner hidden k ys)
    (hmapping : V.known.mapping? r = some m) (hkeys : m.entries.map Prod.fst = xs.map .local)
    (hnodup : xs.Nodup) (hkinds : ∀ x ∈ xs, x.kind ≠ .unknown)
    (hvalues : Means R V M inner (.plan (.terms (m.entries.map Prod.snd))) values)
    (hu : Means R V (M.beneath levels) (xs ++ inner) (.term u) [n]) :
    Yields (step R.sig self σ (.mk stamp (.delayed u r levels))) s
      (Results R hidden k ys s ((n.inst (.front values)).inst ρ)) := by
  unfold step
  dsimp only [Term.node]
  rw [hphase.known] at hmapping
  refine .seq (yields_mapping hmapping ?_).lift
  refine Yields.bind (follows_compose hself hkeys (means_terms_iff.mp hvalues) hphase).lift ?_
  rintro m' s₁ ⟨hextends, us, values', hafter, hlength, hus, hall⟩
  have hphase₁ := (hphase.grow hextends).beneath levels hkeys hnodup hkinds hlength hus
  refine Yields.lift ?_
  unfold applyFrom
  rw [hafter, hphase₁.active]
  refine Yields.mono (Yields.start (hself hphase₁ hu)) ?_
  rintro t s₂ ⟨hextends', n', ht, hcontracts⟩
  refine ⟨hextends.trans hextends', n', ht, Fades.trans ?_ hcontracts⟩
  rw [Indexed.inst_inst, Values.front, Values.push_andThen]
  exact Fades.push (hall.imp fun _ _ h => h.mono hextends'.lost) ρ n

omit hself in
/-- What stands for a bound of an unknown. -/
theorem bound_replaced (hphase : Phase R s σ ρ V M inner hidden k ys)
    (hx : V.Locates true inner x n) : R.reading.Replaces s hidden k ys σ x (n.inst ρ) ∧
      (σ.exprs.get? (.local x) = none →
        x.kind ≠ .clause ∧ (s.vista hidden k ys).Locates false [] x (n.inst ρ)) := by
  have hreplaces := hphase.locates hx
  refine ⟨hreplaces, fun hnone => ⟨fun hkind => ?_, ?_⟩⟩
  · by_cases hmem : x ∈ inner
    · have := hphase.mapped x hmem hkind
      rw [hnone] at this
      cases this
    · cases (hx.of_clause hkind hmem).1
  · have himage := hreplaces 0
    rw [hnone] at himage
    exact means_ref_iff.mp himage

omit hself in
/-- The part of the substitution that concerns the bounds of an unknown replaces some
variables, and all the bounds that it replaces. -/
theorem relevant_keys (hσ : σ.Local) (bounds : List Var) : ∃ xs : List Var,
    (σ.exprs.restrict fun v => v.var?.any (· ∈ bounds)).entries.map Prod.fst =
        xs.map .local ∧ xs.Nodup ∧ (∀ x ∈ xs, x.kind ≠ .unknown) ∧
      ∀ x ∈ bounds, x ∉ xs → σ.exprs.get? (.local x) = none := by
  let es := (σ.exprs.restrict fun v => v.var?.any (· ∈ bounds)).entries
  obtain ⟨xs, hkeys, hkinds⟩ := exists_vars fun e (he : e ∈ es) =>
    hσ.keys e (List.mem_of_mem_filter he)
  refine ⟨xs, hkeys, ?_, hkinds, fun x hx hnot => ?_⟩
  · have hnodup : (es.map Prod.fst).Nodup := hσ.nodup.sublist (List.filter_sublist.map _)
    exact nodup_locals.mp (hkeys ▸ hnodup)
  · have hnone := Mapping.get?_of_keys hkeys hnot
    rwa [Mapping.get?_restrict _ (by simpa [Variable.var?] using hx)] at hnone

omit hself in
/-- The values of the part of the substitution that concerns the bounds of an unknown. -/
theorem relevant_values (hphase : Phase R s σ ρ V M inner hidden k ys)
    (hbounds : ∀ x ∈ bounds, V.Locates true inner x (V.place inner x))
    (hkeys : (σ.exprs.restrict fun v => v.var?.any (· ∈ bounds)).entries.map Prod.fst =
      xs.map .local) :
    List.Forall₂ (fun u n => Means R (s.vista hidden k ys) .start [] (.term u) [n])
      ((σ.exprs.restrict fun v => v.var?.any (· ∈ bounds)).entries.map Prod.snd)
      (xs.map fun x => (V.place inner x).inst ρ) := by
  refine forall₂_values hkeys fun x u hu => ?_
  obtain ⟨hmem, hkeep⟩ := List.mem_filter.mp hu
  have hbound : x ∈ bounds := by simpa [Variable.var?] using hkeep
  have hget : σ.exprs.get? (.local x) = some u := lookup_of_nodup hphase.locals.nodup hmem
  have himage := hphase.locates (hbounds x hbound) 0
  rwa [hget] at himage

omit hself in
/-- Beneath the mapping that is delayed, a bound shows as its key or where the copy has it, and
with the values put in it is what stood for it before. -/
theorem bound_beneath {W : Vista} (value : Var → Indexed)
    (hkept : x ∉ xs → x.kind ≠ .clause ∧ W.Locates false [] x (value x)) :
    ∃ n, W.Locates true (xs ++ []) x n ∧ n.inst (.front (xs.map value)) = value x := by
  by_cases hkey : x ∈ xs
  · obtain ⟨i, hi⟩ := Option.isSome_iff_exists.mp (List.isSome_idxOf?.mpr hkey)
    obtain ⟨hlt, heq, -⟩ := List.findIdx?_eq_some_iff_getElem.mp hi
    obtain rfl : xs[i] = x := beq_iff_eq.mp heq
    refine ⟨.bound i, .bound ?_ fun _ hnot => absurd (by simp) hnot, ?_⟩
    · rw [List.append_nil, idxOf?_append_of_mem hi]
    · have hget : (xs.map value)[i]? = some (value xs[i]) := by simp [hlt]
      exact Values.push_bound_of_getElem? hget .id
  · obtain ⟨hclause, hlocates⟩ := hkept hkey
    refine ⟨_, (hlocates.of_not_clause hclause).behind hkey, ?_⟩
    have hinst := Indexed.inst_front_rename (xs.map value) (value x)
    rwa [List.length_map] at hinst

omit hself in
/-- At an unsolved unknown, its entry in the store decides. -/
theorem yields_unsolved {Q : Term → Store → Prop} (hphase : Phase R s σ ρ V M inner hidden k ys)
    (hkind : v.kind = .unknown) (hsolution : s.known.solutions.get? stamp = none)
    (h : ∀ u, s.unknowns.get? v.serial = some u → Yields (if u.delaying then do
        let relevant := σ.exprs.restrict fun k => k.var?.any (· ∈ u.bounds)
        if relevant.isEmpty && σ.levels.isEmpty then return .mk stamp (.unknown v)
        Core.build (.delayed (.mk stamp (.unknown v)) (.own relevant) σ.levels)
      else do
        Core.removeBounds v (σ.exprs.entries.filterMap fun e => e.1.var?)
        return .mk stamp (.unknown v) : Traversal Term) s Q) :
    Yields (unknown self σ (.mk stamp (.unknown v)) v) s Q := by
  have hunknown : σ.exprs.get? (.local v) = none :=
    hphase.locals.get?_eq_none fun x hx => Variable.local.inj hx ▸ hkind
  unfold unknown
  refine .seq (Yields.solution? ?_).lift
  rw [show s.solutions.get? (Term.mk stamp (.unknown v)).stamp = none from hsolution]
  dsimp only
  rw [hunknown]
  exact .seq (Yields.unknown h).lift

omit hself in
theorem known_unknown {i : Nat} {u : Unknown} {delays : Option (List Var)}
    (hu : s.known.unknowns i = some delays) (hget : s.unknowns.get? i = some u) :
    u.delays = delays := by
  have hview : (s.unknowns.get? i).map Unknown.delays = some delays := hu
  rw [hget] at hview
  exact Option.some.inj hview

omit hself in
/-- At an unknown where nothing is delayed, the bounds are narrowed, and it stays. -/
theorem results_held (hphase : Phase R s σ ρ V M inner hidden k ys) (hkind : v.kind = .unknown)
    (hsolution : V.known.solutions.get? stamp = none) (hu : V.known.unknowns v.serial = some none)
    (hwaits : R.waits M.levels stamp v)
    (hreserves : ∀ x ∈ R.reserves stamp, x.kind ≠ .clause ∧ x.serial < V.age) :
    Yields (unknown self σ (.mk stamp (.unknown v)) v) s
      (Results R hidden k ys s ((Indexed.node (.form (.unknown (R.marks stamp v)))
        ((R.reserves stamp).map (V.place inner))).inst ρ)) := by
  rw [hphase.known] at hsolution hu
  refine yields_unsolved hphase hkind hsolution fun u hget => ?_
  have hdelaying : u.delaying = false := Unknown.delays_eq_none.mp (known_unknown hu hget)
  rw [hdelaying, if_neg Bool.false_ne_true]
  let keys : List Var := σ.exprs.entries.filterMap fun e => e.1.var?
  let narrowed : Unknown := { u with bounds := u.bounds.filter fun x => x ∉ keys }
  let s' : Store := { s with unknowns := s.unknowns.insert v.serial narrowed }
  have hknown : s'.known = s.known := Store.known_narrow hget hdelaying _
  have hvista : ∀ scope, s'.vista hidden k scope = s.vista hidden k scope := fun scope => by
    rw [Store.vista, hknown]
    rfl
  refine Yields.bind (P := fun _ s₁ => s₁ = s') ?_ ?_
  · refine Yields.lift (Yields.bind (Yields.unknown (Q := fun u' s₁ => u = u' ∧ s = s₁)
      fun u' hu' => ⟨Option.some.inj (hget.symm.trans hu'), rfl⟩) ?_)
    rintro _ _ ⟨rfl, rfl⟩
    exact Yields.modify rfl
  rintro _ _ rfl
  have hnarrowed : s'.unknowns.get? v.serial = some narrowed := Table.get?_insert_self _ _ _
  refine .pure ⟨⟨le_rfl, id, ⟨hknown, ?_⟩, fun _ _ _ h => h, fun _ _ _ _ c m hc hm => ?_⟩,
    .node (.form (.unknown (R.marks stamp v)))
      ((R.reserves stamp).map ((s'.vista hidden k ys).place [])), ?_, ?_⟩
  · rintro mark ⟨stamp', v', x, u', rfl, hx, hu', hnot⟩
    by_cases hv : v'.serial = v.serial
    · rw [hv] at hu'
      obtain rfl := Option.some.inj (hget.symm.trans hu')
      exact ⟨stamp', v', x, narrowed, rfl, hx, hv ▸ hnarrowed,
        fun hmem => hnot (List.mem_of_mem_filter hmem)⟩
    · exact ⟨stamp', v', x, u', rfl, hx, (Table.get?_insert_of_ne _ _ hv).trans hu', hnot⟩
  · exact ⟨c.expr, m, hc, (congrArg (Means R · .start [] _ _) (hvista _)).mpr hm, .refl m⟩
  · refine .held hkind (hvista ys ▸ hsolution) (hvista ys ▸ hu) (R.settles _ _ _ hwaits) fun x hx => ?_
    exact ⟨(hreserves x hx).1, (hreserves x hx).2.trans_le hphase.ages⟩
  · intro lost hlost
    rw [Indexed.inst_node, Indexed.without_node, Indexed.without_node, Indexed.keeping,
      Indexed.keeping]
    split
    · exact .refl _
    next hkept =>
      -- what is kept is not replaced, as it would be lost then
      have hplace : ∀ x ∈ R.reserves stamp,
          (V.place inner x).inst ρ = (s'.vista hidden k ys).place [] x := by
        intro x hx
        have himage := hphase.locates (Vista.locates_place false (hreserves x hx).1 (hreserves x hx).2) 0
        have hnone : σ.exprs.get? (.local x) = none := by
          refine List.lookup_eq_none_iff.mpr fun e he => ?_
          rw [bne_iff_ne]
          intro hkey
          refine hkept (hlost _ ⟨stamp, v, x, narrowed, rfl, hx, hnarrowed, fun hmem => ?_⟩)
          have hfree : x ∉ keys := by simpa using (List.mem_filter.mp hmem).2
          exact hfree (List.mem_filterMap.mpr ⟨e, he, hkey ▸ rfl⟩)
        rw [hnone] at himage
        exact (means_ref_iff.mp himage).eq_place
      have hplaces : ((R.reserves stamp).map (V.place inner)).map (Indexed.inst ρ) =
          (R.reserves stamp).map ((s'.vista hidden k ys).place []) := by
        rw [List.map_map]
        exact List.map_congr_left hplace
      rw [hplaces]
      exact .refl _

omit hself in
/-- At an unsolved unknown, what concerns its bounds is delayed. -/
theorem results_unsolved {args : List Indexed} (hphase : Phase R s σ ρ V M inner hidden k ys)
    (hkind : v.kind = .unknown) (hsolution : V.known.solutions.get? stamp = none)
    (hu : V.known.unknowns v.serial = some (some bounds)) (hwaits : R.waits M.levels stamp v)
    (hdefers : R.defers .empty M.levels) (hargs : List.Forall₂ (V.Locates true inner) bounds args) :
    Yields (unknown self σ (.mk stamp (.unknown v)) v) s
      (Results R hidden k ys s
        ((Indexed.node (.deferred (R.marks stamp v) (R.tells M.levels)) args).inst ρ)) := by
  obtain ⟨rfl, hbounds⟩ := Vista.Locates.places hargs
  rw [Indexed.inst_node, List.map_map]
  rw [hphase.known] at hsolution hu
  refine yields_unsolved hphase hkind hsolution fun u hget => ?_
  obtain ⟨hdelaying, rfl⟩ := Unknown.delays_eq_some.mp (known_unknown hu hget)
  rw [hdelaying, if_pos rfl]
  dsimp only
  obtain ⟨xs, hkeys, hnodup, hkinds, hnone⟩ := relevant_keys hphase.locals u.bounds
  have hvalues := relevant_values hphase hbounds hkeys
  have hkept : ∀ x ∈ u.bounds, x ∉ xs → x.kind ≠ .clause ∧
      (s.vista hidden k ys).Locates false [] x ((V.place inner x).inst ρ) :=
    fun x hx hnot => (bound_replaced hphase (hbounds x hx)).2 (hnone x hx hnot)
  split
  next hidentity =>
    rw [Bool.and_eq_true, Mapping.isEmpty, List.isEmpty_iff] at hidentity
    obtain ⟨hempty, hlevels⟩ := hidentity
    rw [hempty] at hkeys
    obtain rfl : xs = [] := List.map_eq_nil_iff.mp hkeys.symm
    have hstart : M.levels = .empty := by
      rw [hphase.levels, LevelSubst.eq_empty hlevels]
    rw [hstart] at hdefers hwaits ⊢
    refine .pure ⟨.refl, _, .unsolved hkind hsolution hu hwaits hdefers ?_, .refl _⟩
    rw [List.forall₂_map_right_iff]
    refine List.forall₂_same.mpr fun x hx => ?_
    obtain ⟨hclause, hlocates⟩ := hkept x hx (by simp)
    exact hlocates.of_not_clause hclause
  next =>
    rw [hphase.levels] at hdefers hwaits ⊢
    have hplaces : ∀ x ∈ u.bounds, ∃ n, (s.vista hidden k ys).Locates true (xs ++ []) x n ∧
        n.inst (.front (xs.map fun x => (V.place inner x).inst ρ)) = (V.place inner x).inst ρ :=
      fun x hx => bound_beneath (fun x => (V.place inner x).inst ρ) (hkept x hx)
    have hargs : List.Forall₂ ((s.vista hidden k ys).Locates true (xs ++ [])) u.bounds
        (u.bounds.map ((s.vista hidden k ys).place (xs ++ []))) := by
      rw [List.forall₂_map_right_iff]
      refine List.forall₂_same.mpr fun x hx => ?_
      obtain ⟨n, hn, -⟩ := hplaces x hx
      exact hn.eq_place ▸ hn
    have hmeans : Means R (s.vista hidden k ys) (Mode.start.beneath σ.levels) (xs ++ [])
        (.term (.mk stamp (.unknown v))) [.node (.deferred (R.marks stamp v) (R.tells σ.levels))
          (u.bounds.map ((s.vista hidden k ys).place (xs ++ [])))] := by
      have hbeneath : Mode.start.beneath σ.levels = ⟨σ.levels, true⟩ :=
        congrArg (Mode.mk · true) σ.levels.compose_empty
      rw [hbeneath]
      exact .unsolved hkind hsolution hu hwaits hdefers hargs
    have hle : (s.vista hidden k ys).Le ({ s with next := s.next + 1 }.vista hidden k ys) :=
      ⟨fun _ _ hc => hc, rfl, le_rfl, rfl⟩
    refine Yields.lift (Yields.build ⟨.tick 1, _, .delayed rfl hkeys hnodup hkinds hdefers
      ((means_terms_iff.mpr hvalues).mono hle) (hmeans.mono hle), ?_⟩)
    rw [Indexed.inst_node, List.map_map]
    refine .parts ?_
    rw [List.forall₂_map_left_iff, List.forall₂_map_right_iff]
    refine List.forall₂_same.mpr fun x hx => ?_
    obtain ⟨n, hn, hinst⟩ := hplaces x hx
    rw [Function.comp_apply, Function.comp_apply, ← hn.eq_place, hinst]
    exact .refl _

/-! ## The step -/

variable (hphase : Phase R s σ ρ V M inner hidden k ys)

include hphase

/-- A node that is made of copies of its parts. -/
theorem results_plain (hplain : node.isPlain) (hparts : node.hasParts) (hnode : node.Readable R.sig)
    (hfits : ∀ s ∈ (node.sorted R.sig).erase.sorts, R.fits M.levels s)
    (h : Means R V M inner (.plan (node.sorted R.sig).plan) parts) :
    Yields (step R.sig self σ (.mk stamp node)) s (Results R hidden k ys s
      ((Indexed.node (.form (R.shape M.levels (node.sorted R.sig).erase)) parts).inst ρ)) := by
  refine Yields.mono (rebuilds_step hplain) ?_
  intro t' s' hrebuilds
  obtain ⟨hreadable, hsorted⟩ := hrebuilds.readable hplain hnode
  obtain ⟨⟨hruns, -⟩, hshape⟩ := hrebuilds
  obtain ⟨stamp', node'⟩ := t'
  dsimp only [Term.node] at hruns hreadable hsorted hshape
  rw [← hsorted] at hruns hshape
  obtain ⟨hextends, parts', hparts', hall⟩ := hruns.copied hself hphase h
  refine ⟨hextends, _, .node ?_ hreadable ?_ hparts', ?_⟩
  · rw [← Node.hasParts_sorted_erase R.sig, hshape, Node.hasParts_atLevels,
      Node.hasParts_sorted_erase, hparts]
  · rw [hshape, Node.sorts_mapSorts]
    intro _ hmem
    obtain ⟨sort, hsort, rfl⟩ := List.mem_map.mp hmem
    exact R.copies _ _ (hphase.levels ▸ hfits sort hsort)
  · rw [hshape, show Mode.start.levels = .empty from rfl, R.shape_atLevels,
      ← hphase.levels, Indexed.inst_node]
    exact .parts hall

/-- A node that is contracted if it can be. -/
theorem results_contracted (hplain : ¬ node.isPlain)
    (hparts : node.hasParts) (hfits : ∀ s ∈ (node.sorted R.sig).erase.sorts, R.fits M.levels s)
    (h : Means R V M inner (.plan (node.sorted R.sig).plan) parts) :
    Yields (step R.sig self σ (.mk stamp node)) s (Results R hidden k ys s
      ((Indexed.node (.form (R.shape M.levels (node.sorted R.sig).erase)) parts).inst ρ)) := by
  cases node with
  | ref | letIn | unknown | delayed => cases hparts
  | app fn arg =>
    obtain _ | ⟨hf, _ | ⟨ha, _ | _⟩⟩ := (means_terms_iff.mp h)
    refine Yields.bind (hself hphase hf) ?_
    rintro fn' s₁ ⟨hextends, f', hf', hcontracts⟩
    have hphase₁ := hphase.grow hextends
    refine Yields.bind (hself hphase₁ ha) ?_
    rintro arg' s₂ ⟨hextends', a', ha', hcontracts'⟩
    refine Yields.lift ((results_makeApp hself (hphase₁.grow hextends')
      (hf'.mono (hextends'.vista_le hphase.hides k ys)) ha').mono ?_)
    rintro t s₃ ⟨hextends'', m, hm, happ⟩
    refine ⟨(hextends.trans hextends').trans hextends'', m, hm, Fades.trans ?_ happ⟩
    rw [Indexed.inst_node]
    exact .parts (.cons (hcontracts.mono (hextends'.trans hextends'').lost)
      (.cons (hcontracts'.mono hextends''.lost) .nil))
  | proj u index =>
    obtain _ | ⟨hm, _ | _⟩ := (means_terms_iff.mp h)
    refine Yields.bind (hself hphase hm) ?_
    rintro u' s₁ ⟨hextends, m', hm', hcontracts⟩
    refine Yields.lift ((results_makeProj index hm').mono ?_)
    rintro t s₂ ⟨hextends', r, hr, hproj⟩
    refine ⟨hextends.trans hextends', r, hr, Fades.trans ?_ hproj⟩
    rw [Indexed.inst_node]
    exact .parts (.cons (hcontracts.mono hextends'.lost) .nil)
  | field f sortArg arg =>
    obtain _ | ⟨hm, _ | _⟩ := (means_terms_iff.mp h)
    have hfield : σ.exprs.get? (.field f) = none := hphase.locals.get?_eq_none (by simp)
    have hfits' : R.fits .empty (sortArg.subst σ.levels) :=
      R.copies _ _ (hphase.levels ▸ hfits sortArg (by simp [Node.sorted, Node.erase, Node.sorts]))
    unfold step
    dsimp only [Term.node]
    rw [hfield]
    refine Yields.bind (hself hphase hm) ?_
    rintro arg' s₁ ⟨hextends, m', hm', hcontracts⟩
    refine Yields.lift
      ((results_makeField hself f _ (hphase.grow hextends) hfits' hm').mono ?_)
    rintro t s₂ ⟨hextends', r, hr, hproj⟩
    refine ⟨hextends.trans hextends', r, hr, Fades.trans ?_ hproj⟩
    have hshape : R.shape .empty (.field f (sortArg.subst σ.levels) ()) =
        R.shape M.levels (.field f sortArg () : Shape) := by
      rw [hphase.levels]
      exact R.shape_atLevels σ.levels (.field f sortArg ())
    rw [Indexed.inst_node, hshape]
    exact .parts (.cons (hcontracts.mono hextends'.lost) .nil)
  | _ => exact absurd rfl hplain

/-- A step of a traversal acts on meanings by instances and contractions. -/
theorem follows_step (hn : Means R V M inner (.term t) [n]) :
    Yields (step R.sig self σ t) s (Results R hidden k ys s (n.inst ρ)) := by
  cases hn with
  | ref hn => exact results_ref hself hphase hn
  | delayed hmapping hkeys hnodup hkinds _ hvalues hu =>
    exact results_delayed hself hphase hmapping hkeys hnodup hkinds hvalues hu
  | @solved _ _ stamp v u _ hsolution hu =>
    show Yields (unknown self σ (.mk stamp (.unknown v)) v) s _
    rw [hphase.known] at hsolution
    unfold unknown
    refine .seq (Yields.solution? ?_).lift
    rw [show s.solutions.get? (Term.mk stamp (.unknown v)).stamp = some u from hsolution]
    exact hself hphase hu
  | unsolved hkind hsolution hu hwaits hdefers hargs =>
    exact results_unsolved hphase hkind hsolution hu hwaits hdefers hargs
  | held hkind hsolution hu hwaits hreserves =>
    exact results_held hphase hkind hsolution hu hwaits hreserves
  | @letIn _ _ stamp strict xs body parts h =>
    obtain ⟨m, rfl⟩ := h.tail_single
    refine leaves ?_ fun f t s₁ => ?_
    · refine Yields.bind (follows_letClauses hself hphase h) ?_
      rintro ⟨ys', σ₁⟩ s₁ ⟨hlength, ρ₁, inner₁, hidden₁, ys₁, b, hphase₁, hb, hclose⟩
      refine Yields.bind (hself hphase₁ hb) ?_
      rintro body' s₂ ⟨hextends, b', hbody', hb'⟩
      obtain ⟨hextends', m', hm', hcontracts⟩ := hclose s₂ body' b' hextends hbody' hb'
      refine Yields.lift (Yields.build ⟨hextends'.trans (.tick 1), _, .letIn (hm'.mono ?_), ?_⟩)
      · exact ⟨fun _ _ hc => hc, rfl, le_rfl, rfl⟩
      · rw [Indexed.inst_node, hlength]
        exact .parts (.cons hcontracts .nil)
    · rintro ⟨hextends, n', hn', hcontracts⟩
      have hquiet' : Extends R hidden k ys s₁ (σ.onShared f s₁) :=
        (Quiet.onShared σ f s₁).extends hphase.shared
      exact ⟨hextends.trans hquiet', n', hn'.mono (hquiet'.vista_le hphase.hides k ys),
        hcontracts.mono hquiet'.lost⟩
  | @node _ _ stamp node parts hparts hnode hfits h =>
    by_cases hplain : node.isPlain
    · exact results_plain hself hphase hplain hparts hnode hfits h
    · exact results_contracted hself hphase hplain hparts hfits h

end Step

/-- A traversal acts on meanings by instances and contractions, by induction on the depth. -/
theorem follows_traverse (R : Reader) (fuel : Nat) : Follows R (traverse R.sig fuel) := by
  induction fuel with
  | zero => exact fun _ _ => .throwT
  | succ fuel ih => exact fun hphase hn => follows_step ih hphase hn

end Traversal

end Recheck
