import Recheck.Proofs.Copies

/-!
# Recheck — substitution acts on readings

The cases of a traversal that are not about copying alone: let clauses, which are defined
in the store, and contractions, which start further substitutions. With them every step of
a traversal acts on readings as simultaneous substitution does, and so does the whole
traversal, by induction on the depth.
-/

namespace Recheck

open Indexed (Env Subst)

section Heads

variable {sig : Signature} {V : View} {scope : List Var} {t : Term} {n : Indexed}

section

variable (h : Reads sig V scope (.term t) n)

include h

theorem Reads.isLam_eq_false
    (ht : ∀ sort ps body, t.node ≠ .lam sort ps body) : n.isLam = false := by
  cases h with
  | bound | free => rfl
  | node hp =>
    cases hp with
    | @node stamp node hn => cases node <;> first | rfl | exact absurd rfl (ht _ _ _)

/-- What a function of some parameters reads as. -/
theorem Reads.of_lam {sort : USort} {p : Param Term} {ps : Telescope Term} {body : Term}
    (ht : t.node = .lam sort (p :: ps) body) : ∃ types ms,
      n = .node (.form (.lam sort (p.erase :: ps.map Param.erase) ())) (types ++ ms.map .abs) ∧
      (types ++ ms.map Indexed.abs).drop p.erase.type.toList.length = ms.map .abs ∧
      ReadsAll sig V (p.var :: scope) (pieces (ps.plan (.terms [body])).subterms) ms := by
  obtain ⟨stamp, node⟩ := t
  obtain rfl : node = .lam sort (p :: ps) body := ht
  obtain ⟨-, parts, rfl, hparts⟩ := (reads_node_iff (by simp)).mp h
  have hparts : ReadsAll sig V scope
      (pieces (Telescope.plan (p :: ps) (.terms [body])).subterms) parts := by
    rw [Telescope.plan_subterms]
    exact hparts
  rw [Telescope.plan, Plan.subterms_append, Plan.subterms_terms, Plan.subterms, Plan.subterms,
    List.append_nil, pieces_append, pieces_inScopeOf] at hparts
  obtain ⟨types, _, rfl, htypes, hbehind⟩ := readsAll_append_iff.mp hparts
  obtain ⟨ms, rfl, hms⟩ := readsAll_binder_iff.mp hbehind
  exact ⟨types, ms, rfl, p.drop_types (readsAll_terms_iff.mp htypes).length_eq, hms⟩

theorem Reads.component?_eq_none {index : Int64}
    (ht : ∀ fields type, t.node = .tuple fields type → fields[index.toNatClampNeg]? = none) :
    n.component? index = none := by
  cases h with
  | bound | free => rfl
  | node hp =>
    cases hp with
    | @node stamp node hn =>
      cases node with
      | tuple fields type =>
        have hle := List.getElem?_eq_none_iff.mp (ht fields type rfl)
        exact if_neg (Nat.not_lt.mpr (by simpa [eraseTerms] using hle))
      | _ => rfl

theorem Reads.component? {fields : List Term} {type : Stamped (SigmaType Term)} {index : Int64}
    {u : Term} (ht : t.node = .tuple fields type) (hu : fields[index.toNatClampNeg]? = some u) :
    ∃ m, Reads sig V scope (.term u) m ∧ n.component? index = some m := by
  obtain ⟨stamp, node⟩ := t
  obtain rfl : node = .tuple fields type := ht
  obtain ⟨-, parts, rfl, hparts⟩ := (reads_node_iff (by simp)).mp h
  have hparts : ReadsAll sig V scope
      (pieces (unscoped fields) ++ pieces (Telescope.subterms [] type.val.params)) parts := by
    rw [← pieces_append]
    exact hparts
  obtain ⟨ms, ms', rfl, hms, -⟩ := readsAll_append_iff.mp hparts
  exact component?_tuple ms' (readsAll_terms_iff.mp hms) hu

theorem Reads.impl?_new {renewed : Option Term} {type : Stamped (RecordType Term)}
    (ht : t.node = .new renewed type) (f : FieldName) :
    (type.val.impl? f = none → n.impl? f = none) ∧ ∀ impl, type.val.impl? f = some impl →
      ∃ b, Reads sig V (type.val.this :: scope) (.term impl) b ∧ n.impl? f = some (.abs b) := by
  obtain ⟨stamp, node⟩ := t
  obtain rfl : node = .new renewed type := ht
  obtain ⟨hproper, parts, hn, hparts⟩ := (reads_node_iff (by simp)).mp h
  have hparts : ReadsAll sig V scope (pieces (unscoped renewed.toList) ++
      pieces (type.val.sorted sig).subterms) parts := by
    rw [← pieces_append]
    exact hparts
  obtain ⟨ms, _, rfl, hms, himpls⟩ := readsAll_append_iff.mp hparts
  rw [← RecordType.plan_subterms, RecordType.plan, Plan.subterms, Plan.subterms_terms,
    Plan.subterms, List.append_nil, pieces_inScopeOf] at himpls
  obtain ⟨bs, rfl, hbs⟩ := readsAll_binder_iff.mp himpls
  have hlookup := lookup_parts [] (readsAll_terms_iff.mp hbs) f
  have himpl? : n.impl? f =
      (((type.val.sorted sig).impls.map Prod.fst).zip (bs.map Indexed.abs)).lookup f := by
    have hlength : ms.length = (renewed.map fun _ => ()).toList.length := by
      rw [← (readsAll_terms_iff.mp hms).length_eq]
      cases renewed <;> rfl
    rw [hn]
    show (List.zip _ ((ms ++ bs.map Indexed.abs).drop _)).lookup f = _
    rw [← hlength, List.drop_left]
    simp [RecordType.erase, Function.comp_def]
  rwa [List.append_nil, ← RecordType.impl?, RecordType.Proper.impl?_sorted hproper, ← himpl?]
    at hlookup

theorem Reads.impl?_eq_none {f : FieldName}
    (ht : ∀ renewed type, t.node = .new renewed type → type.val.impl? f = none) :
    n.impl? f = none := by
  by_cases hnew : ∃ renewed type, t.node = .new renewed type
  · obtain ⟨renewed, type, hnode⟩ := hnew
    exact (h.impl?_new hnode f).1 (ht renewed type hnode)
  cases h with
  | bound | free => rfl
  | node hp =>
    cases hp with
    | @node stamp node hn => cases node <;> first | rfl | exact absurd ⟨_, _, rfl⟩ hnew

end

end Heads

namespace Traversal

section Step

variable {sig : Signature} {self} (hsim : Simulates sig self)
variable {s : Store} {σ : Substitution} {ρ : Env} {V : View} {parts : List Indexed}
variable {inner hidden ys : List Var} {k : Nat} (hstage : Stage sig s σ ρ V inner hidden k ys)
variable {n : Indexed} {x : Var} {arg : Term} {stamp : Nat}

/-! ## Let clauses -/

include hsim

/-- Copies the clauses of a let expression. The way back looks up the definitions of the
copies as they are by then. -/
theorem yields_letClauses {xs : List Var} {body : Term}
    (hstage : Stage sig s σ ρ V inner hidden k ys) (hn : Reads sig V inner (.tail xs body) n) :
    Yields (clauses self σ xs) s fun r s₁ =>
      r.1.map (fun _ => (default : Var)) = xs.map (fun _ => default) ∧
      ∃ ρ₁ inner₁ hidden₁ ys₁ n₁, Stage sig s₁ r.2 ρ₁ V inner₁ hidden₁ k ys₁ ∧
        Reads sig V inner₁ (.term body) n₁ ∧ ∀ s₂ body', Grows sig hidden₁ k ys₁ s₁ s₂ →
          Copied sig s₂ hidden₁ k ys₁ ρ₁ [n₁] [([], .term body')] →
          Grows sig hidden k ys s s₂ ∧
            Copied sig s₂ hidden k ys ρ [n] [([], .tail r.1 body')] := by
  induction xs generalizing s σ ρ inner hidden ys n with
  | nil =>
    refine .pure ⟨rfl, ρ, inner, hidden, ys, n, hstage, reads_tail_nil_iff.mp hn, ?_⟩
    rintro s₂ body' hgrows ⟨ms, hreads, hsubst⟩
    obtain ⟨m, rfl, hm⟩ := readsAll_singleton_iff.mp hreads
    exact ⟨hgrows, [m], readsAll_singleton_iff.mpr ⟨m, rfl, .body hm⟩, hsubst⟩
  | cons x xs ih =>
    obtain ⟨c, _, hc, rfl, hparts⟩ := reads_tail_cons_iff.mp hn
    obtain ⟨_, _, rfl, hclause, htail⟩ := readsAll_append_iff.mp hparts
    obtain ⟨m, types, hm, htypes, rfl⟩ :=
      List.forall₂_cons_left_iff.mp (readsAll_terms_iff.mp hclause)
    have htail : ReadsAll sig V inner (inScopeOf [x] [([], Piece.tail xs body)]) _ := htail
    obtain ⟨ms, rfl, hms⟩ := readsAll_binder_iff.mp htail
    obtain ⟨r, rfl, hr⟩ := readsAll_singleton_iff.mp hms
    rw [clauses]
    have hc := (Store.visible_eq_some.mp (hstage.shows _ c hc)).2
    refine .seq (Yields.clause_of hc ?_).lift
    refine Yields.bind (hsim hstage hm) ?_
    rintro expr s₁ ⟨hgrows, m', hexpr, hm'⟩
    refine Yields.bind (runs_optional c.type) ?_
    rintro type s₂ ⟨⟨hruns, -⟩, herase⟩
    obtain ⟨hgrows', htype⟩ := hruns.substituted hsim (hstage.grow hgrows)
      (by rw [Plan.subterms_terms]; exact readsAll_terms_iff.mpr htypes)
    rw [Plan.subterms_terms] at htype
    have hstage₂ := (hstage.grow hgrows).grow hgrows'
    have hexpr₂ := hexpr.mono (hgrows'.view_le hstage.hides k ys)
    refine yields_newClause x.name expr type hstage₂.numbered ?_
    intro y ref s₃ hy hs₃ _ hkind href hget
    have hstage₃ := hstage₂.bind (x := x) hy hs₃ href fun _ => ⟨_, m', hget, hexpr₂⟩
    refine Yields.bind (ih hstage₃ hr) ?_
    rintro ⟨ys', σ₂⟩ s₄ ⟨hlength, ρ₁, inner₁, hidden₁, ys₁, n₁, hstage₄, hbody, hclose⟩
    refine .pure ⟨by simpa using hlength, ρ₁, inner₁, hidden₁, ys₁, n₁, hstage₄, hbody, ?_⟩
    intro s₅ body' hgrows₄ hcopied
    obtain ⟨hgrows₃, hcopied'⟩ := hclose s₅ body' hgrows₄ hcopied
    -- by now the definition of the copy may have been contracted
    obtain ⟨e, m'', hget', hm'', hagain⟩ := hgrows₃.definition y ys (List.suffix_refl _) hkind _ m'
      hget (hexpr₂.mono (hy.view_le hstage₂.numbered hidden k ys))
    have hgrows₂ := hgrows₃.close hy trivial hstage₂.numbered hstage₃.numbered
    refine ⟨(hgrows.trans hgrows').trans hgrows₂, ?_⟩
    obtain ⟨types', hreads, hsubst⟩ := htype.grow hgrows₂ hstage.hides
    obtain ⟨tails, htails, hsubst'⟩ := hcopied'.close (hstage₂.older hy)
    have hvisible : (s₅.view hidden k ys).clauses y.serial = some ⟨e, type⟩ := by
      refine Store.visible_eq_some.mpr ⟨fun hmem => ?_, hget'⟩
      obtain ⟨z, hz, heq⟩ := List.mem_map.mp hmem
      have := hstage₂.old z hz
      have := hy.old
      omega
    have htyped : type.isSome = c.type.isSome := by
      have := congrArg Option.isSome herase
      simpa using this
    have hnode : Subst ρ (.node (.clause c.type.isSome) (m :: types ++ [Indexed.abs r]))
        (.node (.clause type.isSome) (m' :: (types' ++ tails))) := by
      rw [htyped]
      exact .of_parts rfl (.cons hm' (List.rel_append hsubst hsubst'))
    refine ⟨[_], readsAll_singleton_iff.mpr ⟨_, rfl, ?_⟩, .cons (hnode.again_many hagain) .nil⟩
    refine reads_tail_cons_iff.mpr ⟨_, _, hvisible, rfl, ?_⟩
    refine readsAll_append_iff.mpr ⟨m'' :: types', tails, rfl, ?_, htails⟩
    exact readsAll_terms_iff.mpr (.cons (hm''.mono (s₅.view_unhide y hidden k ys))
      (readsAll_terms_iff.mp hreads))

/-- Updating the definition of a let clause contracts it at most. -/
theorem grows_updateClause (hstage : Stage sig s σ ρ V inner hidden k ys) (hx : x ∈ ys)
    (hkind : x.kind = .clause) (hlevels : σ.levels = .empty)
    (hkeys : ∀ z u, σ.exprs.get? (.local z) = some u → x.serial < z.serial) :
    Yields (updateClause self σ x) s fun _ s' => Grows sig hidden k ys s s' := by
  refine redefines_updateClause hstage.toStaging hx hkind fun xs t m hxs hm => ?_
  refine (hsim (hstage.definition hxs hlevels hkeys) hm).mono ?_
  rintro t' s₁ ⟨hgrows, m', hm', hsubst⟩
  exact ⟨hgrows, m', hm', .single hsubst⟩

/-! ## Contraction -/

/-- Applies a function that has been copied. -/
theorem yields_makeApp {fn : Term} {f a : Indexed} (hstage : Stage sig s σ ρ V inner hidden k ys)
    (hfn : Reads sig (s.view hidden k ys) [] (.term fn) f)
    (harg : Reads sig (s.view hidden k ys) [] (.term arg) a) :
    Yields (makeAppFrom self fn [arg]) s fun t s' => Grows sig hidden k ys s s' ∧ ∃ m,
      Reads sig (s'.view hidden k ys) [] (.term t) m ∧ ∀ {ρ f₀ a₀}, Subst ρ f₀ f →
        Subst ρ a₀ a → Subst ρ (.node (.form (.app () ())) [f₀, a₀]) m := by
  have hcontract : ∀ x, Stage sig s (.single x arg) (.single a) (s.view hidden k ys) [x] hidden
      k ys := fun x => hstage.contract harg
  refine yields_app (fun hnode => ?_) (fun sort p body hnode => ?_) ?_
  · have hisLam := hfn.isLam_eq_false hnode
    refine Yields.build ⟨.tick 1, .node (.form (.app () ())) [f, a], ?_,
      fun hf ha => .app hf ha hisLam⟩
    exact (reads_node_iff (by simp)).mpr ⟨trivial, _, rfl,
      readsAll_terms_iff.mpr (.cons hfn (.cons harg .nil))⟩
  · obtain ⟨types, ms, rfl, hdrop, hms⟩ := hfn.of_lam hnode
    obtain ⟨b, rfl, hb⟩ := readsAll_singleton_iff.mp hms
    refine Yields.mono (hsim (hcontract p.var) hb) ?_
    rintro t s' ⟨hgrows, r, hr, hsubst⟩
    exact ⟨hgrows, r, hr, fun hf ha => .beta hf ha hdrop hsubst⟩
  · intro sort p q ps body ps' body' s₂ hnode herase hruns
    obtain ⟨types, ms, rfl, hdrop, hms⟩ := hfn.of_lam hnode
    obtain ⟨hgrows, rs, hrs, hsubst⟩ := hruns.runs.substituted hsim (hcontract p.var) hms
    refine Yields.build ⟨hgrows.trans (.tick 1),
      .node (.form (.lam sort (q.erase :: ps.map Param.erase) ())) rs, ?_, fun hf ha => ?_⟩
    · refine (reads_node_iff (by simp)).mpr ⟨trivial, rs, ?_, ?_⟩
      · simp only [Node.sorted, Node.erase, herase]
      · rw [Telescope.plan_subterms] at hrs
        exact hrs
    · exact .betaRest hf ha hdrop hsubst.length_eq
        fun b r hmem => (List.forall₂_iff_zip.mp hsubst).2 hmem

omit hsim in
/-- Projects a tuple component that has been copied. -/
theorem yields_makeProj {u : Term} (index : Int64)
    (hu : Reads sig (s.view hidden k ys) [] (.term u) n) :
    Yields (makeProj u index) s fun t s' => Grows sig hidden k ys s s' ∧ ∃ m,
      Reads sig (s'.view hidden k ys) [] (.term t) m ∧ ∀ {ρ n₀}, Subst ρ n₀ n →
        Subst ρ (.node (.form (.proj () index)) [n₀]) m := by
  refine yields_proj (fun hnone => ?_) fun fields type v hnode hget => ?_
  · have hnone := hu.component?_eq_none hnone
    refine Yields.build ⟨.tick 1, .node (.form (.proj () index)) [n], ?_, fun h => .proj h hnone⟩
    exact (reads_node_iff (by simp)).mpr ⟨trivial, _, rfl,
      readsAll_terms_iff.mpr (.cons hu .nil)⟩
  · obtain ⟨m, hm, hsome⟩ := hu.component? hnode hget
    exact ⟨.refl, m, hm, fun h => .component h hsome⟩

/-- Projects a field of a record value that has been copied. -/
theorem yields_makeField (f : FieldName) (sort : USort)
    (hstage : Stage sig s σ ρ V inner hidden k ys)
    (harg : Reads sig (s.view hidden k ys) [] (.term arg) n) :
    Yields (makeFieldFrom self f (sort.subst σ.levels) arg) s fun t s' =>
      Grows sig hidden k ys s s' ∧ ∃ m, Reads sig (s'.view hidden k ys) [] (.term t) m ∧
        ∀ {n₀}, Subst ρ n₀ n → Subst ρ (.node (.form (.field f sort ())) [n₀]) m := by
  refine yields_field (fun hnone => ?_) fun renewed type impl hnode himpl => ?_
  · have hnone := harg.impl?_eq_none hnone
    refine Yields.build ⟨.tick 1, .node (.form (.field f (sort.subst ρ.levels) ())) [n], ?_,
      fun h => .field h hnone⟩
    rw [hstage.levels]
    exact (reads_node_iff (by simp)).mpr ⟨trivial, _, rfl,
      readsAll_terms_iff.mpr (.cons harg .nil)⟩
  · obtain ⟨b, hread, hb⟩ := (harg.impl?_new hnode f).2 impl himpl
    refine Yields.mono (hsim (hstage.contract harg) hread) ?_
    rintro t s' ⟨hgrows, m, hm, hsubst⟩
    exact ⟨hgrows, m, hm, fun h => .impl h hb hsubst⟩

/-! ## The step -/

theorem yields_ref (hstage : Stage sig s σ ρ V inner hidden k ys)
    (hn : Reads sig V inner (.term (.mk stamp (.ref x))) n) :
    Yields (step sig self σ (.mk stamp (.ref x))) s fun t s' => Grows sig hidden k ys s s' ∧
      ∃ n', Reads sig (s'.view hidden k ys) [] (.term t) n' ∧ Subst ρ n n' := by
  obtain ⟨n', himage, hsubst⟩ : ∃ n', sig.reading.Replaces s hidden k ys σ x n' ∧
      Subst ρ n n' := by
    cases hn with
    | bound hx _ => exact ⟨_, hstage.bound x _ hx, .bound _⟩
    | free hx hkind hage => exact ⟨_, hstage.free x hx hkind hage, .free x⟩
    | node hp =>
      cases hp with
      | node h => exact h.elim
  unfold step
  dsimp only [Term.node]
  have himage : Reads sig (s.view hidden k ys) [] (.term _) n' := himage stamp
  cases hget : σ.exprs.get? (.local x) with
  | some u =>
    rw [hget] at himage
    exact .pure ⟨.refl, n', himage, hsubst⟩
  | none =>
    rw [hget] at himage
    dsimp only
    split
    next hkind =>
      -- only a clause around the redex that is being contracted is not replaced
      obtain ⟨hx, hnewer⟩ : x ∈ V.outer ∧ (x ∉ inner ∧ ∀ z ∈ inner, x.serial < z.serial) := by
        have hnot : x ∉ inner := by
          intro hmem
          have := hstage.mapped x hmem hkind
          rw [hget] at this
          cases this
        cases hn with
        | bound hx hnewer =>
          refine ⟨?_, hnot, hnewer hkind hnot⟩
          by_contra houter
          rw [List.idxOf?_eq_none_iff.mpr (by simp [hnot, houter])] at hx
          cases hx
        | free _ hkind' => exact absurd hkind hkind'
        | node hp =>
          cases hp with
          | node h => exact h.elim
      obtain ⟨hlevels, hkeys⟩ := hstage.newer rfl x hx hkind hnewer.1 hnewer.2
      have hmem : x ∈ ys := by
        cases himage with
        | bound hx _ =>
          by_contra hys
          rw [List.nil_append] at hx
          rw [show (s.view hidden k ys).outer = ys from rfl,
            List.idxOf?_eq_none_iff.mpr hys] at hx
          cases hx
        | free _ hkind' => exact absurd hkind hkind'
        | node hp =>
          cases hp with
          | node h => exact h.elim
      refine Yields.bind (grows_updateClause hsim hstage hmem hkind hlevels hkeys) ?_
      intro _ s' hgrows
      exact .pure ⟨hgrows, n', himage.mono (hgrows.view_le hstage.hides k ys), hsubst⟩
    next => exact .pure ⟨.refl, n', himage, hsubst⟩

omit hsim in
theorem forall₂_rotate {A B : Type} {R : A → B → Prop} {as : List A} {bs : List B}
    (h : List.Forall₂ R as bs) (k : Nat) : List.Forall₂ R (as.rotate k) (bs.rotate k) := by
  induction k generalizing as bs with
  | zero => simpa using h
  | succ k ih =>
    cases h with
    | nil => simp
    | cons hab h =>
      rw [List.rotate_cons_succ, List.rotate_cons_succ]
      exact ih (List.rel_append h (.cons hab .nil))

/-- A node that is made of copies of its parts. -/
theorem yields_plain {node : Node Term} (hplain : node.isPlain)
    (hstage : Stage sig s σ ρ V inner hidden k ys) (hnode : node.Readable sig)
    (hparts : ReadsAll sig V inner (node.sorted sig).pieces parts) :
    Yields (step sig self σ (.mk stamp node)) s fun t s' => Grows sig hidden k ys s s' ∧
      ∃ n', Reads sig (s'.view hidden k ys) [] (.term t) n' ∧
        Subst ρ (.node (.form (node.sorted sig).erase) parts) n' := by
  have hpieces : ∀ n : Node Term, n.isPlain →
      n.pieces = (pieces n.plan.subterms).rotate n.leading := by
    intro n hn
    have hterms : n.pieces = pieces n.subterms := by
      cases n with
      | letIn => cases hn
      | _ => rfl
    rw [hterms, Node.subterms_eq_rotate hn]
    exact List.map_rotate _ _ _
  have hplain₀ : (node.sorted sig).isPlain := by cases node <;> exact hplain
  -- the parts in the order in which they are copied
  have hlength := hparts.length_eq
  rw [hpieces _ hplain₀, List.length_rotate] at hlength
  have hleading : (node.sorted sig).leading + (parts.length - (node.sorted sig).leading) =
      parts.length := by
    refine Nat.add_sub_cancel' ?_
    have := Node.leading_le hplain₀
    rw [Node.subterms_eq_rotate hplain₀, List.length_rotate] at this
    rwa [← hlength, pieces, List.length_map]
  have hback := forall₂_rotate hparts (parts.length - (node.sorted sig).leading)
  rw [hpieces _ hplain₀, List.rotate_rotate, hleading, ← hlength, List.rotate_length] at hback
  refine Yields.mono (rebuilds_step hplain) ?_
  intro t s' hrebuilds
  obtain ⟨hreadable, hsorted⟩ := hrebuilds.readable hplain hnode
  have hplain' := hrebuilds.isPlain.trans hplain
  have hleading' := hrebuilds.leading
  obtain ⟨⟨hruns, -⟩, hshape⟩ := hrebuilds
  obtain ⟨hgrows, parts', hparts', hsubst⟩ := hruns.substituted hsim hstage hback
  have hparts' := forall₂_rotate hparts' (node.sorted sig).leading
  have hsubst := forall₂_rotate hsubst (node.sorted sig).leading
  rw [List.rotate_rotate, hlength, Nat.add_comm, hleading, List.rotate_length] at hsubst
  obtain ⟨stamp', node'⟩ := t
  dsimp only [Term.node] at hreadable hsorted hplain' hleading' hshape hparts'
  rw [← hleading'] at hparts' hsubst
  rw [← hpieces _ hplain'] at hparts'
  refine ⟨hgrows, .node (.form node'.erase) (parts'.rotate node'.leading), ?_, ?_⟩
  · rw [← hsorted] at hparts'
    refine (reads_node_iff ?_).mpr ⟨hreadable, _, by rw [hsorted], hparts'⟩
    rintro x rfl
    exact hreadable
  · rw [hshape, ← hstage.levels]
    exact .of_parts (by cases node <;> first | rfl | cases hplain) hsubst

/-- A step of a traversal acts on readings as substitution. -/
theorem yields_step {t : Term} (hstage : Stage sig s σ ρ V inner hidden k ys)
    (hn : Reads sig V inner (.term t) n) :
    Yields (step sig self σ t) s fun t' s' => Grows sig hidden k ys s s' ∧
      ∃ n', Reads sig (s'.view hidden k ys) [] (.term t') n' ∧ Subst ρ n n' := by
  obtain ⟨stamp, node⟩ := t
  by_cases href : ∃ x, node = .ref x
  · obtain ⟨x, rfl⟩ := href
    exact yields_ref hsim hstage hn
  obtain ⟨hreadable, parts, rfl, hparts⟩ := (reads_node_iff fun x hx => href ⟨x, hx⟩).mp hn
  by_cases hplain : node.isPlain
  · exact yields_plain hsim hplain hstage hreadable hparts
  cases node with
  | ref x => exact absurd ⟨x, rfl⟩ href
  | unknown v | delayed u exprs levels => exact hreadable.elim
  | app fn arg =>
    obtain _ | ⟨hf, _ | ⟨ha, _ | _⟩⟩ := (readsAll_terms_iff.mp hparts)
    refine Yields.bind (hsim hstage hf) ?_
    rintro fn' s₁ ⟨hgrows, f', hf', hsubst⟩
    have hstage₁ := hstage.grow hgrows
    refine Yields.bind (hsim hstage₁ ha) ?_
    rintro arg' s₂ ⟨hgrows', a', ha', hsubst'⟩
    refine Yields.lift ((yields_makeApp hsim (hstage₁.grow hgrows')
      (hf'.mono (hgrows'.view_le hstage.hides k ys)) ha').mono ?_)
    rintro t s₃ ⟨hgrows'', m, hm, happ⟩
    exact ⟨(hgrows.trans hgrows').trans hgrows'', m, hm, happ hsubst hsubst'⟩
  | proj u index =>
    obtain ⟨m, rfl, hm⟩ := readsAll_singleton_iff.mp hparts
    refine Yields.bind (hsim hstage hm) ?_
    rintro u' s₁ ⟨hgrows, m', hm', hsubst⟩
    refine Yields.lift ((yields_makeProj index hm').mono ?_)
    rintro t s₂ ⟨hgrows', r, hr, hproj⟩
    exact ⟨hgrows.trans hgrows', r, hr, hproj hsubst⟩
  | field f sortArg arg =>
    obtain ⟨m, rfl, hm⟩ := readsAll_singleton_iff.mp hparts
    unfold step
    dsimp only [Term.node]
    rw [hstage.fields f]
    refine Yields.bind (hsim hstage hm) ?_
    rintro arg' s₁ ⟨hgrows, m', hm', hsubst⟩
    refine Yields.lift ((yields_makeField hsim f sortArg (hstage.grow hgrows) hm').mono ?_)
    rintro t s₂ ⟨hgrows', r, hr, hfield⟩
    exact ⟨hgrows.trans hgrows', r, hr, hfield hsubst⟩
  | letIn strict xs body =>
    obtain ⟨m, rfl, hm⟩ := readsAll_singleton_iff.mp hparts
    refine leaves ?_ fun f t' s' => ?_
    · refine Yields.bind (yields_letClauses hsim hstage hm) ?_
      rintro ⟨ys', σ₁⟩ s₁ ⟨hlength, ρ₁, inner₁, hidden₁, ys₁, b, hstage₁, hb, hclose⟩
      refine Yields.bind (hsim hstage₁ hb) ?_
      rintro body' s₂ ⟨hgrows, b', hbody', hb'⟩
      obtain ⟨hgrows', parts', hparts', hsubst⟩ := hclose s₂ body' hgrows (.term hbody' hb')
      refine Yields.lift (Yields.build ⟨hgrows'.trans (.tick 1),
        .node (.form (.letIn strict (xs.map fun _ => default) ())) parts', ?_, .of_parts rfl hsubst⟩)
      refine (reads_node_iff (by simp)).mpr ⟨trivial, parts', ?_, hparts'⟩
      simp only [Node.sorted, Node.erase, hlength]
    · rintro ⟨hgrows, n', hn', hsubst⟩
      have hquiet : Grows sig hidden k ys s' (σ.onShared f s') := (Quiet.onShared σ f s').grows
      exact ⟨hgrows.trans hquiet, n', hn'.mono (hquiet.view_le hstage.hides k ys), hsubst⟩
  | _ => exact absurd rfl hplain

end Step

/-- A traversal acts on readings as substitution, by induction on the depth. -/
theorem simulates_traverse (sig : Signature) (fuel : Nat) :
    Simulates sig (traverse sig fuel) := by
  induction fuel with
  | zero => exact fun _ _ => .throwT
  | succ fuel ih => exact fun hstage hn => yields_step ih hstage hn

end Traversal

end Recheck
