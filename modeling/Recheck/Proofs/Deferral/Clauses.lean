import Recheck.Proofs.Deferral.Phases

/-!
# Recheck — let clauses and further phases of a traversal

The phases that a traversal goes through beside those under binders: in the definition of
a let clause, in a contraction, and beneath a delayed substitution. With the first of them
come the two ways in which a traversal treats let clauses. Those of a let expression are
copied. Those that a contraction meets from inside of their scope are updated in place, and
there is nothing to update in them but redexes.
-/

namespace Recheck

open Indexed (Values)

variable {K A : Type} {es : List (K × A)} {k : K} {x : Var} {xs ys : List Var} {i : Nat}
  {n : Indexed}

/-! ## Lists of entries -/

theorem lookup_filter_keep [DecidableEq K] {p : K → Bool} (hk : p k = true) :
    (es.filter fun e => p e.1).lookup k = es.lookup k := by
  induction es with
  | nil => rfl
  | cons e es ih =>
    rw [List.filter_cons, List.lookup_cons]
    by_cases he : k = e.1
    · rw [← he, hk, if_pos rfl, List.lookup_cons, beq_iff_eq.mpr he, beq_self_eq_true]
    · have hne : (k == e.1) = false := by simpa using he
      rw [hne]
      split
      · rw [List.lookup_cons, hne]
        exact ih
      · exact ih

theorem Mapping.get?_restrict (m : Mapping Term) {keep : Variable → Bool} {v : Variable}
    (hv : keep v = true) : (m.restrict keep).get? v = m.get? v := lookup_filter_keep hv

theorem lookup_append_of_none [BEq K] {es' : List (K × A)} (h : es.lookup k = none) :
    (es ++ es').lookup k = es'.lookup k := by
  rw [List.lookup_append, h, Option.none_or]

theorem idxOf?_append (h : (xs ++ ys).idxOf? x = some i) : xs.idxOf? x = some i ∨
      (x ∉ xs ∧ ∃ j, i = j + xs.length ∧ ys.idxOf? x = some j) := by
  induction xs generalizing i with
  | nil => exact .inr ⟨by simp, i, rfl, h⟩
  | cons z xs ih =>
    by_cases hz : x = z
    · subst hz
      obtain rfl := idxOf?_cons_self h
      exact .inl (by simp [List.idxOf?_cons])
    · obtain ⟨j, rfl, hj⟩ := idxOf?_cons_of_ne hz h
      have hne : (z == x) = false := by simpa using Ne.symm hz
      rcases ih hj with hj | ⟨hx, l, rfl, hl⟩
      · exact .inl (by simp [List.idxOf?_cons, hne, hj])
      · exact .inr ⟨by simp [hz, hx], l, rfl, hl⟩

theorem idxOf?_append_of_mem (h : xs.idxOf? x = some i) : (xs ++ ys).idxOf? x = some i := by
  rw [List.idxOf?, List.findIdx?_append, ← List.idxOf?, h]
  rfl

theorem idxOf?_append_of_not_mem (h : x ∉ xs) :
    (xs ++ ys).idxOf? x = (ys.idxOf? x).map (· + xs.length) := by
  induction xs with
  | nil => simp
  | cons z xs ih =>
    rw [List.mem_cons, not_or] at h
    have hne : (z == x) = false := by simpa using Ne.symm h.1
    rw [List.cons_append, List.idxOf?_cons, ih h.2]
    simp [hne, Function.comp_def, Nat.add_assoc]

/-- A variable that shows from inside shows behind any that are not it. -/
theorem Vista.Locates.behind {V : Vista} {closed : Bool} {scope : List Var}
    (h : V.Locates true scope x n) (hnot : x ∉ xs) :
    V.Locates closed (xs ++ scope) x (n.rename (· + xs.length)) := by
  cases h with
  | bound hx hclause =>
    refine .bound ?_ fun hkind hout => ?_
    · rw [List.append_assoc, idxOf?_append_of_not_mem hnot, hx]
      rfl
    · have hscope : x ∉ scope := fun hmem => hout (List.mem_append.mpr (.inr hmem))
      exact absurd (hclause hkind hscope).1 Bool.noConfusion
  | free hx hkind hage =>
    refine .free ?_ hkind hage
    rw [List.append_assoc, List.mem_append, not_or]
    exact ⟨hnot, hx⟩

/-- Entries for variables, in the order of the variables. -/
def localEntries (xs : List Var) (us : List Term) : List (Variable × Term) :=
  (xs.map Variable.local).zip us

theorem lookup_localEntries (us : List Term) (hx : xs.idxOf? x = some i) :
    (localEntries xs us).lookup (.local x) = us[i]? := by
  induction xs generalizing us i with
  | nil => cases hx
  | cons z xs ih =>
    cases us with
    | nil => rfl
    | cons u us =>
      rw [localEntries, List.map_cons, List.zip_cons_cons, List.lookup_cons]
      by_cases hz : x = z
      · subst hz
        obtain rfl := idxOf?_cons_self hx
        rw [beq_self_eq_true, List.getElem?_cons_zero]
      · obtain ⟨j, rfl, hj⟩ := idxOf?_cons_of_ne hz hx
        have hne : (Variable.local x == .local z) = false := by simpa using hz
        rw [hne, List.getElem?_cons_succ]
        exact ih us hj

theorem lookup_localEntries_of_not_mem {us : List Term} (hx : x ∉ xs) :
    (localEntries xs us).lookup (.local x) = none := by
  refine List.lookup_eq_none_iff.mpr fun e he => ?_
  have hmem := (List.of_mem_zip (show (e.1, e.2) ∈ _ from he)).1
  obtain ⟨z, hz, heq⟩ := List.mem_map.mp hmem
  rw [← heq]
  simp only [bne_iff_ne, ne_eq, Variable.local.injEq]
  rintro rfl
  exact hx hz

theorem Mapping.get?_of_keys {m : Mapping Term} (hkeys : m.entries.map Prod.fst = xs.map .local)
    (hx : x ∉ xs) : m.get? (.local x) = none := by
  refine List.lookup_eq_none_iff.mpr fun e he => ?_
  have hmem : e.1 ∈ xs.map Variable.local := hkeys ▸ List.mem_map_of_mem he
  obtain ⟨z, hz, heq⟩ := List.mem_map.mp hmem
  rw [← heq]
  simp only [bne_iff_ne, ne_eq, Variable.local.injEq]
  rintro rfl
  exact hx hz

/-- The keys of a list of entries, if they are all variables. -/
theorem exists_vars {es : List (Variable × Term)} {P : Var → Prop}
    (h : ∀ e ∈ es, ∃ x : Var, e.1 = .local x ∧ P x) :
    ∃ xs : List Var, es.map Prod.fst = xs.map .local ∧ ∀ x ∈ xs, P x := by
  induction es with
  | nil => exact ⟨[], rfl, by simp⟩
  | cons e es ih =>
    rw [List.forall_mem_cons] at h
    obtain ⟨⟨x, hx, hP⟩, hes⟩ := h
    obtain ⟨xs, hxs, hPs⟩ := ih hes
    exact ⟨x :: xs, by rw [List.map_cons, List.map_cons, hx, hxs],
      List.forall_mem_cons.mpr ⟨hP, hPs⟩⟩

theorem nodup_locals : (xs.map Variable.local).Nodup ↔ xs.Nodup := by
  unfold List.Nodup
  rw [List.pairwise_map]
  simp only [ne_eq, Variable.local.injEq]

/-- What holds of the value of each variable holds along the list. -/
theorem forall₂_values {es : List (Variable × Term)} {P : Term → Indexed → Prop} {f : Var → Indexed}
    (hkeys : es.map Prod.fst = xs.map .local) (h : ∀ x u, (.local x, u) ∈ es → P u (f x)) :
    List.Forall₂ P (es.map Prod.snd) (xs.map f) := by
  induction es generalizing xs with
  | nil =>
    obtain rfl : xs = [] := List.map_eq_nil_iff.mp hkeys.symm
    exact .nil
  | cons e es ih =>
    cases xs with
    | nil => cases hkeys
    | cons x xs =>
      obtain ⟨hkey, hkeys⟩ := List.cons.inj hkeys
      refine .cons (h x e.2 ?_) (ih hkeys fun z u hu => h z u (.tail _ hu))
      exact List.mem_cons.mpr (.inl (Prod.ext hkey.symm rfl))

theorem LevelSubst.eq_empty {levels : LevelSubst} (h : levels.isEmpty) : levels = .empty := by
  obtain ⟨entries⟩ := levels
  exact congrArg mk (List.isEmpty_iff.mp h)

theorem LevelSubst.compose_empty (levels : LevelSubst) : levels.compose .empty = levels := by
  obtain ⟨entries⟩ := levels
  have hsame : ∀ e ∈ entries, (e.1, e.2.subst .empty) = e := fun e _ => by
    rw [Level.subst_of_isEmpty rfl]
  have hmap : entries.map (fun e => (e.1, e.2.subst .empty)) = entries := by
    rw [List.map_congr_left hsame, List.map_id']
  exact congrArg mk ((List.append_nil _).trans hmap)

/-! ## Further phases -/

section Phases

variable {R : Reader} {s : Store} {σ : Substitution} {ρ : Values} {V : Vista} {M : Mode}
variable {inner hidden ys : List Var} {k : Nat}
variable {levels : LevelSubst} {m : Mapping Term} {us : List Term}

/-- What stands for a variable in scope. -/
theorem Phase.locates (h : Phase R s σ ρ V M inner hidden k ys) {closed : Bool}
    (hx : V.Locates closed inner x n) :
    R.reading.Replaces s hidden k ys σ x (n.inst ρ) := by
  cases hx with
  | bound hx _ => exact h.bound x _ hx
  | free hx hkind hage => exact h.free x hx hkind hage

/-- The composition of a mapping with a substitution, once the values of the mapping have been
substituted into. -/
def Substitution.after (σ : Substitution) (m : Mapping Term) (xs : List Var) (us : List Term)
    (levels : LevelSubst) : Substitution :=
  .of ⟨localEntries xs us ++ σ.exprs.entries.filter fun e => !m.contains e.1⟩
    (levels.compose σ.levels)

theorem LevelSubst.isEmpty_of_compose {levels' : LevelSubst}
    (h : (levels.compose levels').isEmpty) : levels'.isEmpty := by
  obtain ⟨entries⟩ := levels
  obtain ⟨entries'⟩ := levels'
  simp only [isEmpty, compose, List.isEmpty_iff, List.append_eq_nil_iff, List.map_eq_nil_iff] at h ⊢
  obtain ⟨rfl, h⟩ := h
  simpa [get?] using h

theorem Substitution.after_active (σ : Substitution) (hσ : σ.isIdentity = false)
    (hkeys : m.entries.map Prod.fst = xs.map .local) (hlength : us.length = xs.length) :
    (σ.after m xs us levels).isIdentity = false := by
  rw [Bool.eq_false_iff]
  intro hidentity
  simp only [after, of, isIdentity, Bool.and_eq_true, Mapping.isEmpty, List.isEmpty_iff,
    List.append_eq_nil_iff] at hidentity
  obtain ⟨⟨hentries, hfilter⟩, hlevels⟩ := hidentity
  have hxs : xs = [] := by
    have := congrArg List.length hentries
    simp only [localEntries, List.length_zip, List.length_map, hlength, Nat.min_self,
      List.length_nil] at this
    exact List.eq_nil_of_length_eq_zero this
  subst hxs
  have hm : m.entries = [] := List.map_eq_nil_iff.mp hkeys
  have hexprs : σ.exprs.entries = [] := by
    simpa [Mapping.contains, Mapping.get?, hm] using hfilter
  have : σ.isIdentity = true := by
    simp [isIdentity, Mapping.isEmpty, hexprs, LevelSubst.isEmpty_of_compose hlevels]
  rw [hσ] at this
  cases this

theorem Substitution.Local.after (hσ : σ.Local) (hkeys : m.entries.map Prod.fst = xs.map .local)
    (hnodup : xs.Nodup) (hkinds : ∀ x ∈ xs, x.kind ≠ .unknown) (hlength : us.length = xs.length) :
    (σ.after m xs us levels).Local where
  keys e he := by
    rcases List.mem_append.mp he with he | he
    · obtain ⟨x, hx, heq⟩ := List.mem_map.mp (List.of_mem_zip (show (e.1, e.2) ∈ _ from he)).1
      exact ⟨x, heq.symm, hkinds x hx⟩
    · exact hσ.keys e (List.mem_of_mem_filter he)
  nodup := by
    have hnames : (localEntries xs us).map Prod.fst = xs.map Variable.local :=
      List.map_fst_zip (by simp [hlength])
    rw [Substitution.after, Substitution.of, List.map_append, hnames]
    refine List.nodup_append.mpr ⟨nodup_locals.mpr hnodup,
      hσ.nodup.sublist (List.filter_sublist.map _), ?_⟩
    rintro v hv _ hv' rfl
    obtain ⟨e, he, rfl⟩ := List.mem_map.mp hv'
    obtain ⟨-, hkept⟩ := List.mem_filter.mp he
    obtain ⟨d, hd, heq⟩ := List.mem_map.mp (hkeys ▸ hv)
    have hnone : m.get? e.1 = none := by simpa [Mapping.contains] using hkept
    have := List.lookup_eq_none_iff.mp hnone d hd
    simp [heq] at this

theorem Substitution.get?_after_of_not_mem (σ : Substitution) (us : List Term) (levels : LevelSubst)
    (hkeys : m.entries.map Prod.fst = xs.map .local) (hx : x ∉ xs) :
    (σ.after m xs us levels).exprs.get? (.local x) = σ.exprs.get? (.local x) := by
  have hkept : (!m.contains (.local x)) = true := by
    rw [Mapping.contains, Mapping.get?_of_keys hkeys hx]
    rfl
  have hfilter : (σ.exprs.entries.filter fun e => !m.contains e.1).lookup (.local x) =
      σ.exprs.entries.lookup (.local x) := lookup_filter_keep (p := fun v => !m.contains v) hkept
  exact (lookup_append_of_none (lookup_localEntries_of_not_mem hx)).trans hfilter

theorem Substitution.get?_after (σ : Substitution) (m : Mapping Term) (levels : LevelSubst)
    {u : Term} (hi : xs.idxOf? x = some i) (hu : us[i]? = some u) :
    (σ.after m xs us levels).exprs.get? (.local x) = some u := by
  show (localEntries xs us ++ _).lookup (.local x) = _
  rw [List.lookup_append, lookup_localEntries us hi, hu, Option.some_or]

/-- The phase beneath a delayed substitution, which is carried out together with the one that
came across it. -/
theorem Phase.beneath (h : Phase R s σ ρ V M inner hidden k ys) {values : List Indexed}
    (levels : LevelSubst) (hkeys : m.entries.map Prod.fst = xs.map .local) (hnodup : xs.Nodup)
    (hkinds : ∀ x ∈ xs, x.kind ≠ .unknown) (hlength : us.length = xs.length)
    (hus : List.Forall₂ (fun u n => Means R (s.vista hidden k ys) .start [] (.term u) [n]) us
      values) :
    Phase R s (σ.after m xs us levels) (.push values ρ) V (M.beneath levels) (xs ++ inner) hidden
      k ys := by
  have hvalues : values.length = xs.length := hus.length_eq ▸ hlength
  have hother := fun x hx => σ.get?_after_of_not_mem us levels hkeys (x := x) hx
  have hkeyed : ∀ x i, xs.idxOf? x = some i → ∃ u n, us[i]? = some u ∧ values[i]? = some n ∧
      (σ.after m xs us levels).exprs.get? (.local x) = some u ∧
      Means R (s.vista hidden k ys) .start [] (.term u) [n] := by
    intro x i hi
    obtain ⟨hlt, -⟩ := List.findIdx?_eq_some_iff_getElem.mp hi
    have hu : i < us.length := hlength ▸ hlt
    have hn : i < values.length := hvalues ▸ hlt
    exact ⟨us[i], values[i], List.getElem?_eq_getElem hu, List.getElem?_eq_getElem hn,
      σ.get?_after m levels hi (List.getElem?_eq_getElem hu),
      (List.forall₂_iff_get.mp hus).2 i hu hn⟩
  refine ⟨⟨h.toScoping, h.defined, h.shows, ?_, ?_, ?_, ?_⟩, h.ages, h.known, rfl,
    σ.after_active h.active hkeys hlength, h.locals.after hkeys hnodup hkinds hlength, ?_⟩
  rotate_right
  · rw [Mode.beneath, h.levels]
    rfl
  · intro x i hi
    rw [List.append_assoc] at hi
    rcases idxOf?_append hi with hi | ⟨hx, j, rfl, hj⟩
    · obtain ⟨u, n, -, hn, hget, hu⟩ := hkeyed x i hi
      intro stamp
      rw [hget]
      rwa [Values.push_bound_of_getElem? hn]
    · intro stamp
      rw [hother x hx]
      rw [Values.push_bound_add hvalues]
      exact h.bound x j hj stamp
  · intro x hx hkind hage stamp
    rw [List.append_assoc, List.mem_append, not_or] at hx
    rw [hother x hx.1]
    exact h.free x hx.2 hkind hage stamp
  · intro x hx hkind
    by_cases hxs : x ∈ xs
    · obtain ⟨i, hi⟩ := Option.isSome_iff_exists.mp (List.isSome_idxOf?.mpr hxs)
      obtain ⟨u, n, -, -, hget, -⟩ := hkeyed x i hi
      rw [hget]
      rfl
    · rw [hother x hxs]
      exact h.mapped x ((List.mem_append.mp hx).resolve_left hxs) hkind
  · intro hopen
    cases hopen

end Phases

namespace Traversal

section Step

variable {R : Reader} {self} (hself : Follows R self)
variable {s : Store} {σ : Substitution} {ρ : Values} {V : Vista} {M : Mode}
variable {inner hidden ys : List Var} {k : Nat}

/-! ## Let clauses -/

include hself

/-- Copies the clauses of a let expression. The way back looks up the definitions of the
copies as they are by then. -/
theorem follows_letClauses {body : Term}
    (hphase : Phase R s σ ρ V M inner hidden k ys) (hn : Means R V M inner (.tail xs body) [n]) :
    Yields (clauses self σ xs) s fun r s₁ =>
      r.1.map (fun _ => (default : Var)) = xs.map (fun _ => default) ∧
      ∃ ρ₁ inner₁ hidden₁ ys₁ n₁, Phase R s₁ r.2 ρ₁ V M inner₁ hidden₁ k ys₁ ∧
        Means R V M inner₁ (.term body) [n₁] ∧ ∀ s₂ body' n₁', Extends R hidden₁ k ys₁ s₁ s₂ →
          Means R (s₂.vista hidden₁ k ys₁) .start [] (.term body') [n₁'] →
          Fades R s₂ (n₁.inst ρ₁) n₁' → Extends R hidden k ys s s₂ ∧ ∃ n',
            Means R (s₂.vista hidden k ys) .start [] (.tail r.1 body') [n'] ∧
              Fades R s₂ (n.inst ρ) n' := by
  induction xs generalizing s σ ρ inner hidden ys n with
  | nil =>
    cases hn with
    | body hn =>
      refine .pure ⟨rfl, ρ, inner, hidden, ys, n, hphase, hn, ?_⟩
      exact fun s₂ body' n₁' hextends hbody hcontracts =>
        ⟨hextends, n₁', .body hbody, hcontracts⟩
  | cons x xs ih =>
    cases hn with
    | @clause _ _ _ _ _ c ds r hkind hc hdefinition hrest =>
    obtain ⟨m, types, hm, htypes, rfl⟩ :=
      List.forall₂_cons_left_iff.mp (means_terms_iff.mp hdefinition)
    rw [clauses]
    refine Yields.bind (Yields.clause (Q := fun c' s₁ => c = c' ∧ s = s₁) ?_).lift ?_
    · intro c' hc'
      have := (Store.visible_eq_some.mp (hphase.shows _ c hc)).2
      exact ⟨Option.some.inj (this.symm.trans hc'), rfl⟩
    rintro _ _ ⟨rfl, rfl⟩
    refine Yields.bind (hself hphase hm) ?_
    rintro expr s₁ ⟨hextends, m', hexpr, hm'⟩
    have hphase₁ := hphase.grow hextends
    refine Yields.bind (runs_optional c.type) ?_
    rintro type s₂ ⟨⟨htype, -⟩, herase⟩
    obtain ⟨hextends', types', htypes', hall⟩ :=
      htype.copied hself hphase₁ (means_terms_iff.mpr htypes)
    have hphase₂ := hphase₁.grow hextends'
    have hexpr₂ := hexpr.mono (hextends'.vista_le hphase.hides k ys)
    refine yields_newClause x.name expr type hphase₂.numbered ?_
    intro y ref s₃ hy hs₃ hquiet hclause href hget
    have hsame : R.reading.Same s₂ s₃ := hquiet.same hphase.shared
    have hphase₃ := hphase₂.bind hkind hy hsame hs₃ href fun _ => ⟨_, m', hget, hexpr₂⟩
    refine Yields.bind (ih hphase₃ hrest) ?_
    rintro ⟨ys', σ₂⟩ s₄ ⟨hlength, ρ₁, inner₁, hidden₁, ys₁, n₁, hphase₄, hbody, hclose⟩
    refine .pure ⟨by simpa using hlength, ρ₁, inner₁, hidden₁, ys₁, n₁, hphase₄, hbody, ?_⟩
    intro s₅ body' n₁' hextends₄ hbody' hcontracts
    obtain ⟨hextends₃, r', hr', hcontracts'⟩ := hclose s₅ body' n₁' hextends₄ hbody' hcontracts
    -- by now the definition of the copy may have been contracted
    obtain ⟨e, m'', hget', hm'', hagain⟩ := hextends₃.definition y ys (List.suffix_refl _) hclause
      _ m' hget (hexpr₂.mono (hy.vista_le hsame.1 hphase₂.numbered hidden k ys))
    have hextends₂ := hextends₃.close hy hsame hphase₂.numbered hs₃
    refine ⟨(hextends.trans hextends').trans hextends₂, ?_⟩
    have hvisible : (s₅.vista hidden k ys).clauses y.serial = some ⟨e, type⟩ := by
      refine Store.visible_eq_some.mpr ⟨fun hmem => ?_, hget'⟩
      obtain ⟨z, hz, heq⟩ := List.mem_map.mp hmem
      have := hphase₂.old z hz
      have := hy.old
      omega
    have htyped : c.type.isSome = type.isSome := by
      have := congrArg Option.isSome herase
      simpa using this.symm
    have htail := (hr'.mono (s₅.vista_unhide y hidden k (y :: ys))).shrink rfl (hphase₂.older hy)
    have hdefinition' : Means R (s₅.vista hidden k ys) .start []
        (.plan (.terms (e :: type.toList))) (m'' :: types') :=
      .term (hm''.mono (s₅.vista_unhide y hidden k ys))
        (htypes'.mono (hextends₂.vista_le hphase.hides k ys))
    refine ⟨_, .clause (by rw [hclause]; decide) hvisible hdefinition' htail, ?_⟩
    rw [Indexed.inst_node, htyped]
    refine .parts ?_
    rw [List.map_append, List.map_cons]
    have hdefined := (hm'.mono (hextends'.trans hextends₂).lost).trans hagain
    exact List.rel_append (.cons hdefined (hall.imp fun _ _ h => h.mono hextends₂.lost))
      (.cons hcontracts'.abs .nil)

/-- Updating the definition of a let clause contracts it at most. -/
theorem follows_updateClause (hphase : Phase R s σ ρ V M inner hidden k ys) (hx : x ∈ ys)
    (hkind : x.kind = .clause) (hlevels : σ.levels = .empty)
    (hkeys : ∀ z u, σ.exprs.get? (.local z) = some u → x.serial < z.serial) :
    Yields (updateClause self σ x) s fun _ s' => Extends R hidden k ys s s' := by
  refine redefines_updateClause hphase.toStaging hx hkind fun xs t m hxs hm => ?_
  refine (hself (hphase.definition hxs hlevels hkeys) hm).mono ?_
  rintro t' s₁ ⟨hextends, m', hm', hfades⟩
  rw [Indexed.inst_id] at hfades
  exact ⟨hextends, m', hm', hfades⟩

end Step

end Traversal

end Recheck
