import Recheck.Proofs.Deferral.Instances
import Recheck.Proofs.Deferral.Levels

/-!
# Recheck — composition of substitutions

Substituting twice is substituting once by the composition: both ways lead to contractions of
one and the same instance (`subst_composition`). Unknowns may be unsolved and
substitutions delayed in all terms involved. On the first way the parts of a substitution
that concern the bounds of an unknown are delayed one after the other; on the second one,
what is delayed is the part of the composition.

On meanings, a level substitution acts node by node (`Indexed.relevel`), and a term that is
read under two level substitutions is read under their composition (`Means.relevel`).
-/

namespace Recheck

open Indexed (Values Contracts Grafts)

/-! ## Level substitutions on meanings -/

/-- Reads terms in which the numbers of levels leave room for others. -/
def Reader.within (sig : Signature) (room : Nat) : Reader where
  sig := sig
  fits levels s := s.size + levels.size + room < Level.limit
  defers levels levels' := levels'.size + levels.size + room < Level.limit
  waits _ _ _ := True
  shows := USort.canonical
  marks _ v := v
  tells := LevelSubst.canonical
  reserves _ := []
  settles _ _ _ h := h
  copies levels s h := by
    have hp : (s.p.subst levels).size ≤ s.p.size + levels.size :=
      Level.size_subst (by simp only [USort.size] at h; omega)
    have hh : (s.h.subst levels).size ≤ s.h.size + levels.size :=
      Level.size_subst (by simp only [USort.size] at h; omega)
    have hempty : LevelSubst.empty.size = 0 := rfl
    simp only [USort.size, USort.subst] at h ⊢
    omega

/-- Reads terms whatever the levels in them are. -/
def Reader.any (sig : Signature) : Reader where
  sig := sig
  fits _ _ := True
  defers _ _ := True
  waits _ _ _ := True
  shows := USort.canonical
  marks _ v := v
  tells := LevelSubst.canonical
  reserves _ := []
  copies _ _ _ := trivial
  settles _ _ _ h := h

instance Reader.plain_within (sig : Signature) (room : Nat) : (Reader.within sig room).Plain :=
  ⟨fun _ => rfl⟩

instance Reader.plain_any (sig : Signature) : (Reader.any sig).Plain := ⟨fun _ => rfl⟩

/-- The head under a level substitution. -/
def Indexed.Head.relevel (levels : LevelSubst) : Indexed.Head → Indexed.Head
  | .form (.delayed t r levels') => .form (.delayed t r (levels'.compose levels).canonical)
  | head => head.mapSorts fun s => (s.subst levels).canonical

/-- The term under a level substitution. -/
def Indexed.relevel (levels : LevelSubst) : Indexed → Indexed :=
  graft fun head ns => .node (head.relevel levels) ns

theorem grafts_relevel (levels : LevelSubst) :
    Grafts (fun s => (s.subst levels).canonical) fun head ns => .node (head.relevel levels) ns where
  node head ns hhead := by
    unfold Indexed.Head.relevel
    split
    · cases hhead
    · rfl
  inst head ns ρ := Indexed.inst_node ρ _ ns
  part _ _ _ _ _ h := .part h

namespace Indexed

variable (levels : LevelSubst)

theorem relevel_node (head : Head) (ns : List Indexed) :
    (node head ns).relevel levels = .node (head.relevel levels) (ns.map (relevel levels)) :=
  graft_node _ _ _

theorem relevel_front (values : List Indexed) (n : Indexed) :
    (n.inst (.front values)).relevel levels =
      (n.relevel levels).inst (.front (values.map (relevel levels))) := by
  rw [relevel, graft_inst (grafts_relevel levels), Values.graft_front]

/-- The values under a level substitution. -/
def Values.relevel (ρ : Values) : Values :=
  ρ.graft fun head ns => .node (head.relevel levels) ns

theorem relevel_inst (ρ : Values) (n : Indexed) :
    (n.inst ρ).relevel levels = (n.relevel levels).inst (ρ.relevel levels) :=
  graft_inst (grafts_relevel levels) ρ n

theorem Contracts.relevel {n n' : Indexed} (h : Contracts n n') :
    Contracts (n.relevel levels) (n'.relevel levels) := h.graft (grafts_relevel levels)

end Indexed

section Relevel

variable {sig : Signature} {V : Vista} {M : Mode} {scope : List Var} {item : Item}
variable {ns : List Indexed} {later levels : LevelSubst}

theorem Level.relevel (hlater : later.Nonneg) {earlier : LevelSubst}
    (hlevels : (earlier.compose later).Tidies levels) {l : Level}
    (hsize : l.size + earlier.size + later.size < Level.limit) :
    ((l.subst earlier).canonical.subst later).canonical = (l.subst levels).canonical := by
  have hcompose : (earlier.compose later).size ≤ earlier.size + later.size :=
    LevelSubst.size_compose (by omega)
  rw [canonical_subst,
    ← (subst_compose (fun _ _ => hlater.get?) (canSubstTwice_of_size hsize)).canonical,
    (hlevels.subst (by omega)).canonical]

/-- The sorts of a node under a level substitution. -/
theorem Reader.shape_relevel (sig : Signature) (room : Nat) (hlater : later.Nonneg)
    {earlier : LevelSubst} (hlevels : (earlier.compose later).Tidies levels) {n : Shape}
    (hfits : ∀ s ∈ n.sorts, s.size + earlier.size + later.size < Level.limit) :
    ((Reader.within sig room).shape earlier n).mapSorts (fun s => (s.subst later).canonical) =
      (Reader.any sig).shape levels n := by
  rw [shape, shape]
  refine Node.mapSorts_trans fun s hs => ?_
  have hsize := hfits s hs
  simp only [USort.size] at hsize
  exact congrArg₂ USort.mk (Level.relevel hlater hlevels (by omega))
    (Level.relevel hlater hlevels (by omega))

theorem LevelSubst.canonical_compose (levels later : LevelSubst) :
    (levels.canonical.compose later).canonical = (levels.compose later).canonical := by
  have hget : ∀ v, (levels.canonical.get? v).isNone = (levels.get? v).isNone := fun v => by
    rw [get?, canonical, Indexed.lookup_map, Option.isNone_map]
    rfl
  have hsubst : ∀ e ∈ levels.entries, (e.1, (e.2.canonical.subst later).canonical) =
      (e.1, (e.2.subst later).canonical) := fun e _ => by rw [Level.canonical_subst]
  unfold compose
  simp only [hget]
  simp only [canonical, List.map_append, List.map_map, Function.comp_def, Prod.map, id]
  rw [List.map_congr_left hsubst]

/-- What is read under a level substitution, and then put under another one, is read under
their composition. -/
theorem Means.relevel (hlater : later.Nonneg)
    (h : Means (.within sig later.size) V M scope item ns)
    (hlevels : (M.levels.compose later).Tidies levels) :
    Means (.any sig) V ⟨levels, M.closed⟩ scope item (ns.map (Indexed.relevel later)) := by
  induction h generalizing levels with
  | ref h =>
    cases h with
    | bound hx hclause => exact .ref (.bound hx hclause)
    | free hx hkind hage => exact .ref (.free hx hkind hage)
  | @node M scope stamp node parts hparts hnode hfits _ ih =>
    have hshape := Reader.shape_relevel sig later.size hlater hlevels hfits
    have hhead := (Reader.within sig later.size).not_isDeferred
      ((Node.hasParts_sorted_erase (Reader.within sig later.size).sig node).trans hparts) M.levels
    rw [List.map_singleton, Indexed.relevel_node, (grafts_relevel later).node _ _ hhead,
      Indexed.Head.mapSorts, hshape]
    exact .node hparts hnode (fun _ _ => trivial) (ih hlevels)
  | letIn _ ih =>
    rw [List.map_singleton, Indexed.relevel_node]
    exact .letIn (ih hlevels)
  | solved hsolution _ ih => exact .solved hsolution (ih hlevels)
  | @unsolved M scope bounds stamp v args hkind hsolution hu hwaits hdefers hargs =>
    have hhead : (Indexed.Head.deferred ((Reader.within sig later.size).marks stamp v)
        ((Reader.within sig later.size).tells M.levels)).relevel later =
          .deferred v levels.canonical := by
      rw [hlevels.canonical, ← M.levels.canonical_compose]
      rfl
    rw [List.map_singleton, Indexed.relevel_node, hhead]
    refine .unsolved hkind hsolution hu trivial trivial ?_
    rw [List.forall₂_map_right_iff]
    refine hargs.imp fun x n hn => ?_
    cases hn with
    | bound hx hclause => exact .bound hx hclause
    | free hx hkind hage => exact .free hx hkind hage
  | held hkind hsolution hu =>
    rw [List.map_singleton, Indexed.relevel_node]
    exact .held hkind hsolution hu trivial fun _ hx => by cases hx
  | delayed hmapping hkeys hnodup hkinds hdefers _ _ ih ih' =>
    rw [List.map_singleton, Indexed.relevel_front]
    refine .delayed hmapping hkeys hnodup hkinds trivial (ih hlevels) (ih' ?_)
    exact LevelSubst.compose_compose hlater hlevels hdefers
  | body _ ih => exact .body (ih hlevels)
  | clause hkind hc _ _ ih ih' =>
    rw [List.map_singleton, Indexed.relevel_node, List.map_append]
    exact .clause hkind hc (ih hlevels) (ih' hlevels)
  | done => exact .done
  | term _ _ ih ih' => exact .term (ih hlevels) (ih' hlevels)
  | under hkind _ _ ih ih' =>
    rw [List.map_append, Indexed.map_abs (f := Indexed.relevel later) fun _ => rfl]
    exact .under hkind (ih hlevels) (ih' hlevels)

end Relevel

/-! ## The composition law -/

theorem LevelSubst.empty_compose (levels : LevelSubst) : LevelSubst.empty.compose levels = levels :=
  congrArg mk (List.filter_eq_self.mpr fun _ _ => rfl)

variable {n : Indexed}

section Law

variable {sig : Signature} {s : Store} {earlier later : LevelSubst}

theorem Term.Means.relevel {t : Term} (hlater : later.Nonneg)
    (h : t.Means (.within sig later.size) s earlier n) :
    t.Means (.any sig) s (earlier.compose later) (n.relevel later) :=
  Recheck.Means.relevel hlater h (.refl _)

/-- A term that is under no level substitution yet. -/
theorem Term.Means.at_levels {t : Term} (hlater : later.Nonneg)
    (h : t.Means (.within sig later.size) s .empty n) :
    t.Means (.any sig) s later (n.relevel later) := by
  have hn := h.relevel hlater
  rwa [later.empty_compose] at hn

theorem Mapping.Means.relevel {m : Mapping Term} {values : Var → Indexed} (hlater : later.Nonneg)
    (h : m.Means (.within sig later.size) s .empty values) :
    m.Means (.any sig) s later fun x => (values x).relevel later where
  keys := h.keys
  nodup := h.nodup
  replaced x u hu := (h.replaced x u hu).at_levels hlater
  others x hx := by
    rw [h.others x hx]
    rfl

/-- Substituting twice, and substituting once by the composition, lead to contractions of the
same instance of the term. -/
theorem subst_composition (sig : Signature) (fuel₁ fuel₂ fuel₃ fuel₄ : Nat)
    (s s₁ s₂ s₃ s₄ : Store) (t t₁ twice once : Term) (m₁ m₂ m : Mapping Term)
    (levels₁ levels₂ : LevelSubst) (n : Indexed) (values₁ values₂ : Var → Indexed)
    (hs : s.Numbered) (hlevels : levels₂.Nonneg)
    (ht : t.Means (.within sig levels₂.size) s levels₁ n)
    (hm₁ : m₁.Means (.within sig levels₂.size) s .empty values₁)
    (hm₂ : m₂.Means (.any sig) s .empty values₂)
    (hfirst : t.subst sig fuel₁ (.of m₁ levels₁) s = .ok t₁ s₁)
    (hsecond : t₁.subst sig fuel₂ (.of m₂ levels₂) s₁ = .ok twice s₂)
    (hcompose : m₁.compose sig fuel₃ (.of m₂ levels₂) s₂ = .ok m s₃)
    (honce : t.subst sig fuel₄ (.of m (levels₁.compose levels₂)) s₃ = .ok once s₄) :
    ∃ n₁ n₂, twice.Means (.any sig) s₄ .empty n₁ ∧ once.Means (.any sig) s₄ .empty n₂ ∧
      Contracts (((n.inst (.ofFree values₁)).relevel levels₂).inst (.ofFree values₂)) n₁ ∧
      Contracts (((n.inst (.ofFree values₁)).relevel levels₂).inst (.ofFree values₂)) n₂ := by
  obtain ⟨hextends₁, k₁, hk₁, hcontracts₁⟩ :=
    means_subst fuel₁ hs hm₁ ht t₁ s₁ ⟨s, s₁, rfl, rfl, hfirst⟩
  have hs₁ := hextends₁.numbered hs
  obtain ⟨hextends₂, k₂, hk₂, hcontracts₂⟩ :=
    means_subst fuel₂ hs₁ (hm₂.extend hextends₁) (hk₁.at_levels hlevels) twice s₂
      ⟨s₁, s₂, rfl, rfl, hsecond⟩
  have hs₂ := hextends₂.numbered hs₁
  obtain ⟨hextends₃, values, hm, hvalues⟩ :=
    means_compose fuel₃ hs₂ (((hm₁.relevel hlevels).extend hextends₁).extend hextends₂)
      ((hm₂.extend hextends₁).extend hextends₂) m s₃ ⟨s₂, s₃, rfl, rfl, hcompose⟩
  have hs₃ := hextends₃.numbered hs₂
  have ht' := (((ht.relevel hlevels).extend hextends₁).extend hextends₂).extend hextends₃
  obtain ⟨hextends₄, k₄, hk₄, hcontracts₄⟩ :=
    means_subst fuel₄ hs₃ hm ht' once s₄ ⟨s₃, s₄, rfl, rfl, honce⟩
  refine ⟨k₂, k₄, (hk₂.extend hextends₃).extend hextends₄, hk₄, ?_, ?_⟩
  · exact ((hcontracts₁.relevel levels₂).inst _).trans hcontracts₂
  · rw [Indexed.relevel_inst, Indexed.inst_inst]
    refine Contracts.trans (Indexed.contracts_values ?_ hvalues _) hcontracts₄
    exact fun i => .refl _

end Law

/-! ## An unknown under two substitutions -/

namespace DelayedTwice

def x : Var := ⟨13, .param, "x"⟩

def y : Var := ⟨14, .param, "y"⟩

def v : Var := ⟨15, .unknown, "?v"⟩

/-- The term `?v x`. -/
def term : Term := .mk 16 (.app (.mk 17 (.unknown v)) (.mk 18 (.ref x)))

/-- A store in which a solution of the unknown may refer to `x` and `y`. -/
def store : Store :=
  { Store.start 21 with
    unknowns := Table.empty.insert 15 ⟨none, [x, y], true, default, false⟩ }

def toY : Mapping Term := .single (.local x) (.mk 19 (.ref y))

def toZero : Mapping Term := .single (.local y) (.mk 20 .zero)

/-- Raises the predicative level. -/
def raise : LevelSubst := ⟨[(.predicative, .var .predicative 1 1)]⟩

/-- Puts the lowest predicative level in. -/
def lowest : LevelSubst := ⟨[(.predicative, .closed 0)]⟩

def meaning : Indexed :=
  .node (.form (.app () ())) [.node (.deferred v raise) [.free x, .free y], .free x]

def zero : Indexed := .node (.form .zero) []

/-- One variable stands for a term. -/
def value (z : Var) (n : Indexed) (w : Var) : Indexed := if w = z then n else .free w

theorem means_single {R : Reader} {z : Var} {u : Term} (hz : z.kind ≠ .unknown)
    (hu : u.Means R store .empty n) : (Mapping.single (.local z) u).Means R store .empty (value z n)
    where
  keys e he := by
    obtain rfl := List.mem_singleton.mp he
    exact ⟨z, rfl, hz⟩
  nodup := List.pairwise_singleton _ _
  replaced w u' hget := by
    by_cases hw : w = z
    · subst hw
      rw [Mapping.single, Mapping.get?_insert_self] at hget
      rw [value, if_pos rfl]
      exact Option.some.inj hget ▸ hu
    · rw [Mapping.single, Mapping.get?_insert_of_ne _ _ (by simpa using hw)] at hget
      cases hget
  others w hnone := by
    refine if_neg ?_
    rintro rfl
    rw [Mapping.single, Mapping.get?_insert_self] at hnone
    cases hnone

theorem locates (z : Var) (closed : Bool) (hkind : z.kind ≠ .clause) (hage : z.serial < 21) :
    (store.vista [] 21 []).Locates closed [] z (.free z) :=
  .free (by simp [Store.vista]) hkind hage

theorem term_means :
    term.Means (.within Prelude.signature lowest.size) store raise meaning := by
  have hsize : raise.size + LevelSubst.empty.size + lowest.size < Level.limit := by decide
  refine .node rfl trivial (fun _ hs => by cases hs) (.term ?_ (.term ?_ .done))
  · refine .unsolved rfl rfl rfl trivial hsize (.cons ?_ (.cons ?_ .nil))
    · exact locates x true (by decide) (by decide)
    · exact locates y true (by decide) (by decide)
  · exact .ref (locates x false (by decide) (by decide))

/-- The unknown ends up with both substitutions delayed, whichever way it is reached. -/
theorem delayed_composition : ∃ t₁ s₁ twice s₂ m s₃ once s₄,
    term.subst Prelude.signature 10 (.of toY raise) store = .ok t₁ s₁ ∧
    t₁.subst Prelude.signature 10 (.of toZero lowest) s₁ = .ok twice s₂ ∧
    toY.compose Prelude.signature 10 (.of toZero lowest) s₂ = .ok m s₃ ∧
    term.subst Prelude.signature 10 (.of m (raise.compose lowest)) s₃ = .ok once s₄ ∧
    ∃ n₁ n₂, twice.Means (.any Prelude.signature) s₄ .empty n₁ ∧
      once.Means (.any Prelude.signature) s₄ .empty n₂ ∧
      Contracts (((meaning.inst (.ofFree (value x (.free y)))).relevel lowest).inst
        (.ofFree (value y zero))) n₁ ∧
      Contracts (((meaning.inst (.ofFree (value x (.free y)))).relevel lowest).inst
        (.ofFree (value y zero))) n₂ := by
  have hs : store.Numbered := fun n c hc => by cases hc
  have hlowest : lowest.Nonneg := by simp [LevelSubst.Nonneg, lowest, Level.extent, Extent.Nonneg]
  have hy : (Term.mk 19 (.ref y)).Means (.within Prelude.signature lowest.size) store .empty
      (.free y) := .ref (locates y false (by decide) (by decide))
  have hzero : (Term.mk 20 .zero).Means (.any Prelude.signature) store .empty zero :=
    .node rfl trivial (fun _ _ => trivial) .done
  exact ⟨_, _, _, _, _, _, _, _, rfl, rfl, rfl, rfl,
    subst_composition Prelude.signature 10 10 10 10 store _ _ _ _ term _ _ _ toY toZero _ raise
      lowest meaning _ _ hs hlowest term_means (means_single (by decide) hy)
      (means_single (by decide) hzero) rfl rfl rfl rfl⟩

end DelayedTwice

/-! ## Where the two ways part -/

namespace CompositionLimits

/-- The texts of a term after two substitutions and after their composition. -/
def texts (t : Term) (σ₁ σ₂ : Substitution) (s : Store) : Option (String × String) :=
  let both : Core (String × String) := do
    let t₁ ← t.subst Prelude.signature 20 σ₁
    let twice ← t₁.subst Prelude.signature 20 σ₂
    let m ← σ₁.exprs.compose Prelude.signature 20 σ₂
    let once ← t.subst Prelude.signature 20 (.of m (σ₁.levels.compose σ₂.levels))
    return (← twice.print Prelude.signature 20, ← once.print Prelude.signature 20)
  both.run' s

def x : Var := ⟨13, .param, "x"⟩

def y : Var := ⟨14, .param, "y"⟩

def c : Var := ⟨15, .clause, "c"⟩

def zero : Term := .mk 16 .zero

/-- Replaces `y` by `suc y`. -/
def raise : Substitution :=
  .single y (.mk 18 (.suc (.mk 19 (.ref y))))

/-- A store in which `c` is defined by `y`, and the entry of a shared mapping replaces `x` by
`zero`. -/
def store : Store :=
  { Store.start 40 with
    clauses := Table.empty.insert 15 ⟨.mk 20 (.ref y), none⟩
    mappings := Table.empty.insert 0 ⟨.single (.local x) zero, []⟩ }

/-- Numbers of levels overflow on one way and not on the other. A let clause that is free in a
value is rewritten by each substitution that meets it. A copy of a value loses implementations
that are not of the record. A mapping that is shared with a delayed substitution in the term is
extended under the binders of the term. -/
theorem composition_parts :
    texts (.mk 21 (.univ ⟨.var ⟨"v"⟩ 4611686018427387904 0, .closed 0⟩))
        (.of .empty ⟨[(⟨"v"⟩, .var ⟨"w"⟩ 0 4611686018427387904)]⟩) (.of .empty ⟨[(⟨"w"⟩, .closed 0)]⟩) store =
      some ("\\Set4611686018427387904", "\\Set-9223372036854775808") ∧
    texts (.mk 21 (.letIn false [c] (.mk 22 (.ref x)))) (.single x (.mk 23 (.ref c))) raise store =
      some ("\\let c => suc y \\in c", "\\let c => suc (suc (suc y)) \\in c") ∧
    texts (.mk 21 (.field ⟨22, "q"⟩ .set0 (.mk 23 (.ref x))))
        (.single x (.mk 24 (.new none ⟨25, ⟨⟨26, "R"⟩, .set0, [(⟨22, "q"⟩, zero)], .set0, .none,
          ⟨27, .given, "this"⟩⟩⟩))) raise store = some ("zero", "(\\new R).q") ∧
    texts (.mk 21 (.lam .set0 [⟨x, some (.mk 17 .nat), true⟩]
          (.mk 22 (.delayed (.mk 23 (.ref x)) (.shared 0) .empty))))
        ⟨.single (.local x) zero, .empty, some 0⟩ raise store =
      some ("\\lam (x : Nat) => x", "\\lam (x : Nat) => zero") := by
  decide +kernel

end CompositionLimits

end Recheck
