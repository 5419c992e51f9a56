import Recheck.Proofs.Copies
import Recheck.Proofs.Deferral.Meaning

/-!
# Recheck — phases of a traversal

What a traversal does to the meaning of a term, as far as it copies: the parts of a copy
mean what the parts of the original mean, instantiated and contracted (`Plan.Runs.copied`).

* `Phase` is what a traversal relies on: the scope of the term, the scope of the copy, and a
  substitution that takes one to the other. It also knows under which level substitution
  the term is read, which is the one of the traversal. The copy is under none.
* `Fades` is contraction that loses what was kept for solutions, where the bounds of an
  unknown have been narrowed.
* `Extends` is what a traversal does to the store.
* `Traversal.Follows` is what is asked of the recursive call.
-/

namespace Recheck

open Indexed (Values Contracts)

/-- The vista from a scope into the store. -/
def Store.vista (s : Store) (hidden : List Var) (age : Nat) (scope : List Var) : Vista :=
  ⟨s.visible hidden, s.known, age, scope⟩

/-! ## What is kept for solutions -/

/-- A variable that is kept for the solution of the occurrence is no bound of its unknown any
more. -/
def Reader.Lost (R : Reader) (s : Store) (mark : Var) : Prop :=
  ∃ stamp v x u, mark = R.marks stamp v ∧ x ∈ R.reserves stamp ∧
    s.unknowns.get? v.serial = some u ∧ x ∉ u.bounds

namespace Indexed

open Classical in
/-- The node without what is kept for a solution, if it is lost. -/
noncomputable def keeping (lost : Var → Prop) : Head → List Indexed → Indexed
  | .form (.unknown v), ns => .node (.form (.unknown v)) (if lost v then [] else ns)
  | head, ns => .node head ns

/-- The term without what is lost. -/
noncomputable def without (lost : Var → Prop) : Indexed → Indexed := graft (keeping lost)

theorem keeping_of_not_isDeferred {lost : Var → Prop} {head : Head} (h : head.isDeferred = false)
    (ns : List Indexed) : keeping lost head ns = .node head ns := by
  unfold keeping
  split
  · cases h
  · rfl

theorem grafts_keeping (lost : Var → Prop) : Grafts id (keeping lost) where
  node head ns hhead := by rw [keeping_of_not_isDeferred hhead, head.mapSorts_id]
  inst head ns ρ := by
    unfold keeping
    split
    · split
      · rfl
      · rw [inst_node]
    · rw [inst_node]
  part head before n n' after h := by
    unfold keeping
    split
    · split
      · exact .refl _
      · exact .part h
    · exact .part h

theorem without_node (lost : Var → Prop) (head : Head) (ns : List Indexed) :
    (node head ns).without lost = keeping lost head (ns.map (without lost)) := graft_node _ _ _

theorem without_inst (lost : Var → Prop) (ρ : Values) (n : Indexed) :
    (n.inst ρ).without lost = (n.without lost).inst (ρ.graft (keeping lost)) :=
  graft_inst (grafts_keeping lost) ρ n

/-- If nothing is lost, the term stays. -/
theorem without_nothing {lost : Var → Prop} (h : ∀ v, ¬ lost v) (n : Indexed) :
    n.without lost = n := by
  induction n using parts_induction with
  | bound i => rfl
  | free x => rfl
  | abs n ih => exact congrArg Indexed.abs ih
  | node head ns ih =>
    rw [without_node, List.map_congr_left ih, List.map_id']
    unfold keeping
    split
    · rw [if_neg (h _)]
    · rfl

end Indexed

/-- The first term contracts to the second one, but for what is lost in the store. -/
def Fades (R : Reader) (s : Store) (n m : Indexed) : Prop :=
  ∀ lost : Var → Prop, (∀ v, R.Lost s v → lost v) → Contracts (n.without lost) (m.without lost)

section Fades

variable {R : Reader} {s s' : Store} {n m k : Indexed} {ns ms : List Indexed}

theorem Fades.of_contracts (h : Contracts n m) : Fades R s n m :=
  fun lost _ => h.graft (Indexed.grafts_keeping lost)

theorem Fades.refl (n : Indexed) : Fades R s n n := .of_contracts (.refl n)

theorem Fades.trans (h : Fades R s n m) (h' : Fades R s m k) : Fades R s n k :=
  fun lost hlost => (h lost hlost).trans (h' lost hlost)

theorem Fades.mono (h : Fades R s n m) (hs : ∀ v, R.Lost s v → R.Lost s' v) : Fades R s' n m :=
  fun lost hlost => h lost fun v hv => hlost v (hs v hv)

theorem Fades.abs (h : Fades R s n m) : Fades R s (.abs n) (.abs m) :=
  fun lost hlost => .abs (h lost hlost)

section

variable (h : List.Forall₂ (Fades R s) ns ms)

include h

theorem Fades.all {lost : Var → Prop} (hlost : ∀ v, R.Lost s v → lost v) :
    List.Forall₂ Contracts (ns.map (Indexed.without lost)) (ms.map (Indexed.without lost)) := by
  rw [List.forall₂_map_left_iff, List.forall₂_map_right_iff]
  exact h.imp fun _ _ hn => hn lost hlost

theorem Fades.parts {head : Indexed.Head} : Fades R s (.node head ns) (.node head ms) := by
  intro lost hlost
  have hall := Fades.all h hlost
  rw [Indexed.without_node, Indexed.without_node]
  unfold Indexed.keeping
  split
  · split
    · exact .refl _
    · exact .parts hall
  · exact .parts hall

theorem Fades.push (ρ : Values) (n : Indexed) :
    Fades R s (n.inst (.push ns ρ)) (n.inst (.push ms ρ)) := by
  intro lost hlost
  rw [Indexed.without_inst, Indexed.without_inst, Values.graft_push, Values.graft_push]
  exact Indexed.contracts_push (Fades.all h hlost) _ _

end

/-- Nothing is kept for solutions. -/
class Reader.Plain (R : Reader) : Prop where
  reserves : ∀ stamp, R.reserves stamp = []

/-- If nothing is kept, nothing can be lost. -/
theorem Fades.contracts [R.Plain] (h : Fades R s n m) : Contracts n m := by
  have hlost : ∀ v, R.Lost s v → False := by
    rintro _ ⟨stamp, v, x, u, rfl, hx, -, -⟩
    rw [Reader.Plain.reserves] at hx
    cases hx
  have hcontracts := h _ hlost
  rwa [Indexed.without_nothing fun _ h => h, Indexed.without_nothing fun _ h => h] at hcontracts

end Fades

/-! ## The store -/

/-- Terms are read with what waits in them, and definitions fade at most. -/
def Reader.reading (R : Reader) : Reading where
  reads s hidden k ys t n := Means R (s.vista hidden k ys) .start [] (.term t) [n]
  Same s s' := s'.known = s.known ∧ ∀ v, R.Lost s v → R.Lost s' v
  Becomes := Fades R
  shift := Indexed.rename Nat.succ
  mono hvisible hsame h := h.mono ⟨hvisible, hsame.1, Nat.le_refl _, rfl⟩
  weaken hy hage h := h.weaken hy hage
  bound hx := .ref (.bound hx (by simp [Mode.start]))
  free hx hkind hage := .ref (.free hx hkind hage)
  same hunknowns hsolutions hmappings := by
    refine ⟨by rw [Store.known, hunknowns, hsolutions, hmappings, Store.known], fun v hv => ?_⟩
    unfold Lost at hv ⊢
    rwa [hunknowns]
  same_trans h h' := ⟨h'.1.trans h.1, fun v hv => h'.2 v (h.2 v hv)⟩
  becomes_refl _ m := .refl m
  becomes_trans := .trans
  becomes_later hsame h := h.mono hsame.2

/-- What a traversal does to the store: the definitions of let clauses fade at most. -/
abbrev Extends (R : Reader) : List Var → Nat → List Var → Store → Store → Prop :=
  Redefines R.reading

variable {σ : Substitution}

section Stores

variable {R : Reader} {hidden ys : List Var} {k : Nat} {s s' : Store}

theorem Quiet.same (h : Quiet σ s s') (hσ : σ.shared = none) :
    R.reading.Same s s' := R.reading.same h.unknowns h.solutions (h.mappings hσ)

theorem Quiet.extends (h : Quiet σ s s') (hσ : σ.shared = none) :
    Extends R hidden k ys s s' := h.redefines (h.same hσ)

section

variable (h : Extends R hidden k ys s s')

include h

theorem Redefines.known : s'.known = s.known := h.same.1

theorem Redefines.lost : ∀ v, R.Lost s v → R.Lost s' v := h.same.2

theorem Redefines.vista_le (hsub : ∀ y ∈ ys, y ∈ hidden) (a : Nat)
    (scope : List Var) : (s.vista hidden a scope).Le (s'.vista hidden a scope) :=
  ⟨h.visible hsub, h.known, le_rfl, rfl⟩

end

theorem Store.vista_unhide (s : Store) (y : Var) (hidden : List Var) (k : Nat)
    (scope : List Var) : (s.vista (y :: hidden) k scope).Le (s.vista hidden k scope) :=
  ⟨fun _ _ => Store.visible_unhide _ _, rfl, le_rfl, rfl⟩

theorem NewVar.vista_le {y : Var} (h : NewVar s s' y) (hknown : s'.known = s.known)
    (hs : s.Numbered) (hidden : List Var) (k : Nat) (scope : List Var) :
    (s.vista hidden k scope).Le (s'.vista (y :: hidden) k scope) :=
  ⟨h.visible hs, hknown, le_rfl, rfl⟩

end Stores

/-! ## Phases -/

/-- The substitution replaces variables that are not unknowns, each of them once. -/
structure Substitution.Local (σ : Substitution) : Prop where
  keys : ∀ e ∈ σ.exprs.entries, ∃ x : Var, e.1 = .local x ∧ x.kind ≠ .unknown
  nodup : (σ.exprs.entries.map Prod.fst).Nodup

/-- The phase of a traversal that acts on meanings as the values do. The vista `V` knows what the
store knows, and the mode `M` has the levels of the substitution. -/
structure Phase (R : Reader) (s : Store) (σ : Substitution) (ρ : Values) (V : Vista) (M : Mode)
    (inner hidden : List Var) (k : Nat) (ys : List Var) : Prop extends
    Staging R.reading s σ ρ.bound ρ.free ⟨V.clauses, V.age, V.outer⟩ M.closed inner hidden k ys where
  ages : V.age ≤ k
  known : V.known = s.known
  shared : σ.shared = none
  active : σ.isIdentity = false
  locals : σ.Local
  levels : M.levels = σ.levels

section Phases

variable {R : Reader} {s s' : Store} {σ : Substitution} {ρ : Values} {V : Vista} {M : Mode}
variable {inner hidden ys : List Var} {k : Nat}

theorem Substitution.Local.get?_eq_none (h : σ.Local) {v : Variable}
    (hv : ∀ x : Var, v = .local x → x.kind = .unknown) : σ.exprs.get? v = none := by
  cases hget : σ.exprs.get? v with
  | none => rfl
  | some u =>
    obtain ⟨before, after, hentries, -⟩ := List.lookup_eq_some_iff.mp hget
    obtain ⟨x, hx, hkind⟩ := h.keys (v, u) (hentries ▸ by simp)
    exact absurd (hv x hx) hkind

/-- A variable that is mapped has one entry. -/
theorem Mapping.nodup_place {v : Variable} {t : Term} {es : List (Variable × Term)}
    (h : (es.map Prod.fst).Nodup) : ((place v t es).map Prod.fst).Nodup := by
  induction es with
  | nil => exact List.nodup_singleton v
  | cons e es ih =>
    obtain ⟨he, hes⟩ := List.nodup_cons.mp h
    by_cases hv : e.1 = v
    · rw [place, if_pos hv]
      exact hv ▸ h
    rw [place, if_neg hv]
    refine List.nodup_cons.mpr ⟨fun hmem => ?_, ih hes⟩
    obtain ⟨e', he', heq⟩ := List.mem_map.mp hmem
    rcases mem_place he' with rfl | he'
    · exact hv heq.symm
    · exact he (List.mem_map.mpr ⟨e', he', heq⟩)

theorem Substitution.Local.bind (h : σ.Local) {x : Var} (hx : x.kind ≠ .unknown) (t : Term) :
    (σ.bind x t).Local where
  keys e he := by
    rcases Mapping.mem_place he with rfl | he
    · exact ⟨x, rfl, hx⟩
    · exact h.keys e he
  nodup := Mapping.nodup_place h.nodup

section

variable {x y : Var} {xs : List Var} (h : Phase R s σ ρ V M inner hidden k ys)

include h

theorem Phase.grow (hs : Extends R hidden k ys s s') : Phase R s' σ ρ V M inner hidden k ys :=
  ⟨h.toStaging.grow hs, h.ages, h.known.trans hs.known.symm, h.shared, h.active, h.locals, h.levels⟩

theorem Phase.bind {ref : Term} (hx : x.kind ≠ .unknown) (hy : NewVar s s' y)
    (hsame : R.reading.Same s s') (hs' : s'.Numbered) (href : ref.node = .ref y)
    (hdef : y.kind = .clause → ∃ c m, s'.clauses.get? y.serial = some c ∧
      Means R (s.vista hidden k ys) .start [] (.term c.expr) [m]) :
    Phase R s' (σ.bind x ref) ρ.lift V M (x :: inner) (y :: hidden) k (y :: ys) where
  toStaging := h.toStaging.bind hy hsame hs' href hdef rfl (fun _ => rfl) fun _ => rfl
  ages := h.ages
  known := h.known.trans hsame.1.symm
  shared := h.shared
  active := by rw [Substitution.isIdentity, Substitution.bind, Mapping.isEmpty_insert, Bool.false_and]
  locals := h.locals.bind hx _
  levels := h.levels

theorem Phase.definition (hx : (x :: xs) <:+ ys) (hlevels : σ.levels = .empty)
    (hkeys : ∀ z u, σ.exprs.get? (.local z) = some u → x.serial < z.serial) :
    Phase R s σ .id (s.vista hidden k xs) .start [] hidden k xs :=
  ⟨h.toStaging.definition hx hlevels hkeys, le_rfl, rfl, h.shared, h.active, h.locals,
    hlevels.symm⟩

theorem Phase.contract {arg : Term} {a : Indexed} (hx : x.kind ≠ .unknown)
    (ha : Means R (s.vista hidden k ys) .start [] (.term arg) [a]) :
    Phase R s (.single x arg) (.single a) (s.vista hidden k ys) .start [x] hidden k ys := by
  have hlocal : (Substitution.single x arg).Local := by
    refine ⟨fun e he => ?_, by simp [Substitution.single, Substitution.ofMapping, Substitution.of,
      Mapping.single, Mapping.insert, Mapping.place, Mapping.empty]⟩
    obtain rfl := List.mem_singleton.mp he
    exact ⟨x, rfl, hx⟩
  exact ⟨h.toStaging.contract ha rfl fun _ => rfl, le_rfl, rfl, rfl, rfl, hlocal, rfl⟩

end

end Phases

/-! ## Copies -/

/-- The recursive call of a traversal acts on meanings by instances and contractions. -/
def Traversal.Follows (R : Reader) (self : Substitution → Term → Traversal Term) : Prop :=
  ∀ {s σ ρ V M inner hidden k ys t n}, Phase R s σ ρ V M inner hidden k ys →
    Means R V M inner (.term t) [n] → Yields (self σ t) s fun t' s' =>
      Extends R hidden k ys s s' ∧ ∃ n',
        Means R (s'.vista hidden k ys) .start [] (.term t') [n'] ∧ Fades R s' (n.inst ρ) n'

/-- The parts of a copy mean what the parts of the original mean, instantiated and
contracted. -/
theorem Plan.Runs.copied {R : Reader} {self} (hself : Traversal.Follows R self) {s s' : Store}
    {ρ : Values} {V : Vista} {M : Mode} {inner hidden ys : List Var} {k : Nat} {p p' : Plan}
    {parts : List Indexed} (hruns : Plan.Runs self σ s p p' s')
    (hphase : Phase R s σ ρ V M inner hidden k ys) (hp : Means R V M inner (.plan p) parts) :
    Extends R hidden k ys s s' ∧ ∃ parts',
      Means R (s'.vista hidden k ys) .start [] (.plan p') parts' ∧
      List.Forall₂ (Fades R s') (parts.map (Indexed.inst ρ)) parts' := by
  induction hruns generalizing ρ inner hidden ys parts with
  | done =>
    obtain rfl := means_done_iff.mp hp
    exact ⟨.refl, [], .done, .nil⟩
  | quiet hquiet _ ih =>
    have hextends : Extends R hidden k ys _ _ := hquiet.extends hphase.shared
    obtain ⟨hextends', hcopied⟩ := ih (hphase.grow hextends) hp
    exact ⟨hextends.trans hextends', hcopied⟩
  | term ht _ ih =>
    cases hp with
    | term hn hrest =>
      obtain ⟨hextends, n', hn', hcontracts⟩ := hself hphase hn _ _ ht
      obtain ⟨hextends', parts', hparts', hall⟩ := ih (hphase.grow hextends) hrest
      refine ⟨hextends.trans hextends', n' :: parts', .term ?_ hparts',
        .cons (hcontracts.mono hextends'.lost) hall⟩
      exact hn'.mono (hextends'.vista_le hphase.hides k ys)
  | @under σ s s₁ s₂ s₃ x y ref inner₀ inner₁ rest rest' hquiet hold hnew hkind href _ _ ih ih' =>
    cases hp with
    | @under _ _ _ _ _ ms ns hx hinner hrest =>
      have hy : NewVar s s₁ y := ⟨hold, hnew, fun i _ => by rw [hquiet.clauses]⟩
      have hticks : Extends R hidden k ys s s₁ := hquiet.extends hphase.shared
      have hs₁ := hticks.numbered hphase.numbered
      have hphase₁ := hphase.bind (x := x) hx hy hticks.same hs₁ href
        fun hclause => by rw [hclause] at hkind; simp at hkind
      obtain ⟨hextends₁, ms', hms', hall⟩ := ih hphase₁ hinner
      have hextends := hextends₁.close hy hticks.same hphase.numbered hs₁
      obtain ⟨hextends', ns', hns', hall'⟩ := ih' (hphase.grow hextends) hrest
      refine ⟨hextends.trans hextends', ms'.map .abs ++ ns', .under ?_ ?_ hns', ?_⟩
      · rcases hkind with hkind | hkind <;> rw [hkind] <;> decide
      · have hclosed := (hms'.mono (s₂.vista_unhide y hidden k (y :: ys))).shrink rfl
          (hphase.older hy)
        exact hclosed.mono (hextends'.vista_le hphase.hides k ys)
      · rw [List.map_append]
        refine List.rel_append ?_ hall'
        rw [List.map_map, List.forall₂_map_left_iff, List.forall₂_map_right_iff]
        rw [List.forall₂_map_left_iff] at hall
        exact hall.imp fun _ _ h => (h.mono hextends'.lost).abs

end Recheck
