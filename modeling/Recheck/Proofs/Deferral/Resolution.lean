import Recheck.Proofs.Deferral.Composition
import Recheck.Proofs.Evaluation.Joining

/-!
# Recheck — resolution of unknowns

What becomes of the meaning of a term when unknowns in it are solved. An unsolved unknown is
a node that holds what stands for the variables its solution may refer to. Once the unknown
is solved, the node is replaced by the meaning of the solution, with its parts put in: on
meanings, solving is a graft (`Means.resolve`). A solution that is read on its own can be read
at any place where what it refers to is in scope (`Means.placed`).

A graft commutes with instances, and contraction is confluent. So it does not matter whether a
substitution is carried out before an unknown is solved, where it is delayed, or after it, as long
as both come to an end (`subst_resolution`). It matters for a substitution that replaces the
unknown (`ResolutionLimits.replacement_loses_delayed`).
-/

namespace Recheck

open Indexed (Values Contracts Joins Grafts)

/-! ## Solutions on meanings -/

variable {ns : List Indexed}

namespace Indexed

variable {n : Indexed} {head : Head} {stamp : Nat} {levels : LevelSubst}

/-- A term that stands for nothing. -/
def nothing : Indexed := .node (.clause false) []

/-- Values for bound variables, and for nothing else. -/
def Values.only (ns : List Indexed) : Values := ⟨fun i => ns.getD i nothing, fun _ => nothing⟩

theorem Values.only_bound {i : Nat} (h : ns[i]? = some n) : (Values.only ns).bound i = n := by
  simp [only, List.getD_eq_getElem?_getD, h]

theorem Values.only_andThen (ns : List Indexed) (ρ : Values) :
    (Values.only ns).andThen ρ = .only (ns.map (inst ρ)) := by
  have hbound : ((Values.only ns).andThen ρ).bound = (Values.only (ns.map (inst ρ))).bound := by
    funext i
    simp only [andThen, only, List.getD_eq_getElem?_getD, List.getElem?_map]
    cases ns[i]? with
    | none => exact inst_node ρ _ _
    | some n => rfl
  exact congrArg₂ Values.mk hbound (funext fun _ => inst_node ρ _ _)

/-- The occurrence of an unknown that the node stands for, and the level substitution that it
is under. -/
def Head.occurrence? : Head → Option (Nat × LevelSubst)
  | .form (.delayed _ (.own ⟨[(.local v, _)]⟩) levels) => some (v.serial, levels)
  | .form (.unknown v) => some (v.serial, .empty)
  | _ => none

/-- Solutions for occurrences of unknowns, by the level substitution they are under. -/
abbrev Solutions := Nat → Option (LevelSubst → Indexed)

/-- The solution for a node. -/
def Solutions.get? (w : Solutions) (head : Head) : Option Indexed :=
  head.occurrence?.bind fun o => (w o.1).map fun solution => solution o.2

/-- The node, or its solution with the parts put in. -/
def Solutions.fill (w : Solutions) (head : Head) (ns : List Indexed) : Indexed :=
  (w.get? head).elim (.node head ns) fun n => n.inst (.only ns)

/-- The term with unknowns solved. -/
def resolve (w : Solutions) : Indexed → Indexed := graft w.fill

variable (w : Solutions)

theorem Solutions.get?_of_not_isDeferred (h : head.isDeferred = false) : w.get? head = none := by
  unfold get? Head.occurrence?
  split
  · cases h
  · cases h
  · rfl

theorem Solutions.fill_of_none {w : Solutions} (h : head.occurrence? = some (stamp, levels))
    (hw : w stamp = none) (ns : List Indexed) : w.fill head ns = .node head ns := by
  rw [fill, get?, h, Option.bind_some, hw]
  rfl

theorem Solutions.fill_of_some {w : Solutions} {solution : LevelSubst → Indexed}
    (h : head.occurrence? = some (stamp, levels)) (hw : w stamp = some solution)
    (ns : List Indexed) : w.fill head ns = (solution levels).inst (.only ns) := by
  rw [fill, get?, h, Option.bind_some, hw]
  rfl

theorem grafts_fill : Grafts id w.fill where
  node head ns hhead := by
    rw [Solutions.fill, w.get?_of_not_isDeferred hhead, head.mapSorts_id]
    rfl
  inst head ns ρ := by
    unfold Solutions.fill
    cases w.get? head with
    | none => exact inst_node ρ head ns
    | some n =>
      rw [Option.elim_some, Option.elim_some, inst_inst, Values.only_andThen]
  part head before n n' after h := by
    unfold Solutions.fill
    cases w.get? head with
    | none => exact .part h
    | some m =>
      have hbound : ∀ i, Contracts ((Values.only (before ++ n :: after)).bound i)
          ((Values.only (before ++ n' :: after)).bound i) := by
        intro i
        simp only [Values.only, List.getD_eq_getElem?_getD, List.getElem?_append,
          List.getElem?_cons]
        split
        · exact .refl _
        · split
          · exact h
          · exact .refl _
      exact contracts_values hbound (fun _ => .refl _) m

theorem resolve_node (head : Head) (ns : List Indexed) :
    (node head ns).resolve w = w.fill head (ns.map (resolve w)) := graft_node _ _ _

theorem resolve_plain (h : head.isDeferred = false) (ns : List Indexed) :
    (node head ns).resolve w = .node head (ns.map (resolve w)) := by
  rw [resolve_node, (grafts_fill w).node _ _ h, head.mapSorts_id]

theorem resolve_front (ns : List Indexed) (n : Indexed) :
    (n.inst (.front ns)).resolve w = (n.resolve w).inst (.front (ns.map (resolve w))) := by
  rw [resolve, graft_inst (grafts_fill w), Values.graft_front]

theorem Contracts.resolve {n' : Indexed} (h : Contracts n n') :
    Contracts (n.resolve w) (n'.resolve w) := h.graft (grafts_fill w)

theorem resolve_ofFree (values : Var → Indexed) (n : Indexed) :
    (n.inst (.ofFree values)).resolve w =
      (n.resolve w).inst (.ofFree fun x => (values x).resolve w) := graft_inst (grafts_fill w) _ n

/-- If there are no solutions, the term stays. -/
theorem resolve_none (n : Indexed) : n.resolve (fun _ => none) = n := by
  induction n using parts_induction with
  | bound i => rfl
  | free x => rfl
  | abs n ih => exact congrArg Indexed.abs ih
  | node head ns ih =>
    have hnone : Solutions.get? (fun _ => none) head = none := by
      unfold Solutions.get?
      cases head.occurrence? <;> rfl
    rw [resolve_node, List.map_congr_left ih, List.map_id', Solutions.fill, hnone]
    rfl

end Indexed

/-! ## Solutions at a place -/

section Placed

variable {R : Reader} {V : Vista} {bounds scope : List Var} {args : List Indexed}
variable {closed : Bool}

/-- A variable that is bound around the solution, or in it, at a place where what stands for
its bounds is in scope. -/
theorem Vista.Locates.placed {inner : List Var} {closed' : Bool} {x : Var} {n : Indexed}
    (h : { V with age := 0, outer := [] }.Locates closed (inner ++ bounds) x n)
    (hargs : List.Forall₂ (V.Locates true scope) bounds args) :
    V.Locates closed' (inner ++ scope) x (n.inst ((Values.only args).under inner.length)) := by
  cases h with
  | free _ _ hage => exact absurd hage (Nat.not_lt_zero _)
  | bound hx _ =>
    rw [List.append_nil] at hx
    rcases idxOf?_append hx with hi | ⟨hnot, j, rfl, hj⟩
    · obtain ⟨hlt, heq, -⟩ := List.findIdx?_eq_some_iff_getElem.mp hi
      have hmem : x ∈ inner := beq_iff_eq.mp heq ▸ List.getElem_mem hlt
      rw [Indexed.inst, Values.under_bound_of_lt hlt]
      refine .bound ?_ fun _ hout => absurd (List.mem_append_left _ hmem) hout
      rw [List.append_assoc, idxOf?_append_of_mem hi]
    · obtain ⟨hlt, heq, -⟩ := List.findIdx?_eq_some_iff_getElem.mp hj
      obtain rfl : bounds[j] = x := beq_iff_eq.mp heq
      have hlt' : j < args.length := hargs.length_eq ▸ hlt
      rw [Indexed.inst, Values.under_bound_add, Values.only_bound (List.getElem?_eq_getElem hlt')]
      exact ((List.forall₂_iff_get.mp hargs).2 j hlt hlt').behind hnot

/-- What refers to nothing but the bounds can be read where the bounds are in scope. -/
theorem Means.placed {M : Mode} {item : Item}
    (h : Means R { V with age := 0, outer := [] } M bounds item ns)
    (hargs : List.Forall₂ (V.Locates true scope) bounds args) :
    Means R V ⟨M.levels, closed⟩ scope item (ns.map (Indexed.inst (.only args))) := by
  have hcarries : Vista.Carries { V with age := 0, outer := [] } V True bounds scope
      (.only args) :=
    ⟨fun _ _ hc => hc, rfl, Nat.zero_le _, fun _ _ _ _ _ _ hn => hn.placed hargs⟩
  rw [← Values.under_zero (.only args)]
  exact h.carry hcarries [] (.inl trivial)

end Placed

/-! ## Resolution -/

/-- What may wait, and what is kept for it. -/
structure Waiting where
  waits : LevelSubst → Nat → Var → Prop
  reserves : Nat → List Var
  settles : ∀ levels stamp v, waits levels stamp v → waits .empty stamp v

/-- Reads sorts as they are, and tells the occurrences of unknowns apart. -/
def Reader.exact (sig : Signature) (W : Waiting) : Reader where
  sig := sig
  fits _ _ := True
  defers _ _ := True
  waits := W.waits
  shows := id
  marks stamp v := { v with serial := stamp }
  tells := id
  reserves := W.reserves
  copies _ _ _ := trivial
  settles := W.settles

/-- The second vista comes after the first one: more may be solved. -/
structure Vista.Later (V V' : Vista) : Prop where
  clauses : ∀ i c, V.clauses i = some c → V'.clauses i = some c
  unknowns : ∀ i delays, V.known.unknowns i = some delays → V'.known.unknowns i = some delays
  solutions : ∀ i u, V.known.solutions.get? i = some u → V'.known.solutions.get? i = some u
  mappings : ∀ i m, V.known.mapping? (.shared i) = some m → V'.known.mapping? (.shared i) = some m
  age : V.age ≤ V'.age
  outer : V'.outer = V.outer

/-- What has been solved on the way from the first vista to the second one. The solutions refer
to the bounds of their unknowns, or to what is kept for them. -/
structure Solves (sig : Signature) (W W' : Waiting) (V V' : Vista) (w : Indexed.Solutions) :
    Prop where
  others : ∀ levels stamp v, w stamp = none → W.waits levels stamp v →
    V.known.solutions.get? stamp = none → V'.known.solutions.get? stamp = none ∧
      W'.waits levels stamp v ∧ W'.reserves stamp = W.reserves stamp
  delaying : ∀ levels stamp v bounds solution, w stamp = some solution → W.waits levels stamp v →
    V.known.unknowns v.serial = some (some bounds) → ∃ u, V'.known.solutions.get? stamp = some u ∧
      Means (.exact sig W') { V' with age := 0, outer := [] } ⟨levels, true⟩ bounds (.term u)
        [solution levels]
  holding : ∀ levels stamp v solution, w stamp = some solution → W.waits levels stamp v →
    V.known.unknowns v.serial = some none → ∃ u, V'.known.solutions.get? stamp = some u ∧
      Means (.exact sig W') { V' with age := 0, outer := [] } ⟨levels, true⟩ (W.reserves stamp)
        (.term u) [solution .empty]

section Resolve

variable {sig : Signature} {W W' : Waiting} {V V' : Vista} {w : Indexed.Solutions}
variable {scope : List Var}
variable {closed : Bool} {n : Indexed} {args : List Indexed}

theorem Vista.Locates.later {x : Var} (h : V.Locates closed scope x n) (hV : V.Later V') :
    V'.Locates closed scope x n ∧ n.resolve w = n := by
  refine ⟨h.mono hV.age hV.outer, ?_⟩
  cases h <;> rfl

theorem Vista.Locates.all_later {xs : List Var} (h : List.Forall₂ (V.Locates true scope) xs args)
    (hV : V.Later V') :
    args.map (Indexed.resolve w) = args ∧ List.Forall₂ (V'.Locates true scope) xs args := by
  induction h with
  | nil => exact ⟨rfl, .nil⟩
  | cons hx _ ih =>
    obtain ⟨hx', hself⟩ := hx.later (w := w) hV
    exact ⟨by rw [List.map_cons, hself, ih.1], .cons hx' ih.2⟩

theorem Vista.Later.mapping {r : MappingRef Term} {m : Mapping Term} (hV : V.Later V')
    (h : V.known.mapping? r = some m) : V'.known.mapping? r = some m := by
  cases r with
  | own _ => exact h
  | shared number => exact hV.mappings number m h

/-- The solution of an unknown, where it is put. -/
theorem means_solution {levels : LevelSubst} {bounds : List Var} {stamp : Nat} {v : Var} {u : Term}
    (hsolution : V'.known.solutions.get? stamp = some u)
    (hu : Means (.exact sig W') { V' with age := 0, outer := [] } ⟨levels, true⟩ bounds (.term u) [n])
    (hargs : List.Forall₂ (V'.Locates true scope) bounds args) :
    Means (.exact sig W') V' ⟨levels, closed⟩ scope (.term (.mk stamp (.unknown v)))
      [n.inst (.only args)] :=
  .solved hsolution (hu.placed hargs)

/-- What is solved is grafted into the meanings. -/
theorem Means.resolve (hV : V.Later V') (hw : Solves sig W W' V V' w) {M : Mode} {item : Item}
    (h : Means (.exact sig W) V M scope item ns) :
    Means (.exact sig W') V' M scope item (ns.map (Indexed.resolve w)) := by
  induction h with
  | ref h =>
    obtain ⟨hn, hself⟩ := h.later (w := w) hV
    rw [List.map_singleton, hself]
    exact .ref hn
  | @node M scope stamp node parts hparts hnode hfits _ ih =>
    have hhead := (Reader.exact sig W).not_isDeferred
      ((Node.hasParts_sorted_erase (Reader.exact sig W).sig node).trans hparts) M.levels
    rw [List.map_singleton, Indexed.resolve_plain w hhead]
    exact .node hparts hnode hfits ih
  | letIn _ ih =>
    rw [List.map_singleton, Indexed.resolve_plain w rfl]
    exact .letIn ih
  | solved hsolution _ ih => exact .solved (hV.solutions _ _ hsolution) ih
  | @unsolved M scope bounds stamp v args hkind hsolution hu hwaits hdefers hargs =>
    obtain ⟨hstay, hargs'⟩ := Vista.Locates.all_later (w := w) hargs hV
    have hoccurrence : (Indexed.Head.deferred ((Reader.exact sig W).marks stamp v)
        ((Reader.exact sig W).tells M.levels)).occurrence? = some (stamp, M.levels) := rfl
    rw [List.map_singleton, Indexed.resolve_node, hstay]
    cases hstamp : w stamp with
    | none =>
      obtain ⟨hsolution', hwaits', -⟩ := hw.others _ stamp v hstamp hwaits hsolution
      rw [Indexed.Solutions.fill_of_none hoccurrence hstamp]
      exact .unsolved hkind hsolution' (hV.unknowns _ _ hu) hwaits' trivial hargs'
    | some solution =>
      obtain ⟨u, hu', hmeans⟩ := hw.delaying _ stamp v bounds solution hstamp hwaits hu
      rw [Indexed.Solutions.fill_of_some hoccurrence hstamp]
      exact means_solution hu' hmeans hargs'
  | @held M scope stamp v hkind hsolution hu hwaits hreserves =>
    have hargs : List.Forall₂ (V.Locates true scope) (W.reserves stamp)
        ((W.reserves stamp).map (V.place scope)) := by
      rw [List.forall₂_map_right_iff]
      exact List.forall₂_same.mpr fun x hx =>
        Vista.locates_place true (hreserves x hx).1 (hreserves x hx).2
    obtain ⟨hstay, hargs'⟩ := Vista.Locates.all_later (w := w) hargs hV
    have hoccurrence : (Indexed.Head.form
        (.unknown ((Reader.exact sig W).marks stamp v))).occurrence? = some (stamp, .empty) := rfl
    rw [List.map_singleton, Indexed.resolve_node, show
      ((Reader.exact sig W).reserves stamp).map (V.place scope) =
        (W.reserves stamp).map (V.place scope) from rfl, hstay]
    cases hstamp : w stamp with
    | none =>
      obtain ⟨hsolution', hwaits', hreserves'⟩ := hw.others _ stamp v hstamp hwaits hsolution
      rw [Indexed.Solutions.fill_of_none hoccurrence hstamp, (Vista.Locates.places hargs').1,
        ← hreserves']
      refine .held hkind hsolution' (hV.unknowns _ _ hu) hwaits' fun x hx => ?_
      rw [show (Reader.exact sig W').reserves stamp = W.reserves stamp from hreserves'] at hx
      exact ⟨(hreserves x hx).1, (hreserves x hx).2.trans_le hV.age⟩
    | some solution =>
      obtain ⟨u, hu', hmeans⟩ := hw.holding _ stamp v solution hstamp hwaits hu
      rw [Indexed.Solutions.fill_of_some hoccurrence hstamp]
      exact means_solution hu' hmeans hargs'
  | delayed hmapping hkeys hnodup hkinds hdefers _ _ ih ih' =>
    rw [List.map_singleton, Indexed.resolve_front]
    exact .delayed (hV.mapping hmapping) hkeys hnodup hkinds hdefers ih ih'
  | body _ ih => exact .body ih
  | clause hkind hc _ _ ih ih' =>
    rw [List.map_singleton, Indexed.resolve_plain w rfl, List.map_append]
    exact .clause hkind (hV.clauses _ _ hc) ih ih'
  | done => exact .done
  | term _ _ ih ih' => exact .term ih ih'
  | under hkind _ _ ih ih' =>
    rw [List.map_append, Indexed.map_abs (f := Indexed.resolve w) fun _ => rfl]
    exact .under hkind ih ih'

end Resolve

/-! ## Deferral and resolution -/

/-- The store with occurrences of an unknown resolved. -/
def Store.resolved (s : Store) (refs : List Nat) (u : Term) : Store :=
  { s with solutions := refs.foldr (fun stamp solutions => solutions.insert stamp u) s.solutions }

theorem Store.solutions_resolved (s : Store) (refs : List Nat) (u : Term) (stamp : Nat) :
    (s.resolved refs u).solutions.get? stamp =
      if stamp ∈ refs then some u else s.solutions.get? stamp := by
  show (refs.foldr (fun stamp solutions => solutions.insert stamp u) s.solutions).get? stamp = _
  induction refs with
  | nil => rfl
  | cons r refs ih =>
    rw [List.foldr_cons]
    by_cases hr : stamp = r
    · subst hr
      rw [Table.get?_insert_self, if_pos (.head _)]
    · rw [Table.get?_insert_of_ne _ _ hr, ih]
      simp only [List.mem_cons, hr, false_or]

/-- Nothing is unsolved. -/
def Waiting.never : Waiting := ⟨fun _ _ _ => False, fun _ => [], fun _ _ _ h => h⟩

/-- The occurrences are of the unknown, as far as they are unsolved. -/
def Waiting.of (v : Var) (refs : List Nat) : Waiting :=
  ⟨fun _ stamp v' => stamp ∈ refs → v' = v, fun _ => [], fun _ _ _ h => h⟩

theorem solves_never {sig : Signature} {V V' : Vista} (W : Waiting) :
    Solves sig .never W V V' fun _ => none where
  others _ _ _ _ hwaits := hwaits.elim
  delaying _ _ _ _ _ _ hwaits := hwaits.elim
  holding _ _ _ _ _ hwaits := hwaits.elim

instance Reader.plain_of (sig : Signature) (v : Var) (refs : List Nat) :
    (Reader.exact sig (.of v refs)).Plain := ⟨fun _ => rfl⟩

/-- The term refers to nothing but the bounds and has no unsolved unknowns in it. Under each
level substitution it means what the function says. -/
def Term.Solution (sig : Signature) (s : Store) (bounds : List Var) (u : Term)
    (solution : LevelSubst → Indexed) : Prop :=
  ∀ levels, Recheck.Means (.exact sig .never) (s.vista [] 0 []) ⟨levels, true⟩ bounds (.term u)
    [solution levels]

section Resolution

variable {sig : Signature} {s s' : Store} {v : Var} {bounds : List Var} {refs : List Nat} {u : Term}
variable {solution : LevelSubst → Indexed}
variable {levels : LevelSubst}

/-- The same solution for each of the occurrences. -/
def Indexed.Solutions.same (refs : List Nat) (solution : LevelSubst → Indexed) :
    Indexed.Solutions := fun stamp => if stamp ∈ refs then some solution else none

theorem Store.later_resolved (hrefs : ∀ stamp ∈ refs, s.solutions.get? stamp = none) (u : Term)
    (k : Nat) : (s.vista [] k []).Later ((s.resolved refs u).vista [] k []) where
  clauses _ _ hc := hc
  unknowns _ _ hu := hu
  solutions stamp u' hu' := by
    refine (s.solutions_resolved refs u stamp).trans ?_
    rw [if_neg fun hmem => ?_]
    · exact hu'
    · cases (hrefs stamp hmem).symm.trans hu'
  mappings _ _ hm := hm
  age := le_rfl
  outer := rfl

variable (hu : u.Solution sig s bounds solution)

include hu

theorem Term.Solution.solves (hrefs : ∀ stamp ∈ refs, s.solutions.get? stamp = none)
    (hv : s.known.unknowns v.serial = some (some bounds)) (k : Nat) :
    Solves sig (.of v refs) (.of v refs) (s.vista [] k []) ((s.resolved refs u).vista [] k [])
      (.same refs solution) where
  others levels stamp v' hstamp hwaits hnone := by
    have hmem : stamp ∉ refs := fun hmem => by
      rw [Indexed.Solutions.same, if_pos hmem] at hstamp
      cases hstamp
    refine ⟨?_, hwaits, rfl⟩
    exact (s.solutions_resolved refs u stamp).trans ((if_neg hmem).trans hnone)
  delaying levels stamp v' bounds' solution' hstamp hwaits hv' := by
    unfold Indexed.Solutions.same at hstamp
    split at hstamp
    next hmem =>
      obtain rfl := Option.some.inj hstamp
      obtain rfl := hwaits hmem
      obtain rfl := Option.some.inj (Option.some.inj (hv.symm.trans hv'))
      refine ⟨u, (s.solutions_resolved refs u stamp).trans (if_pos hmem), ?_⟩
      have hmeans := (hu levels).resolve (s.later_resolved hrefs u 0) (solves_never (.of v' refs))
      rwa [List.map_singleton, Indexed.resolve_none] at hmeans
    next => cases hstamp
  holding levels stamp v' solution' hstamp hwaits hv' := by
    unfold Indexed.Solutions.same at hstamp
    split at hstamp
    next hmem =>
      rw [hwaits hmem] at hv'
      cases hv.symm.trans hv'
    next => cases hstamp

theorem Term.Solution.extend {R : Reader} {k : Nat}
    (hs : Extends R [] k [] s s') : u.Solution sig s' bounds solution :=
  fun levels => (hu levels).mono (hs.vista_le (by simp) 0 [])

variable (hrefs : ∀ stamp ∈ refs, s.solutions.get? stamp = none)
  (hv : s.known.unknowns v.serial = some (some bounds))

include hrefs hv

/-- Resolving occurrences of an unknown grafts the solution into the meaning. -/
theorem Term.Means.resolved {t : Term} {n : Indexed}
    (ht : t.Means (.exact sig (.of v refs)) s levels n) :
    t.Means (.exact sig (.of v refs)) (s.resolved refs u) levels
      (n.resolve (.same refs solution)) :=
  Recheck.Means.resolve (s.later_resolved hrefs u s.next) (hu.solves hrefs hv s.next) ht

theorem Mapping.Means.resolved {m : Mapping Term}
    {values : Var → Indexed} (hm : m.Means (.exact sig (.of v refs)) s levels values) :
    m.Means (.exact sig (.of v refs)) (s.resolved refs u) levels
      fun x => (values x).resolve (.same refs solution) where
  keys := hm.keys
  nodup := hm.nodup
  replaced x t ht := (hm.replaced x t ht).resolved hu hrefs hv
  others x hx := by
    rw [hm.others x hx]
    rfl

end Resolution

/-- Substituting where an unknown is unsolved, and resolving its occurrences then, leads to the
same as resolving them first and substituting then, up to contraction, if both return. -/
theorem subst_resolution (sig : Signature) (fuel₁ fuel₂ : Nat) (s s₁ s₂ : Store)
    (t u after before : Term) (v : Var) (bounds : List Var) (refs : List Nat) (m : Mapping Term)
    (levels : LevelSubst) (n : Indexed) (values : Var → Indexed) (solution : LevelSubst → Indexed)
    (hs : s.Numbered) (hv : s.known.unknowns v.serial = some (some bounds))
    (hrefs : ∀ stamp ∈ refs, s.solutions.get? stamp = none)
    (hu : u.Solution sig s bounds solution)
    (ht : t.Means (.exact sig (.of v refs)) s levels n)
    (hm : m.Means (.exact sig (.of v refs)) s .empty values)
    (hafter : t.subst sig fuel₁ (.of m levels) s = .ok after s₁)
    (hbefore : t.subst sig fuel₂ (.of m levels) (s.resolved refs u) = .ok before s₂) :
    ∃ n₁ n₂, after.Means (.exact sig (.of v refs)) (s₁.resolved refs u) .empty n₁ ∧
      before.Means (.exact sig (.of v refs)) s₂ .empty n₂ ∧ Joins n₁ n₂ := by
  obtain ⟨hextends, k₁, hk₁, hcontracts₁⟩ :=
    means_subst fuel₁ hs hm ht after s₁ ⟨s, s₁, rfl, rfl, hafter⟩
  have hrefs₁ : ∀ stamp ∈ refs, s₁.solutions.get? stamp = none := fun stamp hmem =>
    (congrArg (Table.get? · stamp) (congrArg Known.solutions hextends.known)).trans
      (hrefs stamp hmem)
  have hv₁ : s₁.known.unknowns v.serial = some (some bounds) := hextends.known ▸ hv
  have hs' : (s.resolved refs u).Numbered := hs
  obtain ⟨-, k₂, hk₂, hcontracts₂⟩ := means_subst fuel₂ hs' (hm.resolved hu hrefs hv)
    (ht.resolved hu hrefs hv) before s₂ ⟨_, s₂, rfl, rfl, hbefore⟩
  rw [← Indexed.resolve_ofFree] at hcontracts₂
  exact ⟨_, k₂, hk₁.resolved (hu.extend hextends) hrefs₁ hv₁, hk₂,
    .of_common (hcontracts₁.resolve _) hcontracts₂⟩

namespace DelayedTwice

def z : Var := ⟨12, .param, "z"⟩

def sort : USort := ⟨.var .predicative 0 0, .closed 0⟩

/-- The solution `\lam z => x`. -/
def constant : Term := .mk 9 (.lam sort [⟨z, none, true⟩] (.mk 10 (.ref x)))

/-- The meaning of the solution, where `x` is the innermost bound. -/
def constantMeaning (levels : LevelSubst) : Indexed :=
  .node (.form (.lam (sort.subst levels) [⟨default, none, true⟩] ())) [.abs (.bound 1)]

theorem constant_solution : constant.Solution Prelude.signature store [x, y] constantMeaning := by
  intro levels
  have hbody : Means (.exact Prelude.signature .never) (store.vista [] 0 []) ⟨levels, true⟩
      [z, x, y] (.term (.mk 10 (.ref x))) [.bound 1] :=
    .ref (.bound rfl fun hkind => by cases hkind)
  exact .node rfl trivial (fun _ _ => trivial)
    (means_under_iff.mpr ⟨by decide, [.bound 1], rfl, .term hbody .done⟩)

/-- The term with the occurrence of the unknown told by its stamp. -/
def occurrence : Indexed :=
  .node (.form (.app () ()))
    [.node (.deferred ⟨17, .unknown, "?v"⟩ raise) [.free x, .free y], .free x]

theorem occurrence_means :
    term.Means (.exact Prelude.signature (.of v [17])) store raise occurrence := by
  refine .node rfl trivial (fun _ hs => by cases hs) (.term ?_ (.term ?_ .done))
  · refine .unsolved rfl rfl rfl (fun _ => rfl) trivial (.cons ?_ (.cons ?_ .nil))
    · exact locates x true (by decide) (by decide)
    · exact locates y true (by decide) (by decide)
  · exact .ref (locates x false (by decide) (by decide))

/-- The substitution waits at the unknown until it is solved, or meets the solution, which is
applied then. -/
theorem delayed_resolution : ∃ after s₁ before s₂,
    term.subst Prelude.signature 10 (.of toY raise) store = .ok after s₁ ∧
    term.subst Prelude.signature 10 (.of toY raise) (store.resolved [17] constant) =
      .ok before s₂ ∧
    ∃ n₁ n₂, after.Means (.exact Prelude.signature (.of v [17])) (s₁.resolved [17] constant)
        .empty n₁ ∧
      before.Means (.exact Prelude.signature (.of v [17])) s₂ .empty n₂ ∧ Joins n₁ n₂ := by
  have hs : store.Numbered := fun n c hc => by cases hc
  have hrefs : ∀ stamp ∈ [17], store.solutions.get? stamp = none := by simp [store, Store.start]
  have hy : (Term.mk 19 (.ref y)).Means (.exact Prelude.signature (.of v [17])) store .empty
      (.free y) := .ref (locates y false (by decide) (by decide))
  exact ⟨_, _, _, _, rfl, rfl, subst_resolution Prelude.signature 10 10 store _ _ term constant _ _
    v [x, y] [17] toY raise occurrence _ constantMeaning hs rfl hrefs constant_solution
    occurrence_means (means_single (by decide) hy) rfl rfl⟩

end DelayedTwice

/-! ## Where the two ways part -/

namespace ResolutionLimits

def x : Var := ⟨13, .param, "x"⟩

def f : Var := ⟨14, .param, "f"⟩

def z : Var := ⟨15, .param, "z"⟩

def d : Var := ⟨16, .clause, "d"⟩

def hole : Term := .mk 17 (.unknown ⟨18, .unknown, "?v"⟩)

def zero : Term := .mk 19 .zero

/-- A store in which a solution of the unknown may refer to `f`, the clause `d` is defined by
`suc z`, and the entry of a shared mapping replaces `x` by `zero`. -/
def store : Store :=
  { Store.start 40 with
    clauses := Table.empty.insert 16
      ⟨.mk 21 (.suc (.mk 22 (.ref z))), none⟩
    unknowns := Table.empty.insert 18 ⟨none, [f], true, default, false⟩
    mappings := Table.empty.insert 0 ⟨.single (.local x) zero, []⟩ }

/-- The texts of the weak head normal forms of a term that is substituted into before and after
the unknown in it is solved. -/
def texts (t u : Term) (σ : Substitution) : Option (String × String) :=
  let text (t : Term) : Core String := do
    (← t.whnf Prelude.signature 20).print Prelude.signature 20
  let first : Core String := do
    let t ← t.subst Prelude.signature 20 σ
    modify fun s => s.resolved [17] u
    text t
  let second : Core String := do text (← t.subst Prelude.signature 20 σ)
  match first store, second (store.resolved [17] u) with
  | .ok first _, .ok second _ => some (first, second)
  | _, _ => none

/-- A copy of the solution loses implementations that are not of the record. A mapping that is
shared with a delayed substitution in the solution is extended under the binders of the
solution. A let clause that is free in a value is rewritten at the first place that it is
put. -/
theorem resolution_parts :
    texts (.mk 23 (.field ⟨24, "q"⟩ .set0 hole))
        (.mk 25 (.new none ⟨26, ⟨⟨27, "R"⟩, .set0, [(⟨24, "q"⟩, zero)], .set0, .none,
          ⟨28, .given, "this"⟩⟩⟩)) (.single x zero) = some ("zero", "(\\new R).q") ∧
    texts hole (.mk 23 (.lam .set0 [⟨x, some (.mk 20 .nat), true⟩]
          (.mk 24 (.delayed (.mk 25 (.ref x)) (.shared 0) .empty))))
        ⟨.single (.local x) zero, .empty, some 0⟩ =
      some ("\\lam (x : Nat) => zero", "\\lam (x : Nat) => x") ∧
    texts (.mk 23 (.proj (.mk 24 (.tuple
          [hole, .mk 25 (.app (.mk 26 (.ref f)) (.mk 27 (.int 1)))] ⟨28, .set0, []⟩)) 0))
        (.mk 29 (.app (.mk 30 (.ref f)) zero))
        (.single f (.mk 31 (.lam .set0 [⟨z, some (.mk 20 .nat), true⟩] (.mk 32 (.ref d))))) =
      some ("suc 1", "suc zero") := by
  decide +kernel

/-- The text of the weak head normal form of a term. -/
def text (t : Core Term) (s : Store) : Option String :=
  let text : Core String := do
    (← (← t).whnf Prelude.signature 20).print Prelude.signature 20
  text.run' s

/-- A term that is put for the unknown does not get the substitution that waits for it: of
`?v[f := zero]` it makes `suc f`, and solving the unknown by it makes `suc zero`. -/
theorem replacement_loses_delayed :
    let t : Term := .mk 23 (.delayed hole (.own (.single (.local f) zero)) .empty)
    let u : Term := .mk 24 (.suc (.mk 25 (.ref f)))
    text (t.subst Prelude.signature 20 (.single ⟨18, .unknown, "?v"⟩ u)) store = some "suc f" ∧
      text (pure t) (store.resolved [17] u) = some "suc zero" := by
  decide +kernel

end ResolutionLimits

end Recheck
