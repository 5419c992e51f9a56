import Recheck.Proofs.Instantiation
import Recheck.Proofs.Deferral.Clauses

/-!
# Recheck — composition of level substitutions

Substituting levels twice is substituting them once by the composition, as long as the
second substitution puts non-negative levels in and no number overflows
(`Level.subst_compose`). What comes out may still differ in form: a bound below the constant
is kept in one way and not in the other (`Level.Tidies`). Composition itself is associative
in the same sense (`LevelSubst.compose_compose`).
-/

namespace Recheck

variable {levels : LevelSubst}

/-! ## Sizes -/

/-- Integers of an absolute value below this are machine words. -/
def Level.limit : Nat := 9223372036854775808

/-- The largest absolute value of the numbers in a level. -/
def Level.size : Level → Nat
  | .infinity => 0
  | .closed c => c.toInt.natAbs
  | .var _ c m => max c.toInt.natAbs m.toInt.natAbs

def USort.size (s : USort) : Nat := max s.p.size s.h.size

def LevelSubst.size (levels : LevelSubst) : Nat :=
  levels.entries.foldr (fun e n => max e.2.size n) 0

theorem LevelSubst.size_le_iff {n : Nat} :
    levels.size ≤ n ↔ ∀ e ∈ levels.entries, e.2.size ≤ n := by
  obtain ⟨entries⟩ := levels
  induction entries with
  | nil => simp [size]
  | cons e es ih =>
    rw [List.forall_mem_cons, ← ih]
    exact Nat.max_le

theorem LevelSubst.size_of_get? {v : LevelVar} {r : Level} (h : levels.get? v = some r) :
    r.size ≤ levels.size := by
  obtain ⟨before, after, hentries, -⟩ := List.lookup_eq_some_iff.mp h
  exact size_le_iff.mp le_rfl (v, r) (hentries ▸ by simp)

namespace Level

variable {a b l r : Level} {n : Int64} {v : LevelVar}

theorem representable_of_size {a b : Int64} (h : a.toInt.natAbs + b.toInt.natAbs < Level.limit) :
    Representable a b := by
  have hmin : Int64.minValue.toInt = -9223372036854775808 := by decide
  have hmax : Int64.maxValue.toInt = 9223372036854775807 := by decide
  rw [Representable, hmin, hmax]
  rw [limit] at h
  omega

theorem canAdd_of_size (h : l.size + n.toInt.natAbs < Level.limit) : l.CanAdd n := by
  cases l with
  | infinity => trivial
  | closed c => exact representable_of_size h
  | var v c m =>
    simp only [size] at h
    exact ⟨representable_of_size (by omega), representable_of_size (by omega)⟩

theorem size_bounded (v : LevelVar) (c m : Int64) :
    (bounded v c m).size ≤ max c.toInt.natAbs m.toInt.natAbs := by
  unfold bounded
  split <;> simp only [size] <;> omega

theorem size_add (h : l.size + n.toInt.natAbs < Level.limit) :
    (l.add n).size ≤ l.size + n.toInt.natAbs := by
  have hadd := canAdd_of_size h
  rw [add.eq_def]
  split
  · exact Nat.le_add_right _ _
  cases l with
  | infinity => exact Nat.zero_le _
  | closed c =>
    have hsum := toInt_add_of_representable hadd
    simp only [size, hsum]
    omega
  | var v c m =>
    have hc := toInt_add_of_representable hadd.1
    have hm := toInt_add_of_representable hadd.2
    refine (size_bounded _ _ _).trans ?_
    simp only [size, hc, hm]
    omega

theorem size_atLeast (l : Level) (k : Int64) : (l.atLeast k).size ≤ max l.size k.toInt.natAbs := by
  cases l with
  | infinity => exact Nat.zero_le _
  | closed c =>
    simp only [atLeast, size, toInt_max]
    omega
  | var v c m =>
    refine (size_bounded _ _ _).trans ?_
    simp only [size, toInt_max]
    omega

theorem subst_of_get?_none (h : levels.get? v = none) (c m : Int64) :
    (var v c m).subst levels = .var v c m := by
  simp only [subst, h]

theorem subst_of_get?_some (h : levels.get? v = some r) (c m : Int64) :
    (var v c m).subst levels = if c < m then (r.add c).atLeast m else r.add c := by
  simp only [subst, h]

theorem size_subst (h : l.size + levels.size < Level.limit) :
    (l.subst levels).size ≤ l.size + levels.size := by
  cases l with
  | infinity | closed => exact Nat.le_add_right _ _
  | var v c m =>
    cases hget : levels.get? v with
    | none =>
      rw [subst_of_get?_none hget]
      exact Nat.le_add_right _ _
    | some r =>
      have hr := LevelSubst.size_of_get? hget
      rw [subst_of_get?_some hget]
      rw [show (var v c m).size = max c.toInt.natAbs m.toInt.natAbs from rfl] at h ⊢
      have hadd := size_add (l := r) (n := c) (by omega)
      split
      · have := size_atLeast (r.add c) m
        omega
      · omega

theorem canSubst_of_size (h : l.size + levels.size < Level.limit) : l.CanSubst levels := by
  cases l with
  | infinity | closed => trivial
  | var v c m =>
    intro r hget
    have hr := LevelSubst.size_of_get? hget
    simp only [size] at h
    exact canAdd_of_size (by omega)

/-! ## Tidy levels -/

/-- The second level is the first one, or its canonical form. -/
def Tidies (a b : Level) : Prop := b = a ∨ b = a.canonical

theorem canonical_canonical (l : Level) : l.canonical.canonical = l.canonical := by
  cases l with
  | var v c m =>
    simp only [canonical, bound]
    split <;> simp_all
  | _ => rfl

theorem Tidies.refl (l : Level) : l.Tidies l := .inl rfl

theorem Tidies.trans {c : Level} (h : a.Tidies b) (h' : b.Tidies c) : a.Tidies c := by
  rcases h' with rfl | rfl
  · exact h
  · rcases h with rfl | rfl
    · exact .inr rfl
    · exact .inr a.canonical_canonical

theorem Tidies.canonical (h : a.Tidies b) : b.canonical = a.canonical := by
  rcases h with rfl | rfl
  · rfl
  · exact a.canonical_canonical

theorem extent_canonical (l : Level) : l.canonical.extent = l.extent := by
  cases l with
  | var v c m =>
    rw [canonical, extent, extent, toInt_bound, ← Int.max_assoc, Int.max_self]
  | _ => rfl

theorem canonical_eq_of_extent (h : a.extent = b.extent) : a.canonical = b.canonical := by
  cases a <;> cases b <;> simp only [extent, Extent.closed.injEq, Extent.var.injEq,
    reduceCtorEq, ← toInt_bound, Int64.toInt_inj] at h ⊢
  · rw [h]
  · obtain ⟨rfl, rfl, hbound⟩ := h
    rw [canonical, canonical, hbound]

theorem Tidies.of_extent (hb : b.canonical = b) (h : a.extent = b.extent) :
    a.Tidies b := .inr (hb.symm.trans (canonical_eq_of_extent h).symm)

theorem Tidies.extent (h : a.Tidies b) : b.extent = a.extent := by
  rw [← extent_canonical b, h.canonical, extent_canonical]

theorem Tidies.size (h : a.Tidies b) : b.size ≤ a.size := by
  rcases h with rfl | rfl
  · exact le_rfl
  · cases a with
    | var v c m =>
      simp only [Level.canonical, Level.size, toInt_bound]
      omega
    | _ => exact le_rfl

theorem canonical_bounded (v : LevelVar) (c m : Int64) :
    (bounded v c m).canonical = bounded v c m := by
  have hle : ∀ a b : Int64, a ≤ b → bound a b = b := fun a b hab => by
    rw [bound, if_neg (Int64.not_lt.mpr hab)]
  unfold bounded
  split
  · rw [canonical, hle _ _ (Int64.le_refl _)]
  next h => rw [canonical, hle _ _ (Int64.le_of_lt (Int64.not_le.mp h))]

theorem canonical_add (hn : n ≠ 0) (l : Level) : (l.add n).canonical = l.add n := by
  rw [add.eq_def, if_neg hn]
  cases l with
  | var v c m => exact canonical_bounded _ _ _
  | _ => rfl

theorem canonical_atLeast (l : Level) (k : Int64) : (l.atLeast k).canonical = l.atLeast k := by
  cases l with
  | var v c m => exact canonical_bounded _ _ _
  | _ => rfl

/-- What is put in place of a variable comes out as it is, or in canonical form. -/
theorem subst_var_cases (hget : levels.get? v = some r) (c m : Int64) :
    (c = 0 ∧ ¬ c < m) ∧ (var v c m).subst levels = r ∨
      ¬ (c = 0 ∧ ¬ c < m) ∧ ((var v c m).subst levels).canonical = (var v c m).subst levels := by
  rw [subst_of_get?_some hget]
  by_cases hlow : c < m
  · rw [if_pos hlow]
    exact .inr ⟨by simp [hlow], canonical_atLeast _ _⟩
  · rw [if_neg hlow]
    by_cases hc : c = 0
    · subst hc
      exact .inl ⟨⟨rfl, hlow⟩, if_pos rfl⟩
    · exact .inr ⟨by simp [hc], canonical_add hc r⟩

end Level

/-! ## Composition -/

namespace LevelSubst

theorem get?_compose (levels levels' : LevelSubst) (v : LevelVar) :
    (levels.compose levels').get? v =
      ((levels.get? v).map (Level.subst · levels')).or (levels'.get? v) := by
  have hmap : (levels.entries.map fun e => (e.1, e.2.subst levels')).lookup v =
      (levels.get? v).map (Level.subst · levels') :=
    Indexed.lookup_map (Level.subst · levels') v levels.entries
  show (_ ++ _ : List (LevelVar × Level)).lookup v = _
  rw [List.lookup_append, hmap]
  cases hget : levels.get? v with
  | some r => rfl
  | none =>
    have hkeep : (levels.get? v).isNone = true := by rw [hget]; rfl
    exact lookup_filter_keep (p := fun w => (levels.get? w).isNone) hkeep

theorem size_compose {levels' : LevelSubst} (h : levels.size + levels'.size < Level.limit) :
    (levels.compose levels').size ≤ levels.size + levels'.size := by
  refine size_le_iff.mpr fun e he => ?_
  rcases List.mem_append.mp he with he | he
  · obtain ⟨d, hd, rfl⟩ := List.mem_map.mp he
    have hsize := size_le_iff.mp le_rfl d hd
    have hsubst : (d.2.subst levels').size ≤ _ := Level.size_subst (by omega)
    exact hsubst.trans (by omega)
  · have := size_le_iff.mp le_rfl e (List.mem_of_mem_filter he)
    omega

/-- The levels that are put in are not negative. -/
def Nonneg (levels : LevelSubst) : Prop := ∀ e ∈ levels.entries, e.2.extent.Nonneg

theorem Nonneg.get? (h : levels.Nonneg) {v : LevelVar} {r : Level} (hget : levels.get? v = some r) :
    r.extent.Nonneg := by
  obtain ⟨before, after, hentries, -⟩ := List.lookup_eq_some_iff.mp hget
  exact h (v, r) (hentries ▸ by simp)

end LevelSubst

namespace Extent

theorem add_add (e : Extent) (m n : Int) : (e.add m).add n = e.add (m + n) := by
  cases e <;> simp only [add, Int.add_assoc]

theorem atLeast_add (e : Extent) (k n : Int) : (e.atLeast k).add n = (e.add n).atLeast (k + n) := by
  cases e with
  | infinity => rfl
  | closed c => exact congrArg closed (by omega)
  | var v c low => exact congrArg (var v _) (by omega)

theorem atLeast_atLeast (e : Extent) (j k : Int) :
    (e.atLeast j).atLeast k = e.atLeast (max j k) := by
  cases e <;> simp only [atLeast, Int.max_assoc]

/-- A level that is not negative, raised by a number, is at least that number. -/
theorem Nonneg.atLeast_add {e : Extent} (he : e.Nonneg) {k n : Int} (h : k ≤ n) :
    (e.add n).atLeast k = e.add n := by
  cases e with
  | infinity => rfl
  | closed c =>
    have hc : 0 ≤ c := he
    exact congrArg closed (by omega)
  | var v c low =>
    have hlow : 0 ≤ low := he
    exact congrArg (var v _) (by omega)

end Extent

namespace Level

variable {levels levels' : LevelSubst}
variable {l r : Level} {v : LevelVar}

/-- A non-negative level in place of a variable keeps the least value. -/
theorem extent_subst_nonneg {a low : Int} (hl : l.extent = .var v a low)
    (hget : levels.get? v = some r) (hr : r.extent.Nonneg) (h : l.CanSubst levels) :
    (l.subst levels).extent = (r.extent.add a).atLeast low := by
  cases l with
  | infinity | closed => cases hl
  | var w c m =>
    obtain ⟨rfl, rfl, rfl⟩ := Extent.var.inj hl
    rw [extent_subst_var hget h]
    split
    next hlt =>
      have := Int64.lt_iff_toInt_lt.mp hlt
      rw [Int.max_eq_right (by omega)]
    next hlt =>
      have := Int.not_lt.mp (hlt ∘ Int64.lt_iff_toInt_lt.mpr)
      rw [Int.max_eq_left this, hr.atLeast_add (Int.le_refl _)]

theorem subst_of_replacement?_none (h : replacement? levels l = none) : l.subst levels = l := by
  cases l with
  | infinity | closed => rfl
  | var v c m => exact subst_of_get?_none h c m

theorem replacement?_add (l : Level) (n : Int64) :
    replacement? levels (l.add n) = replacement? levels l := by
  rw [add.eq_def]
  split
  · rfl
  · cases l <;> rfl

theorem replacement?_atLeast (l : Level) (k : Int64) :
    replacement? levels (l.atLeast k) = replacement? levels l := by
  cases l <;> rfl

/-- Neither of the two ways of substituting twice overflows: one substitution after the other,
or their composition. -/
structure CanSubstTwice (l : Level) (levels levels' : LevelSubst) : Prop where
  first : l.CanSubst levels
  second : (l.subst levels).CanSubst levels'
  inner : ∀ r ∈ l.replacement? levels, r.CanSubst levels'
  composed : l.CanSubst (levels.compose levels')

theorem canSubstTwice_of_size (h : l.size + levels.size + levels'.size < Level.limit) :
    l.CanSubstTwice levels levels' := by
  have hsubst : (l.subst levels).size ≤ _ := size_subst (by omega)
  have hcompose : (levels.compose levels').size ≤ _ := LevelSubst.size_compose (by omega)
  refine ⟨canSubst_of_size (by omega), canSubst_of_size (by omega), fun r hr => ?_,
    canSubst_of_size (by omega)⟩
  cases l with
  | infinity | closed => cases hr
  | var v c m =>
    have := LevelSubst.size_of_get? hr
    exact canSubst_of_size (by omega)

/-- What takes the place of a variable can be substituted into before or after. -/
theorem extent_subst_subst {c m : Int64} (hget : levels.get? v = some r)
    (hlevels : ∀ w q, levels'.get? w = some q → q.extent.Nonneg)
    (h : CanSubstTwice (.var v c m) levels levels') :
    (((var v c m).subst levels).subst levels').extent =
      if c < m then ((r.subst levels').extent.add c.toInt).atLeast m.toInt
      else (r.subst levels').extent.add c.toInt := by
  have hextent := extent_subst_var hget h.first
  cases hreplaced : replacement? levels' r with
  | none =>
    have hsame : replacement? levels' ((var v c m).subst levels) = none := by
      rw [subst_of_get?_some hget]
      split
      · rw [replacement?_atLeast, replacement?_add, hreplaced]
      · rw [replacement?_add, hreplaced]
    rw [subst_of_replacement?_none hsame, subst_of_replacement?_none hreplaced, hextent]
  | some q =>
    cases r with
    | infinity | closed => cases hreplaced
    | var w d n =>
      have hq : q.extent.Nonneg := hlevels w q hreplaced
      have hinner : ((var w d n).subst levels').extent =
          (q.extent.add d.toInt).atLeast (max d.toInt n.toInt) :=
        extent_subst_nonneg rfl hreplaced hq (h.inner _ hget)
      rw [hinner]
      split at hextent
      next hlt =>
        rw [if_pos hlt, extent_subst_nonneg hextent hreplaced hq h.second, Extent.atLeast_add,
          Extent.add_add, Extent.atLeast_atLeast]
      next hlt =>
        rw [if_neg hlt, extent_subst_nonneg hextent hreplaced hq h.second, Extent.atLeast_add,
          Extent.add_add]

/-- Substituting levels twice is substituting them by the composition. -/
theorem subst_compose (hlevels : ∀ w q, levels'.get? w = some q → q.extent.Nonneg)
    (h : l.CanSubstTwice levels levels') :
    ((l.subst levels).subst levels').Tidies (l.subst (levels.compose levels')) := by
  cases l with
  | infinity | closed => exact .refl _
  | var v c m =>
    have hcompose := levels.get?_compose levels' v
    cases hget : levels.get? v with
    | none =>
      rw [hget, Option.map_none, Option.none_or] at hcompose
      rw [subst_of_get?_none hget]
      simp only [subst, hcompose]
      exact .refl _
    | some r =>
      rw [hget, Option.map_some, Option.some_or] at hcompose
      rcases subst_var_cases hget c m with ⟨hsame, hsubst⟩ | ⟨hnew, -⟩
      · rcases subst_var_cases hcompose c m with ⟨-, hsubst'⟩ | ⟨hnew, -⟩
        · rw [hsubst, hsubst']
          exact .refl _
        · exact absurd hsame hnew
      · rcases subst_var_cases hcompose c m with ⟨hsame, -⟩ | ⟨-, hcanonical⟩
        · exact absurd hsame hnew
        refine .of_extent hcanonical ?_
        rw [extent_subst_subst hget hlevels h, extent_subst_var hcompose h.composed]

theorem canonical_subst (l : Level) (levels : LevelSubst) :
    (l.canonical.subst levels).canonical = (l.subst levels).canonical := by
  cases l with
  | infinity | closed => rfl
  | var v c m =>
    rw [canonical]
    cases hget : levels.get? v with
    | none =>
      rw [subst_of_get?_none hget, subst_of_get?_none hget]
      exact canonical_canonical (.var v c m)
    | some r =>
      rw [subst_of_get?_some hget, subst_of_get?_some hget, bound]
      by_cases hlt : m < c
      · rw [if_pos hlt, if_neg Int64.lt_irrefl, if_neg (Int64.lt_asymm hlt)]
      · rw [if_neg hlt]

end Level

/-- The second substitution puts in the same levels, or their canonical forms. -/
def LevelSubst.Tidies (levels levels' : LevelSubst) : Prop :=
  List.Forall₂ (fun e e' => e.1 = e'.1 ∧ e.2.Tidies e'.2) levels.entries levels'.entries

namespace LevelSubst

variable {levels levels' : LevelSubst}

theorem Tidies.refl (levels : LevelSubst) : levels.Tidies levels :=
  List.forall₂_same.mpr fun e _ => ⟨rfl, .refl e.2⟩

section

variable (h : levels.Tidies levels')

include h

theorem Tidies.canonical : levels'.canonical = levels.canonical := by
  obtain ⟨entries⟩ := levels
  obtain ⟨entries'⟩ := levels'
  replace h : List.Forall₂ _ entries entries' := h
  refine congrArg mk ?_
  induction h with
  | nil => rfl
  | cons he _ ih =>
    rw [List.map_cons, List.map_cons, ih]
    exact congrArg (· :: _) (Prod.ext he.1.symm he.2.canonical)

theorem Tidies.get? (v : LevelVar) :
    levels.get? v = none ∧ levels'.get? v = none ∨
      ∃ r r', levels.get? v = some r ∧ levels'.get? v = some r' ∧ r.Tidies r' := by
  obtain ⟨entries⟩ := levels
  obtain ⟨entries'⟩ := levels'
  replace h : List.Forall₂ _ entries entries' := h
  simp only [LevelSubst.get?]
  induction h with
  | nil => exact .inl ⟨rfl, rfl⟩
  | @cons e e' _ _ he _ ih =>
    rw [List.lookup_cons, List.lookup_cons, ← he.1]
    cases v == e.1 with
    | true => exact .inr ⟨e.2, e'.2, rfl, rfl, he.2⟩
    | false => exact ih

/-- Level variables that a substitution replaces are replaced by the other one too. -/
theorem Tidies.filter (keep : LevelVar → Bool) :
    List.Forall₂ (fun e e' => e.1 = e'.1 ∧ e.2.Tidies e'.2)
      (levels.entries.filter fun e => keep e.1) (levels'.entries.filter fun e => keep e.1) := by
  obtain ⟨entries⟩ := levels
  obtain ⟨entries'⟩ := levels'
  replace h : List.Forall₂ _ entries entries' := h
  dsimp only
  induction h with
  | nil => exact .nil
  | cons he _ ih =>
    rw [List.filter_cons, List.filter_cons, ← he.1]
    split
    · exact .cons he ih
    · exact ih

/-- Substitutions that are tidied act alike. -/
theorem Tidies.subst {l : Level}
    (hsize : l.size + levels.size < Level.limit) : (l.subst levels).Tidies (l.subst levels') := by
  cases l with
  | infinity | closed => exact .refl _
  | var v c m =>
    rcases h.get? v with ⟨hnone, hnone'⟩ | ⟨r, r', hget, hget', hr⟩
    · rw [Level.subst_of_get?_none hnone, Level.subst_of_get?_none hnone']
      exact .refl _
    have hc : c.toInt.natAbs ≤ (Level.var v c m).size := Nat.le_max_left _ _
    have hsize' := size_of_get? hget
    rcases Level.subst_var_cases hget c m with ⟨hsame, hsubst⟩ | ⟨hnew, -⟩
    · rcases Level.subst_var_cases hget' c m with ⟨-, hsubst'⟩ | ⟨hnew, -⟩
      · rw [hsubst, hsubst']
        exact hr
      · exact absurd hsame hnew
    · rcases Level.subst_var_cases hget' c m with ⟨hsame, -⟩ | ⟨-, hcanonical⟩
      · exact absurd hsame hnew
      have hadd' : r'.size + c.toInt.natAbs < Level.limit := by
        have := hr.size
        omega
      refine .of_extent hcanonical ?_
      rw [Level.extent_subst_var hget (Level.canSubst_of_size hsize),
        Level.extent_subst_var hget' fun q hq => ?_, hr.extent]
      exact Option.some.inj (hget'.symm.trans hq) ▸ Level.canAdd_of_size hadd'

end

/-- Composition is associative, up to the form of levels. -/
theorem compose_compose {first second third : LevelSubst} (hthird : third.Nonneg)
    (hlevels : (second.compose third).Tidies levels)
    (hsize : first.size + second.size + third.size < Level.limit) :
    ((first.compose second).compose third).Tidies (first.compose levels) := by
  have hcompose : (second.compose third).size ≤ second.size + third.size :=
    size_compose (by omega)
  have hrest := hlevels.filter fun v => (first.get? v).isNone
  have hfirst : List.Forall₂ (fun e e' : LevelVar × Level => e.1 = e'.1 ∧ e.2.Tidies e'.2)
      (first.entries.map fun e => (e.1, (e.2.subst second).subst third))
      (first.entries.map fun e => (e.1, e.2.subst levels)) := by
    rw [List.forall₂_map_left_iff, List.forall₂_map_right_iff]
    refine List.forall₂_same.mpr fun e he => ⟨rfl, ?_⟩
    have hsize' : e.2.size ≤ first.size := size_le_iff.mp le_rfl e he
    exact (Level.subst_compose (fun _ _ => hthird.get?) (Level.canSubstTwice_of_size (by omega))).trans
      (hlevels.subst (by omega))
  have hentries : ((first.compose second).compose third).entries =
      (first.entries.map fun e => (e.1, (e.2.subst second).subst third)) ++
        (second.compose third).entries.filter fun e => (first.get? e.1).isNone := by
    have hnone : ∀ v, ((first.compose second).get? v).isNone =
        ((first.get? v).isNone && (second.get? v).isNone) := by
      intro v
      rw [get?_compose]
      cases first.get? v <;> rfl
    rw [compose]
    simp only [hnone]
    simp only [compose, List.map_append, List.map_map, List.filter_append, List.filter_map,
      List.filter_filter, List.append_assoc, Function.comp_def]
  unfold Tidies
  rw [hentries]
  exact List.rel_append hfirst hrest

end LevelSubst

end Recheck
