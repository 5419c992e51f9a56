import Mathlib
import Recheck.Proofs.Deferral.Levels
import Recheck.Proofs.Valuation

/-!
# Recheck — operations on levels and their values

Adding, joining and substituting levels work on constants and bounds. What they do to values is
what their names say, as long as no constant overflows: `Level.value_add`, `Level.value_max?` and
`Level.value_subst`. And the composition of two substitutions does what they do one after the
other (`LevelSubst.subst_denotes`).

Non-negative levels have to be put in: a bound below the constant is dropped, which is right only
because variables are not negative. Infinity can be put in as well, so the valuation that a
substitution amounts to may be at the top (`LevelSubst.act`).
-/

namespace Recheck

namespace Level

variable {ρ : LevelVar → Nat} {a b l : Level} {n : Int64} {v : LevelVar} {s o : LevelSubst}

theorem value_bounded (v : LevelVar) (c m : Int64) :
    (bounded v c m).value ρ = (max (ρ v + c.toInt) m.toInt : Int) := by
  rw [bounded]
  split
  next h =>
    have hm := Int64.le_iff_toInt_le.mp h
    exact congrArg WithTop.some (by omega)
  next => rfl

theorem value_add (h : l.CanAdd n) (ρ : LevelVar → Nat) :
    (l.add n).value ρ = l.value ρ + n.toInt := by
  rw [add.eq_def]
  split
  next hzero => rw [hzero, Int64.toInt_zero, WithTop.coe_zero, add_zero]
  next =>
    cases l with
    | infinity => rfl
    | closed c => exact congrArg WithTop.some (toInt_add_of_representable h)
    | var v c m =>
      have hsum : max (ρ v + (c + n).toInt) (m + n).toInt =
          max (ρ v + c.toInt) m.toInt + n.toInt := by
        rw [toInt_add_of_representable h.1, toInt_add_of_representable h.2]
        omega
      exact (value_bounded v _ _).trans (congrArg WithTop.some hsum)

theorem value_atLeast (l : Level) (k : Int64) (ρ : LevelVar → Nat) :
    (l.atLeast k).value ρ = max (l.value ρ) k.toInt := by
  cases l with
  | infinity => exact (max_eq_left le_top).symm
  | closed c =>
    rw [atLeast, value, toInt_max]
    exact WithTop.coe_max ..
  | var v c m =>
    rw [atLeast, value_bounded, toInt_max, ← Int.max_assoc]
    exact WithTop.coe_max ..

/-- The join of two levels has the larger one of the values. -/
theorem value_max? (h : a.max? b = some l) (ρ : LevelVar → Nat) :
    l.value ρ = max (a.value ρ) (b.value ρ) := by
  cases b with
  | infinity =>
    have hl : l = .infinity := by cases a <;> exact (Option.some.inj h).symm
    rw [hl]
    exact (max_eq_right le_top).symm
  | closed d =>
    have hl : l = a.atLeast d := by cases a <;> exact (Option.some.inj h).symm
    rw [hl]
    exact value_atLeast a d ρ
  | var w d n =>
    cases a with
    | infinity =>
      cases h
      exact (max_eq_left le_top).symm
    | closed c =>
      cases h
      rw [max_comm]
      exact value_atLeast (.var w d n) c ρ
    | var v c m =>
      rw [max?] at h
      split at h
      next hvw =>
        subst hvw
        cases h
        rw [value_bounded, toInt_max, toInt_max, value, value, ← WithTop.coe_max]
        exact congrArg WithTop.some (by omega)
      next => cases h

/-- Two levels have no join only if they have different variables. -/
theorem max?_eq_none_iff : a.max? b = none ↔
    ∃ v c m w d n, a = .var v c m ∧ b = .var w d n ∧ v ≠ w := by
  cases a <;> cases b <;> simp [max?]

/-! ## Overflow can be decided -/

instance : (l : Level) → (n : Int64) → Decidable (l.CanAdd n)
  | .infinity, _ => inferInstanceAs (Decidable True)
  | .closed c, n => inferInstanceAs (Decidable (Representable c n))
  | .var _ c m, n => inferInstanceAs (Decidable (Representable c n ∧ Representable m n))

instance (l : Level) (s : LevelSubst) : Decidable (l.CanSubst s) :=
  match l with
  | .infinity => .isTrue trivial
  | .closed _ => .isTrue trivial
  | .var v c _ => inferInstanceAs (Decidable (∀ r ∈ s.get? v, r.CanAdd c))

/-! ## Substitution as a change of valuations -/

/-- The value of a level where variables may be at the top as well. -/
def valueAt (ρ : LevelVar → WithTop Int) : Level → WithTop Int
  | .infinity => ⊤
  | .closed c => c.toInt
  | .var v c m => max (ρ v + c.toInt) m.toInt

end Level

namespace LevelSubst

variable {ρ : LevelVar → Nat} {v : LevelVar} {r : Level} {s : LevelSubst}

/-- The levels that are put in are not negative, whatever the values of their variables. -/
def NonnegValues (s : LevelSubst) : Prop := ∀ v r, s.get? v = some r → ∀ ρ, 0 ≤ r.value ρ

theorem nonnegValues_of_le (h : ∀ e ∈ s.entries, (Level.closed 0).le e.2 = .yes) :
    s.NonnegValues := by
  intro v r hget
  obtain ⟨before, after, hentries, -⟩ := List.lookup_eq_some_iff.mp hget
  exact Level.le_eq_yes_iff_value.mp (h (v, r) (hentries ▸ by simp))

/-- The valuation at which a level has the value that its instance has at `ρ`: a variable that
is replaced gets the value of what is put in. -/
def act (s : LevelSubst) (ρ : LevelVar → Nat) (v : LevelVar) : WithTop Int :=
  match s.get? v with
  | some r => r.value ρ
  | none => (ρ v : Int)

theorem act_of_get?_some (h : s.get? v = some r) : s.act ρ v = r.value ρ := by
  rw [act, h]

theorem act_nonneg (hs : s.NonnegValues) (ρ : LevelVar → Nat) (v : LevelVar) : 0 ≤ s.act ρ v := by
  unfold act
  split
  next r hget => exact hs v r hget ρ
  next => exact WithTop.coe_le_coe.mpr (Int.natCast_nonneg _)

end LevelSubst

namespace Level

variable {ρ : LevelVar → Nat} {v : LevelVar} {a b l : Level} {s o : LevelSubst}

theorem value_subst_var {c m : Int64} (h : CanSubst (.var v c m) s) (hv : 0 ≤ s.act ρ v) :
    ((var v c m).subst s).value ρ = (var v c m).valueAt (s.act ρ) := by
  rw [valueAt]
  cases hget : s.get? v with
  | none =>
    rw [subst_of_get?_none hget, LevelSubst.act, hget]
    exact WithTop.coe_max ..
  | some r =>
    have hadd : (r.add c).value ρ = s.act ρ v + c.toInt := by
      rw [LevelSubst.act_of_get?_some hget]
      exact value_add (h r hget) ρ
    rw [subst_of_get?_some hget]
    split
    next => rw [value_atLeast, hadd]
    next hlt =>
      -- The bound is left out, and what is put in keeps the level above it.
      have hm : (m.toInt : WithTop Int) ≤ c.toInt :=
        WithTop.coe_le_coe.mpr (Int64.le_iff_toInt_le.mp (Int64.not_lt.mp hlt))
      rw [hadd, max_eq_left (hm.trans (le_add_of_nonneg_left hv))]

theorem value_subst (hs : s.NonnegValues) (h : l.CanSubst s) (ρ : LevelVar → Nat) :
    (l.subst s).value ρ = l.valueAt (s.act ρ) := by
  cases l with
  | infinity | closed => rfl
  | var v c m => exact value_subst_var h (LevelSubst.act_nonneg hs ρ v)

theorem extent_nonneg_iff_value : l.extent.Nonneg ↔ ∀ ρ, 0 ≤ l.value ρ := by
  have hbelow : l.extent.Nonneg ↔ (closed 0).extent.Below l.extent := by
    cases l <;> exact Iff.rfl
  exact hbelow.trans extent_below_iff_value

theorem Tidies.equal (h : a.Tidies b) : a.equal b = true := by
  rw [equal_iff_le_le, le_eq_yes_iff, le_eq_yes_iff, h.extent]
  exact ⟨.refl _, .refl _⟩

theorem subst_subst_equal (ho : o.NonnegValues) (h : l.CanSubstTwice s o) :
    ((l.subst s).subst o).equal (l.subst (s.compose o)) = true :=
  (subst_compose (fun w q hq => extent_nonneg_iff_value.mpr (ho w q hq)) h).equal

end Level

/-- Neither of the two ways of substituting twice overflows. -/
def USort.CanSubstTwice (t : USort) (s o : LevelSubst) : Prop :=
  t.p.CanSubstTwice s o ∧ t.h.CanSubstTwice s o

namespace LevelSubst

/-- Substitution changes the valuation, and the composition of substitutions does what they do
one after the other, on levels and on sorts. -/
theorem subst_denotes (s o : LevelSubst) (hs : s.NonnegValues) (ho : o.NonnegValues) :
    (∀ l : Level, l.CanSubst s → ∀ ρ, (l.subst s).value ρ = l.valueAt (s.act ρ)) ∧
    (∀ l : Level, l.CanSubstTwice s o →
      ((l.subst s).subst o).equal (l.subst (s.compose o)) = true) ∧
    (∀ t : USort, t.CanSubstTwice s o →
      ((t.subst s).subst o).equal (t.subst (s.compose o)) = true) := by
  refine ⟨fun l => Level.value_subst hs, fun l => Level.subst_subst_equal ho, fun t h => ?_⟩
  exact Bool.and_eq_true_iff.mpr
    ⟨Level.subst_subst_equal ho h.1, Level.subst_subst_equal ho h.2⟩

end LevelSubst

namespace SubstitutedTwice

/-- The substitution of `\\max lh+1 4` and infinity for the standard variables. -/
def first : LevelSubst := ⟨[(.predicative, .var .homotopy 1 4), (.homotopy, .infinity)]⟩

/-- The substitution of `\\max lp-2 0` for the variable that comes in. -/
def second : LevelSubst := ⟨[(.homotopy, .var .predicative (-2) 0)]⟩

/-- The level `\\max lp-3 2`. -/
def level : Level := .var .predicative (-3) 2

def sort : USort := ⟨level, .ofVar .homotopy⟩

theorem subst_denotes_level_and_sort :
    (∀ ρ, (level.subst first).value ρ = level.valueAt (first.act ρ)) ∧
      ((level.subst first).subst second).equal (level.subst (first.compose second)) = true ∧
      ((sort.subst first).subst second).equal (sort.subst (first.compose second)) = true := by
  obtain ⟨hvalue, hlevel, hsort⟩ := LevelSubst.subst_denotes first second
    (LevelSubst.nonnegValues_of_le (by decide)) (LevelSubst.nonnegValues_of_le (by decide))
  have htwice : level.CanSubstTwice first second :=
    ⟨by decide, by decide, by decide, by decide⟩
  refine ⟨hvalue level (by decide), hlevel level htwice, hsort sort ⟨htwice, ?_⟩⟩
  exact ⟨by decide, by decide, by decide, by decide⟩

end SubstitutedTwice

end Recheck
