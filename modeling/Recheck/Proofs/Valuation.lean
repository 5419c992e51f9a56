import Mathlib.Data.Int.ConditionallyCompleteOrder
import Mathlib.Order.ConditionallyCompleteLattice.Basic
import Recheck.Proofs.Instantiation

/-!
# Recheck — the values of levels

A level stands for a number or for the top, once its variable has a value among the natural
numbers. Comparison looks at the constants and the bounds only, and its answer is the one about
values: a comparison is accepted exactly if it holds at every valuation
(`Level.compare_decides_values`).

A refused comparison has a valuation against it. Two are enough: everything at zero, where a
variable level is at its bound, and one variable far up, where it is its constant that counts.
-/

namespace Recheck

namespace Level

variable {a b : Level}

/-- The value of a level. -/
def value (ρ : LevelVar → Nat) : Level → WithTop Int
  | .infinity => ⊤
  | .closed c => c.toInt
  | .var v c m => (max (ρ v + c.toInt) m.toInt : Int)

/-- The valuation that is zero but at one variable. -/
def spike (v : LevelVar) (k : Nat) (w : LevelVar) : Nat := if w = v then k else 0

theorem spike_self (v : LevelVar) (k : Nat) : spike v k v = k := if_pos rfl

theorem value_var_le_iff {ρ : LevelVar → Nat} {v w : LevelVar} {c m d n : Int64} :
    (var v c m).value ρ ≤ (var w d n).value ρ ↔
      max (ρ v + c.toInt) m.toInt ≤ max (ρ w + d.toInt) n.toInt :=
  WithTop.coe_le_coe

theorem var_below_var_of_value {v w : LevelVar} {c m d n : Int64}
    (h : ∀ ρ, (var v c m).value ρ ≤ (var w d n).value ρ) :
    v = w ∧ c.toInt ≤ d.toInt ∧ max c.toInt m.toInt ≤ max d.toInt n.toInt := by
  -- Far enough up, the constant decides on the left, and neither bound counts.
  let k := (max d.toInt n.toInt - c.toInt).toNat + 1
  have hzero := value_var_le_iff.mp (h fun _ => 0)
  have hfar := value_var_le_iff.mp (h (spike v k))
  rw [spike_self] at hfar
  have hvw : v = w := by
    refine Decidable.byContradiction fun hne => ?_
    have hw : spike v k w = 0 := if_neg (Ne.symm hne)
    rw [hw] at hfar
    omega
  subst hvw
  rw [spike_self] at hfar
  exact ⟨rfl, by omega, by omega⟩

theorem var_not_le_closed (v : LevelVar) (c m d : Int64) :
    ¬ ∀ ρ, (var v c m).value ρ ≤ (closed d).value ρ := by
  intro h
  have hfar : max (spike v ((d.toInt - c.toInt).toNat + 1) v + c.toInt) m.toInt ≤ d.toInt :=
    WithTop.coe_le_coe.mp (h _)
  rw [spike_self] at hfar
  omega

/-- The extents of levels are ordered as their values are at every valuation. -/
theorem extent_below_iff_value :
    a.extent.Below b.extent ↔ ∀ ρ, a.value ρ ≤ b.value ρ := by
  cases b with
  | infinity => exact iff_of_true (by cases a <;> trivial) fun _ => le_top
  | closed d =>
    cases a with
    | infinity => exact iff_of_false id fun h => WithTop.not_top_le_coe _ (h fun _ => 0)
    | closed c =>
      exact ⟨fun h _ => WithTop.coe_le_coe.mpr h, fun h => WithTop.coe_le_coe.mp (h fun _ => 0)⟩
    | var v c m => exact iff_of_false id (var_not_le_closed v c m d)
  | var w d n =>
    cases a with
    | infinity => exact iff_of_false id fun h => WithTop.not_top_le_coe _ (h fun _ => 0)
    | closed c =>
      constructor
      · intro h ρ
        have hlow : c.toInt ≤ max d.toInt n.toInt := h
        exact WithTop.coe_le_coe.mpr (by omega)
      · -- At zero the variable level is at its lowest.
        intro h
        have hzero : c.toInt ≤ max ((0 : Nat) + d.toInt) n.toInt :=
          WithTop.coe_le_coe.mp (h fun _ => 0)
        show c.toInt ≤ max d.toInt n.toInt
        omega
    | var v c m =>
      refine ⟨fun h ρ => value_var_le_iff.mpr ?_, var_below_var_of_value⟩
      obtain ⟨rfl, hc, hlow⟩ := h
      omega

theorem le_eq_yes_iff_value : a.le b = .yes ↔ ∀ ρ, a.value ρ ≤ b.value ρ :=
  le_eq_yes_iff.trans extent_below_iff_value

/-- Levels are equal if each is below the other. -/
theorem equal_iff_le_le : a.equal b = true ↔ a.le b = .yes ∧ b.le a = .yes := by
  rw [le_eq_yes_iff, le_eq_yes_iff]
  cases a with
  | infinity => cases b <;> simp [equal, extent, Extent.Below]
  | closed c =>
    cases b with
    | closed d =>
      simp only [equal, extent, Extent.Below, beq_iff_eq, ← Int64.toInt_inj]
      omega
    | _ => simp [equal, extent, Extent.Below]
  | var v c m =>
    cases b with
    | var w d n =>
      simp only [equal, extent, Extent.Below, Bool.and_eq_true, beq_iff_eq, ← Int64.toInt_inj,
        toInt_bound]
      constructor
      · rintro ⟨⟨rfl, hc⟩, hlow⟩
        exact ⟨⟨rfl, by omega, by omega⟩, rfl, by omega, by omega⟩
      · rintro ⟨⟨rfl, hc, hlow⟩, -, hc', hlow'⟩
        exact ⟨⟨rfl, by omega⟩, by omega⟩
    | _ => simp [equal, extent, Extent.Below]

theorem equal_iff_value : a.equal b = true ↔ ∀ ρ, a.value ρ = b.value ρ := by
  rw [equal_iff_le_le, le_eq_yes_iff_value, le_eq_yes_iff_value, ← forall_and]
  exact forall_congr' fun ρ => antisymm_iff

/-- The comparison gives an answer, and it is `true` exactly if the proposition holds. -/
def Decides (answer : Except Fault Bool) (P : Prop) : Prop :=
  ∃ given, answer = .ok given ∧ (given = true ↔ P)

theorem compare_eq (a b : Level) : compare .eq a b = .ok (a.equal b) := by
  rw [compare, compareWith]
  cases a.equal b <;> rfl

theorem compare_le (a b : Level) : Decides (compare .le a b) (∀ ρ, a.value ρ ≤ b.value ρ) :=
  ⟨_, leWith_strict a b, beq_iff_eq.trans le_eq_yes_iff_value⟩

/-- Comparison of levels, and equality, are decided for the values at all valuations. -/
theorem compare_decides_values (a b : Level) :
    Decides (compare .eq a b) (∀ ρ, a.value ρ = b.value ρ) ∧
      Decides (compare .le a b) (∀ ρ, a.value ρ ≤ b.value ρ) ∧
      Decides (compare .ge a b) (∀ ρ, a.value ρ ≥ b.value ρ) ∧
      (a.equal b = true ↔ ∀ ρ, a.value ρ = b.value ρ) :=
  ⟨⟨_, compare_eq a b, equal_iff_value⟩, compare_le a b, compare_le b a, equal_iff_value⟩

end Level

end Recheck
