import Recheck.USort

/-!
# Recheck — instantiating level variables

A definition is checked once, over the two standard level variables, and used at every sort.
What was decided about the sorts in it has to hold of the instances: if `a` is below `b`, then
so is every instance of `a` below the same instance of `b`.

Comparison takes variables to be non-negative, and a sort argument can put a negative
level in their place: the homotopy level of propositions is `-1`. The comparison of a sort with
a variable level that has no bound of its own rests on the sign of the variable
(`Level.RestsOnSign`), and the instance at `\Prop` of such a comparison can fail
(`PropInstance.below_std_lost`). All others are stable, and so are these at sorts that are not
negative (`USort.compare_le_instantiation`).

Levels are machine words. `Extent` is what they stand for, over the integers, and substitution
acts on extents in the same way as long as nothing overflows.
-/

namespace Recheck

/-! ## Levels over the integers -/

/-- What the comparison of levels looks at: a variable level counts by its constant and by
its least value. -/
inductive Extent where
  | infinity
  | closed (c : Int)
  | var (v : LevelVar) (c low : Int)

namespace Extent

variable {n k : Int} {e f : Extent}

/-- Whether one level is below the other, whatever non-negative values variables have. -/
def Below : Extent → Extent → Prop
  | _, .infinity => True
  | .infinity, _ => False
  | .closed a, .closed b => a ≤ b
  | .closed a, .var _ _ low => a ≤ low
  | .var .., .closed _ => False
  | .var v c low, .var w d low' => v = w ∧ c ≤ d ∧ low ≤ low'

def add : Extent → Int → Extent
  | .infinity, _ => .infinity
  | .closed c, n => .closed (c + n)
  | .var v c low, n => .var v (c + n) (low + n)

def atLeast : Extent → Int → Extent
  | .infinity, _ => .infinity
  | .closed c, k => .closed (max c k)
  | .var v c low, k => .var v c (max low k)

/-- The least value is not negative. -/
def Nonneg : Extent → Prop
  | .infinity => True
  | .closed c => 0 ≤ c
  | .var _ _ low => 0 ≤ low

theorem Below.refl (e : Extent) : e.Below e := by
  cases e with
  | infinity => trivial
  | closed c => exact Int.le_refl c
  | var v c low => exact ⟨rfl, Int.le_refl c, Int.le_refl low⟩

theorem below_add_add (e : Extent) {m : Int} (h : m ≤ n) : (e.add m).Below (e.add n) := by
  cases e with
  | infinity => trivial
  | closed c =>
    show c + m ≤ c + n
    omega
  | var v c low =>
    refine ⟨rfl, ?_, ?_⟩ <;> omega

theorem closed_below_add (he : e.Nonneg) (h : k ≤ n) : (closed k).Below (e.add n) := by
  cases e with
  | infinity => trivial
  | closed c =>
    have hc : 0 ≤ c := he
    show k ≤ c + n
    omega
  | var v c low =>
    have hlow : 0 ≤ low := he
    show k ≤ low + n
    omega

theorem closed_below_atLeast (e : Extent) (h : k ≤ n) : (closed k).Below (e.atLeast n) := by
  cases e with
  | infinity => trivial
  | closed c => exact Int.le_trans h (Int.le_max_right c n)
  | var v c low => exact Int.le_trans h (Int.le_max_right low n)

/-- Raising the right-hand side keeps it above. -/
theorem Below.atLeast_right (h : e.Below f) (k : Int) : e.Below (f.atLeast k) := by
  cases f with
  | infinity => exact h
  | closed d =>
    cases e with
    | infinity => exact h
    | closed c => exact Int.le_trans h (Int.le_max_left d k)
    | var v c low => exact h
  | var w d low' =>
    cases e with
    | infinity => exact h
    | closed c => exact Int.le_trans h (Int.le_max_left low' k)
    | var v c low => exact ⟨h.1, h.2.1, Int.le_trans h.2.2 (Int.le_max_left low' k)⟩

/-- The left-hand side can be raised up to a number that is itself below the other side. -/
theorem Below.atLeast_left (h : e.Below f) (hk : (closed k).Below f) : (e.atLeast k).Below f := by
  cases f with
  | infinity => trivial
  | closed d =>
    cases e with
    | infinity => exact h
    | closed c => exact Int.max_le.mpr ⟨h, hk⟩
    | var v c low => exact h
  | var w d low' =>
    cases e with
    | infinity => exact h
    | closed c => exact Int.max_le.mpr ⟨h, hk⟩
    | var v c low => exact ⟨h.1, h.2.1, Int.max_le.mpr ⟨h.2.2, hk⟩⟩

end Extent

namespace Level

variable {a b : Level} {n : Int64} {v : LevelVar} {σ : LevelSubst}

def extent : Level → Extent
  | .infinity => .infinity
  | .closed c => .closed c.toInt
  | .var v c m => .var v c.toInt (max c.toInt m.toInt)

theorem toInt_bound (c m : Int64) : (bound c m).toInt = max c.toInt m.toInt := by
  rw [bound]
  split
  next h => exact (Int.max_eq_left (Int.le_of_lt (Int64.lt_iff_toInt_lt.mp h))).symm
  next h => exact (Int.max_eq_right (Int.not_lt.mp (h ∘ Int64.lt_iff_toInt_lt.mpr))).symm

theorem toInt_max (a b : Int64) : (max a b).toInt = max a.toInt b.toInt := by
  show (if a ≤ b then b else a).toInt = max a.toInt b.toInt
  split
  next h => exact (Int.max_eq_right (Int64.le_iff_toInt_le.mp h)).symm
  next h =>
    have hlt : b.toInt < a.toInt := Int.not_le.mp (h ∘ Int64.le_iff_toInt_le.mpr)
    exact (Int.max_eq_left (Int.le_of_lt hlt)).symm

theorem ite_yes_iff {c : Prop} [Decidable c] {d : Decision} (hd : d ≠ .yes) :
    (if c then .yes else d) = .yes ↔ c := by
  by_cases hc : c
  · rw [if_pos hc]
    exact iff_of_true rfl hc
  · rw [if_neg hc]
    exact iff_of_false hd hc

/-- Comparison answers `yes` by the extents alone. -/
theorem le_eq_yes_iff : a.le b = .yes ↔ a.extent.Below b.extent := by
  cases b with
  | infinity => cases a <;> exact iff_of_true rfl trivial
  | closed d =>
    cases a with
    | infinity => exact iff_of_false Decision.noConfusion not_false
    | closed c => exact (ite_yes_iff (by decide)).trans Int64.le_iff_toInt_le
    | var v c m => exact iff_of_false Decision.noConfusion not_false
  | var w d n =>
    cases a with
    | infinity => exact iff_of_false Decision.noConfusion not_false
    | closed c =>
      refine (ite_yes_iff (by decide)).trans ?_
      rw [Int64.le_iff_toInt_le, toInt_bound]
      exact Iff.rfl
    | var v c m =>
      refine (ite_yes_iff (by decide)).trans ?_
      rw [Int64.le_iff_toInt_le, Int64.le_iff_toInt_le, toInt_bound, toInt_bound]
      exact Iff.rfl

/-- Where nothing is left to an oracle, an inequality holds if it is decided to. -/
theorem leWith_strict (a b : Level) :
    compareWith.leWith (m := Except Fault) (fun _ _ _ => pure false) a b =
      .ok (a.le b == .yes) := by
  rw [compareWith.leWith]
  cases a.le b <;> rfl

theorem extent_bounded (v : LevelVar) (c m : Int64) :
    (bounded v c m).extent = .var v c.toInt (max c.toInt m.toInt) := by
  rw [bounded, extent]
  split
  next h => rw [Int.max_self, Int.max_eq_left (Int64.le_iff_toInt_le.mp h)]
  next => rfl

theorem extent_atLeast (l : Level) (k : Int64) : (l.atLeast k).extent = l.extent.atLeast k.toInt := by
  cases l with
  | infinity => rfl
  | closed c => rw [atLeast, extent, extent, Extent.atLeast, toInt_max]
  | var v c m => rw [atLeast, extent_bounded, extent, Extent.atLeast, toInt_max, Int.max_assoc]

/-! ## Machine words -/

/-- The sum of two machine words is one. -/
def Representable (a b : Int64) : Prop :=
  Int64.minValue.toInt ≤ a.toInt + b.toInt ∧ a.toInt + b.toInt ≤ Int64.maxValue.toInt

instance (a b : Int64) : Decidable (Representable a b) := inferInstanceAs (Decidable (_ ∧ _))

/-- The level can be raised by a constant without overflow. -/
def CanAdd : Level → Int64 → Prop
  | .infinity, _ => True
  | .closed c, n => Representable c n
  | .var _ c m, n => Representable c n ∧ Representable m n

theorem toInt_add_of_representable {a b : Int64} (h : Representable a b) :
    (a + b).toInt = a.toInt + b.toInt := by
  have hmin : Int64.minValue.toInt = -2 ^ 63 := by decide
  have hmax : Int64.maxValue.toInt = 2 ^ 63 - 1 := by decide
  rw [Representable, hmin, hmax] at h
  rw [Int64.toInt_add]
  exact Int.bmod_eq_of_le (by omega) (by omega)

theorem extent_add {l : Level} (h : l.CanAdd n) : (l.add n).extent = l.extent.add n.toInt := by
  rw [add.eq_def]
  split
  next hzero =>
    rw [hzero, Int64.toInt_zero]
    cases l <;> simp [extent, Extent.add]
  next =>
    cases l with
    | infinity => rfl
    | closed c =>
      show Extent.closed (c + n).toInt = _
      rw [toInt_add_of_representable h, extent, Extent.add]
    | var v c m =>
      have hlow : max (c.toInt + n.toInt) (m.toInt + n.toInt) = max c.toInt m.toInt + n.toInt := by
        omega
      rw [extent_bounded, toInt_add_of_representable h.1, toInt_add_of_representable h.2, hlow]
      rfl

/-- The level that takes the place of the variable of a level, if one does. -/
def replacement? (σ : LevelSubst) : Level → Option Level
  | .var v _ _ => σ.get? v
  | _ => none

/-- Substituting into the level does not overflow. -/
def CanSubst (l : Level) (σ : LevelSubst) : Prop :=
  match l with
  | .var v c _ => ∀ r, σ.get? v = some r → r.CanAdd c
  | _ => True

theorem extent_subst_var {c m : Int64} {r : Level} (hget : σ.get? v = some r)
    (h : CanSubst (.var v c m) σ) :
    ((Level.var v c m).subst σ).extent =
      if c < m then (r.extent.add c.toInt).atLeast m.toInt else r.extent.add c.toInt := by
  have hr := extent_add (h r hget)
  simp only [subst, hget]
  split
  · rw [extent_atLeast, hr]
  · rw [hr]

/-! ## Stability -/

/-- Whether the comparison `a ≤ b` rests on the variable of `b` not being negative. It does if
`b` has no bound above its constant and `a` has a number to stay above: a constant, or a
bound. -/
def RestsOnSign : Level → Level → Prop
  | .closed _, .var _ d n => n ≤ d
  | .var _ c m, .var _ d n => c < m ∧ n ≤ d
  | _, _ => False

/-- Nothing negative is put in place of the variable of `b` if `a ≤ b` rests on its sign. -/
def Supports (σ : LevelSubst) (a b : Level) : Prop :=
  RestsOnSign a b → ∀ r, b.replacement? σ = some r → r.extent.Nonneg

/-- A constant below a variable level stays below it. -/
theorem closed_below_subst {k : Int64} {d : Int64} (h : k.toInt ≤ max d.toInt n.toInt)
    (hb : CanSubst (.var v d n) σ) (hsign : n ≤ d → ∀ r, σ.get? v = some r → r.extent.Nonneg) :
    (Extent.closed k.toInt).Below ((Level.var v d n).subst σ).extent := by
  cases hget : σ.get? v with
  | none =>
    simp only [subst, hget]
    exact h
  | some r =>
    rw [extent_subst_var hget hb]
    split
    next hbound =>
      have hlt := Int64.lt_iff_toInt_lt.mp hbound
      exact Extent.closed_below_atLeast _ (by omega)
    next hbound =>
      have hle : n ≤ d := Int64.not_lt.mp hbound
      have hle' := Int64.le_iff_toInt_le.mp hle
      exact Extent.closed_below_add (hsign hle r hget) (by omega)

theorem le_subst (h : a.le b = .yes) (ha : a.CanSubst σ) (hb : b.CanSubst σ)
    (hsign : Supports σ a b) : (a.subst σ).le (b.subst σ) = .yes := by
  rw [le_eq_yes_iff] at h ⊢
  cases b with
  | infinity =>
    rw [show Level.subst .infinity σ = .infinity from rfl, extent]
    cases (a.subst σ).extent <;> trivial
  | closed d =>
    cases a with
    | infinity => exact h
    | closed c => exact h
    | var v c m => exact h.elim
  | var w d n =>
    cases a with
    | infinity => exact h.elim
    | closed k => exact closed_below_subst h hb hsign
    | var v c m =>
      obtain ⟨rfl, hc, hlow⟩ := h
      cases hget : σ.get? v with
      | none => simpa only [subst, hget] using ⟨rfl, hc, hlow⟩
      | some r =>
        -- first without the bounds, then with that of `b`, and that of `a` last
        have hplain : (r.extent.add c.toInt).Below ((Level.var v d n).subst σ).extent := by
          rw [extent_subst_var hget hb]
          split
          · exact (Extent.below_add_add r.extent hc).atLeast_right n.toInt
          · exact Extent.below_add_add r.extent hc
        rw [extent_subst_var hget ha]
        split
        next hbound =>
          have hlt := Int64.lt_iff_toInt_lt.mp hbound
          refine hplain.atLeast_left (closed_below_subst (by omega) hb fun hle => ?_)
          exact hsign ⟨hbound, hle⟩
        next => exact hplain

end Level

namespace USort

/-- Where nothing is left to an oracle, sorts are compared by what is decided about the levels. -/
theorem compare_le_eq (a b : USort) :
    compare .le a b = .ok (a.isProp || a.p.le b.p == .yes && a.h.le b.h == .yes) := by
  show compareWith.leWith (m := Except Fault) (fun _ _ _ => pure false) a b = _
  rw [compareWith.leWith]
  cases a.isProp with
  | true => rfl
  | false =>
    simp only [compareWith.levelsWith, Level.compareWith, Level.leWith_strict, bind, Except.bind]
    cases a.p.le b.p == .yes <;> rfl

/-- Comparing sorts comes down to comparing levels. -/
theorem compare_le_iff {a b : USort} :
    compare .le a b = .ok true ↔ a.isProp = true ∨ a.p.le b.p = .yes ∧ a.h.le b.h = .yes := by
  simp [compare_le_eq]

/-- Instantiating the sort does not overflow. -/
def CanSubst (s : USort) (σ : LevelSubst) : Prop := s.p.CanSubst σ ∧ s.h.CanSubst σ

/-- Nothing negative is put where the comparison `a ≤ b` rests on the sign of a variable. -/
def Supports (σ : LevelSubst) (a b : USort) : Prop :=
  a.isProp = true ∨ Level.Supports σ a.p b.p ∧ Level.Supports σ a.h b.h

/-- Sort comparison is stable under instantiation, unless a negative level takes the place of a
variable on whose sign the comparison rests. -/
theorem compare_le_instantiation {a b s : USort} (h : compare .le a b = .ok true)
    (ha : a.CanSubst s.instantiation) (hb : b.CanSubst s.instantiation)
    (hsign : Supports s.instantiation a b) :
    compare .le (a.subst s.instantiation) (b.subst s.instantiation) = .ok true := by
  have hprop (hp : a.isProp = true) :
      compare .le (a.subst s.instantiation) (b.subst s.instantiation) = .ok true := by
    refine compare_le_iff.mpr (.inl ?_)
    rw [isProp] at hp ⊢
    split at hp
    next c heq => rwa [subst, heq]
    next => cases hp
  obtain hp | ⟨hp, hh⟩ := compare_le_iff.mp h
  · exact hprop hp
  obtain hp' | ⟨hsp, hsh⟩ := hsign
  · exact hprop hp'
  · exact compare_le_iff.mpr (.inr ⟨Level.le_subst hp ha.1 hb.1 hsp, Level.le_subst hh ha.2 hb.2 hsh⟩)

end USort

namespace PropInstance

theorem canAdd_of_closed {c n : Int64} (h : Level.Representable c n) (r : Level)
    (hr : some (Level.closed c) = some r) : r.CanAdd n := by
  cases hr
  exact h

/-- The sort `\\Type (\\max lp 1, lh)`. -/
def bounded : USort := ⟨.var .predicative 0 1, .ofVar .homotopy⟩

/-- The sort `\\Type (lp+1, lh+1)`. -/
def raised : USort := ⟨.var .predicative 1 1, .var .homotopy 1 1⟩

/-- At `\\Prop`, the comparison of predicative levels rests on the sign of a variable that
becomes `0`, and the one of homotopy levels is between two levels that move alike. -/
theorem bounded_below_raised :
    USort.compare .le bounded raised = .ok true ∧
      USort.Supports USort.prop.instantiation bounded raised ∧
      USort.compare .le (bounded.subst USort.prop.instantiation)
        (raised.subst USort.prop.instantiation) = .ok true := by
  have hcompare : USort.compare .le bounded raised = .ok true := rfl
  have hsupports : USort.Supports USort.prop.instantiation bounded raised := by
    refine .inr ⟨fun _ r hr => ?_, fun hrests => ?_⟩
    · cases hr
      exact Int.le_refl 0
    · exact absurd hrests.1 (by decide)
  refine ⟨hcompare, hsupports, USort.compare_le_instantiation hcompare ⟨?_, ?_⟩ ⟨?_, ?_⟩ hsupports⟩
  · exact canAdd_of_closed (c := 0) (by decide)
  · exact canAdd_of_closed (c := -1) (by decide)
  · exact canAdd_of_closed (c := 0) (by decide)
  · exact canAdd_of_closed (c := -1) (by decide)

/-- Sets are below the standard sort, and not so for the instances of both at `\\Prop`. Nothing
overflows there. -/
theorem below_std_lost :
    USort.compare .le .set0 .std = .ok true ∧
      USort.CanSubst .set0 USort.prop.instantiation ∧
      USort.CanSubst .std USort.prop.instantiation ∧
      USort.compare .le (USort.set0.subst USort.prop.instantiation)
        (USort.std.subst USort.prop.instantiation) = .ok false := by
  refine ⟨rfl, ⟨trivial, trivial⟩, ⟨?_, ?_⟩, rfl⟩
  · exact canAdd_of_closed (c := 0) (by decide)
  · exact canAdd_of_closed (c := -1) (by decide)

end PropInstance

end Recheck
