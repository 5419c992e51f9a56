import Recheck.Proofs.LevelAlgebra

/-!
# Recheck — the hierarchy of sorts

Comparison without a solver asks the same of the values of levels at every valuation
(`USort.compare_iff_holdsAt`). So it is an order with joins (`USort.max?_least_upper_bound`), in
which every sort is strictly below its successor (`USort.not_holdsAt_succ`).

The order is not the one of pairs of levels: a sort of propositions is below all others, at
whatever predicative level. What makes it an order still is that nothing but propositions is
below a sort of propositions (`USort.isProp_of_le`).
-/

namespace Recheck

/-- The relation between two values; a code that is none of the known ones relates nothing. -/
def Relation.Holds (x y : WithTop Int) : Relation → Prop
  | .eq => x = y
  | .le => x ≤ y
  | .ge => y ≤ x
  | .other _ => False

theorem Level.value_ne_top {l : Level} (h : l.isInfinity = false) (ρ : LevelVar → Nat) :
    l.value ρ ≠ ⊤ := by
  cases l with
  | infinity => cases h
  | closed | var => exact WithTop.coe_ne_top

namespace USort

variable {a b c s t m : USort} {ρ : LevelVar → Nat}

/-! ## Comparison by values -/

/-- Both pairs of levels are related by their values. -/
def LevelsHoldAt (ρ : LevelVar → Nat) (r : Relation) (a b : USort) : Prop :=
  r.Holds (a.p.value ρ) (b.p.value ρ) ∧ r.Holds (a.h.value ρ) (b.h.value ρ)

/-- What the comparison of two sorts asks of the values of their levels. -/
def HoldsAt (ρ : LevelVar → Nat) : Relation → USort → USort → Prop
  | .eq, a, b => a.isProp = true ∧ b.isProp = true ∨ LevelsHoldAt ρ .eq a b
  | .le, a, b => a.isProp = true ∨ LevelsHoldAt ρ .le a b
  | .ge, a, b => b.isProp = true ∨ LevelsHoldAt ρ .le b a
  | .other code, a, b => LevelsHoldAt ρ (.other code) a b

theorem compare_le_iff_holdsAt : compare .le a b = .ok true ↔ ∀ ρ, HoldsAt ρ .le a b := by
  rw [compare_le_iff, Level.le_eq_yes_iff_value, Level.le_eq_yes_iff_value, ← forall_and,
    ← forall_or_left]
  rfl

theorem compare_eq_iff : compare .eq a b = .ok true ↔
    a.isProp = true ∧ b.isProp = true ∨ a.p.equal b.p = true ∧ a.h.equal b.h = true := by
  have hlevels : compareWith.levelsWith (m := Except Fault) (fun _ _ _ => pure false) .eq a b =
      .ok (a.p.equal b.p && a.h.equal b.h) := by
    show (Level.compare .eq a.p b.p >>= fun p => if p then Level.compare .eq a.h b.h else _) = _
    rw [Level.compare_eq, Level.compare_eq]
    cases a.p.equal b.p <;> rfl
  have hcompare : compare .eq a b =
      .ok (a.isProp && b.isProp || a.p.equal b.p && a.h.equal b.h) := by
    rw [compare, compareWith, hlevels]
    cases a.isProp && b.isProp <;> rfl
  simp [hcompare]

/-- Sorts compare, without a solver, if their values do at every valuation. -/
theorem compare_iff_holdsAt (r : Relation) :
    compare r a b = .ok true ↔ ∀ ρ, HoldsAt ρ r a b := by
  cases r with
  | eq =>
    rw [compare_eq_iff, Level.equal_iff_value, Level.equal_iff_value, ← forall_and,
      ← forall_or_left]
    rfl
  | le => exact compare_le_iff_holdsAt
  | ge => exact compare_le_iff_holdsAt (a := b) (b := a)
  | other code => exact iff_of_false (by rintro ⟨⟩) fun h => (h fun _ => 0).1

/-! ## The order -/

/-- The homotopy level of propositions is below `-1`, and that of no other sort always is. -/
theorem isProp_iff_value : s.isProp = true ↔ ∀ ρ, s.h.value ρ ≤ (propLevel.toInt : WithTop Int) := by
  have hle : s.isProp = true ↔ s.h.le (.closed propLevel) = .yes := by
    rw [isProp]
    cases s.h with
    | infinity | var => simp [Level.le]
    | closed h => simp [Level.le]
  exact hle.trans Level.le_eq_yes_iff_value

/-- Nothing but propositions is below propositions. -/
theorem isProp_of_le (h : ∀ ρ, HoldsAt ρ .le a b) (hb : b.isProp = true) : a.isProp = true := by
  rcases forall_or_left.mp h with hprop | hlevels
  · exact hprop
  · exact isProp_iff_value.mpr fun ρ => (hlevels ρ).2.trans (isProp_iff_value.mp hb ρ)

theorem compare_le_refl (a : USort) : compare .le a a = .ok true :=
  compare_le_iff_holdsAt.mpr fun _ => .inr ⟨le_rfl, le_rfl⟩

theorem compare_le_trans (h : compare .le a b = .ok true) (h' : compare .le b c = .ok true) :
    compare .le a c = .ok true := by
  rw [compare_le_iff_holdsAt] at h h' ⊢
  by_cases ha : a.isProp = true
  · exact fun _ => .inl ha
  have hb : ¬ b.isProp = true := ha ∘ isProp_of_le h
  intro ρ
  obtain ⟨hp, hh⟩ := (h ρ).resolve_left ha
  obtain ⟨hp', hh'⟩ := (h' ρ).resolve_left hb
  exact .inr ⟨hp.trans hp', hh.trans hh'⟩

/-- Sorts are equal if each is below the other. -/
theorem compare_eq_iff_le_ge : compare .eq a b = .ok true ↔
    compare .le a b = .ok true ∧ compare .ge a b = .ok true := by
  simp only [compare_iff_holdsAt]
  constructor
  · intro h
    refine ⟨fun ρ => ?_, fun ρ => ?_⟩
    · exact (h ρ).imp And.left fun hlevels => ⟨hlevels.1.le, hlevels.2.le⟩
    · exact (h ρ).imp And.right fun hlevels => ⟨hlevels.1.ge, hlevels.2.ge⟩
  · rintro ⟨hle, hge⟩ ρ
    by_cases ha : a.isProp = true
    · exact .inl ⟨ha, isProp_of_le (a := b) (b := a) hge ha⟩
    · have hb : ¬ b.isProp = true := ha ∘ isProp_of_le hle
      obtain ⟨hp, hh⟩ := (hle ρ).resolve_left ha
      obtain ⟨hp', hh'⟩ := (hge ρ).resolve_left hb
      exact .inr ⟨hp.antisymm hp', hh.antisymm hh'⟩

/-! ## Joins -/

/-- The join with a sort of propositions is the other sort. The join of two others has the larger
values. -/
theorem max?_cases (h : s.max? t = some m) :
    s.isProp = true ∧ m = t ∨ t.isProp = true ∧ m = s ∨
      s.isProp = false ∧ t.isProp = false ∧ ∀ ρ,
        m.p.value ρ = max (s.p.value ρ) (t.p.value ρ) ∧
        m.h.value ρ = max (s.h.value ρ) (t.h.value ρ) := by
  rw [max?] at h
  split at h
  next hs => exact .inl ⟨hs, (Option.some.inj h).symm⟩
  next hs =>
    split at h
    next ht => exact .inr (.inl ⟨ht, (Option.some.inj h).symm⟩)
    next ht =>
      obtain ⟨p, hp, hbind⟩ := Option.bind_eq_some_iff.mp h
      obtain ⟨l, hl, hm⟩ := Option.bind_eq_some_iff.mp hbind
      cases hm
      refine .inr (.inr ⟨Bool.eq_false_iff.mpr hs, Bool.eq_false_iff.mpr ht, fun ρ => ?_⟩)
      exact ⟨Level.value_max? hp ρ, Level.value_max? hl ρ⟩

/-- The join of two levels is there unless they have different variables, and it has the larger
value. The join of two sorts, if it is there, is the least one that both are below. -/
theorem max?_least_upper_bound :
    (∀ a b : Level,
      (a.max? b = none ↔ ∃ v c m w d n, a = .var v c m ∧ b = .var w d n ∧ v ≠ w) ∧
      ∀ l, a.max? b = some l → ∀ ρ, l.value ρ = max (a.value ρ) (b.value ρ)) ∧
    ∀ s t m : USort, s.max? t = some m →
      compare .le s m = .ok true ∧ compare .le t m = .ok true ∧
      ∀ c, compare .le s c = .ok true → compare .le t c = .ok true →
        compare .le m c = .ok true := by
  refine ⟨fun a b => ⟨Level.max?_eq_none_iff, fun l => Level.value_max?⟩, fun s t m h => ?_⟩
  rcases max?_cases h with ⟨hs, rfl⟩ | ⟨ht, rfl⟩ | ⟨hs, ht, hvalues⟩
  · exact ⟨compare_le_iff.mpr (.inl hs), compare_le_refl m, fun c _ hc => hc⟩
  · exact ⟨compare_le_refl m, compare_le_iff.mpr (.inl ht), fun c hc _ => hc⟩
  simp only [compare_le_iff_holdsAt]
  refine ⟨fun ρ => .inr ?_, fun ρ => .inr ?_, fun c hsc htc ρ => .inr ?_⟩
  · rw [LevelsHoldAt, (hvalues ρ).1, (hvalues ρ).2]
    exact ⟨le_max_left _ _, le_max_left _ _⟩
  · rw [LevelsHoldAt, (hvalues ρ).1, (hvalues ρ).2]
    exact ⟨le_max_right _ _, le_max_right _ _⟩
  · have hs' := (hsc ρ).resolve_left (Bool.eq_false_iff.mp hs)
    have ht' := (htc ρ).resolve_left (Bool.eq_false_iff.mp ht)
    rw [LevelsHoldAt, (hvalues ρ).1, (hvalues ρ).2]
    exact ⟨max_le hs'.1 ht'.1, max_le hs'.2 ht'.2⟩

/-- The join of `\\max lp+2 5` and `\\max lp+3 4` is `\\max lp+3 5`, and the join of the sorts
`\\Type (\\max lp 1,lh)` and `\\Set2` is `\\Type (\\max lp 2,lh)`. -/
theorem max?_of_bounded :
    (Level.var .predicative 2 5).max? (.var .predicative 3 4) = some (.var .predicative 3 5) ∧
    (∀ ρ, (Level.var .predicative 3 5).value ρ =
      max ((Level.var .predicative 2 5).value ρ) ((Level.var .predicative 3 4).value ρ)) ∧
    max? ⟨.var .predicative 0 1, .ofVar .homotopy⟩ (ofSet 2) =
      some ⟨.var .predicative 0 2, .ofVar .homotopy⟩ ∧
    compare .le ⟨.var .predicative 0 1, .ofVar .homotopy⟩ ⟨.var .predicative 0 2, .ofVar .homotopy⟩ =
      .ok true ∧
    compare .le (ofSet 2) ⟨.var .predicative 0 2, .ofVar .homotopy⟩ = .ok true ∧
    compare .le ⟨.var .predicative 0 2, .ofVar .homotopy⟩ ⟨.var .predicative 1 4, .infinity⟩ =
      .ok true := by
  obtain ⟨hlevels, hsorts⟩ := max?_least_upper_bound
  obtain ⟨hleft, hright, hleast⟩ :=
    hsorts ⟨.var .predicative 0 1, .ofVar .homotopy⟩ (ofSet 2) _ rfl
  exact ⟨rfl, (hlevels _ _).2 _ rfl, rfl, hleft, hright, hleast _ rfl rfl⟩

/-! ## Successors -/

/-- The successor does not overflow. -/
def CanSucc (s : USort) : Prop := s.isProp = true ∨ s.p.CanAdd 1 ∧ s.h.CanAdd 1

instance (s : USort) : Decidable s.CanSucc := inferInstanceAs (Decidable (_ ∨ _))

/-- The successor of a sort that is not one of propositions is one up in both levels. -/
theorem value_succ (h : s.CanSucc) (hs : s.isProp = false) (ρ : LevelVar → Nat) :
    s.succ.p.value ρ = s.p.value ρ + 1 ∧ s.succ.h.value ρ = s.h.value ρ + 1 := by
  obtain ⟨hp, hh⟩ := h.resolve_left (Bool.eq_false_iff.mp hs)
  rw [succ, if_neg (Bool.eq_false_iff.mp hs)]
  exact ⟨Level.value_add hp ρ, Level.value_add hh ρ⟩

theorem compare_le_succ (h : s.CanSucc) : compare .le s s.succ = .ok true := by
  refine compare_le_iff_holdsAt.mpr fun ρ => ?_
  cases hs : s.isProp with
  | true => exact .inl hs
  | false =>
    obtain ⟨hp, hh⟩ := value_succ h hs ρ
    rw [HoldsAt, LevelsHoldAt, hp, hh]
    exact .inr ⟨le_add_of_nonneg_right zero_le_one, le_add_of_nonneg_right zero_le_one⟩

/-- A successor is not below the sort itself, at no values of the variables. -/
theorem not_holdsAt_succ (h : s.CanSucc) (hfinite : s.isOmega = false) (ρ : LevelVar → Nat) :
    ¬ HoldsAt ρ .le s.succ s := by
  cases hs : s.isProp with
  | true =>
    -- the successor is the sort of sets, whose homotopy level is above that of propositions
    rw [succ, if_pos hs]
    rintro (hprop | ⟨-, hh⟩)
    · cases hprop
    · have hlow : ((0 : Int) : WithTop Int) ≤ propLevel.toInt := le_trans hh (isProp_iff_value.mp hs ρ)
      exact absurd (WithTop.coe_le_coe.mp hlow) (by decide)
  | false =>
    rintro (hprop | ⟨hp, -⟩)
    · have hbelow := compare_le_iff_holdsAt.mp (compare_le_succ h)
      rw [isProp_of_le hbelow hprop] at hs
      cases hs
    · obtain ⟨n, hn⟩ := WithTop.ne_top_iff_exists.mp (Level.value_ne_top hfinite ρ)
      rw [Relation.Holds, (value_succ h hs ρ).1, ← hn] at hp
      have hlt : n + 1 ≤ n := WithTop.coe_le_coe.mp hp
      omega

theorem compare_succ_le (h : s.CanSucc) (hfinite : s.isOmega = false) :
    compare .le s.succ s = .ok false := by
  have hne : compare .le s.succ s ≠ .ok true := fun hle =>
    not_holdsAt_succ h hfinite (fun _ => 0) (compare_le_iff_holdsAt.mp hle _)
  rw [compare_le_eq] at hne ⊢
  exact congrArg Except.ok (Bool.eq_false_iff.mpr (hne ∘ congrArg Except.ok))

end USort
end Recheck
