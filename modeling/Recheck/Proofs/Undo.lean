import Recheck.Proofs.Outcome
import Mathlib.Data.List.Forall2
import Mathlib.Data.Option.Defs
import Mathlib.Logic.Relation

/-!
# Recheck — the log of a shared mapping

A substitution that is made of a shared mapping extends the mapping at every binder, and all that
refer to the mapping can see it. The mapping comes with a log of that. Its mark is taken where a
scope is entered, and when the scope is left the log is undone down to the mark.

* `Shared.Binds` says that a mapping has been extended, variable by variable. A variable may be
  mapped that was mapped before, also one that was mapped in the same scope.
* `Shared.Binds.release` is the result about the log: it gives back the mapping that it was
  started from, entry by entry and in the same order, and the log of that mapping.
* `Substitution.Entered` is the same for the store, of which only one mapping is extended, and
  `Substitution.Entered.release` what leaving a scope comes to.
-/

namespace Recheck

/-! ## Entries -/

namespace Mapping

variable {T : Type} {v : Variable} {t u : T} {es : List (Variable × T)}

/-- Mapping a variable to what it was mapped to gives back the entries. -/
theorem place_place (h : es.lookup v = some u) : place v u (place v t es) = es := by
  induction es with
  | nil => cases h
  | cons e es ih =>
    rw [List.lookup_cons] at h
    by_cases he : e.1 = v
    · obtain ⟨w, t'⟩ := e
      obtain rfl : w = v := he
      obtain rfl : t' = u := by simpa using h
      simp [place]
    · have hne : (v == e.1) = false := by simpa using Ne.symm he
      rw [hne] at h
      simp only [place, he, if_false, ih h]

/-- A variable that was not mapped has no entry but the new one. -/
theorem filter_place (h : es.lookup v = none) :
    (place v t es).filter (fun e => e.1 ≠ v) = es := by
  induction es with
  | nil => simp [place]
  | cons e es ih =>
    rw [List.lookup_cons] at h
    by_cases he : e.1 = v
    · simp [he] at h
    · have hne : (v == e.1) = false := by simpa using Ne.symm he
      rw [hne] at h
      rw [place, if_neg he, List.filter_cons_of_pos (by simpa using he), ih h]

theorem isEmpty_insert (m : Mapping T) : (m.insert v t).isEmpty = false := by
  obtain ⟨_ | ⟨e, es⟩⟩ := m
  · rfl
  · by_cases he : e.1 = v <;> simp [insert, isEmpty, place, he]

/-- Entries that are related stay so, if the variables stand at the same place. -/
theorem forall₂_place {R : Variable × T → Variable × T → Prop} {v' : Variable} {t' : T}
    {es' : List (Variable × T)} (h : List.Forall₂ R es es')
    (hkeys : ∀ e e', R e e' → (e.1 = v ↔ e'.1 = v')) (hnew : R (v, t) (v', t')) :
    List.Forall₂ R (place v t es) (place v' t' es') := by
  induction h with
  | nil => exact .cons hnew .nil
  | @cons e e' es es' he hes ih =>
    by_cases hv : e.1 = v
    · rw [place, place, if_pos hv, if_pos ((hkeys e e' he).mp hv)]
      exact .cons hnew hes
    · rw [place, place, if_neg hv, if_neg (hv ∘ (hkeys e e' he).mpr)]
      exact .cons he ih

end Mapping

/-! ## The log -/

namespace Shared

variable {m m' : Shared} {mark : Nat}

/-- The second mapping is the first one, extended one variable after the other. -/
def Binds : Shared → Shared → Prop := Relation.ReflTransGen fun m m' => ∃ v t, m' = m.bind v t

theorem release_self (m : Shared) : m.release m.mark = m := by
  obtain ⟨m, undo⟩ := m
  cases undo with
  | nil => rfl
  | cons e undo => simp [release, undoTo, Shared.mark]

/-- Undoing a log undoes its last entry first. -/
theorem release_bind (v : Variable) (t : Term) (h : mark ≤ m.mark) :
    (m.bind v t).release mark = m.release mark := by
  obtain ⟨⟨entries⟩, undo⟩ := m
  have hlog : ¬ undo.length < mark := Nat.not_lt.mpr h
  -- the new entry of the log says what the variable was mapped to before, if to anything
  cases hold : Mapping.get? ⟨entries⟩ v with
  | some u =>
    simp only [release, bind, undoTo, hlog, hold, if_false, Mapping.insert,
      Mapping.place_place hold]
  | none =>
    simp only [release, bind, undoTo, hlog, hold, if_false, Mapping.insert, Mapping.erase,
      Mapping.filter_place hold]

namespace Binds

theorem mark_le (h : Binds m m') : m.mark ≤ m'.mark := by
  induction h with
  | refl => exact Nat.le_refl _
  | tail _ h ih =>
    obtain ⟨v, t, rfl⟩ := h
    exact Nat.le_succ_of_le ih

/-- Undoing the log down to where it was gives back the mapping. -/
theorem release (h : Binds m m') : m'.release m.mark = m := by
  induction h with
  | refl => exact m.release_self
  | tail hm h ih =>
    obtain ⟨v, t, rfl⟩ := h
    rw [release_bind v t (mark_le hm), ih]

/-- Striking from the log what has come to it gives back the log. -/
theorem commit (h : Binds m m') : (m'.commit m.mark).undo = m.undo := by
  have hsuffix : m.undo <:+ m'.undo := by
    induction h with
    | refl => exact List.suffix_rfl
    | tail _ h ih =>
      obtain ⟨v, t, rfl⟩ := h
      exact ih.trans (List.suffix_cons _ _)
  exact (List.suffix_iff_eq_drop.mp hsuffix).symm

theorem rel_trans : ∀ {a b c : Option Shared}, Option.Rel Binds a b → Option.Rel Binds b c →
    Option.Rel Binds a c
  | _, _, _, .none, .none => .none
  | _, _, _, .some h, .some h' => .some (Relation.ReflTransGen.trans h h')

theorem rel_release : ∀ {a b : Option Shared}, Option.Rel Binds a b →
    b.map (Shared.release ((a.map Shared.mark).getD 0)) = a
  | _, _, .none => rfl
  | _, _, .some h => congrArg some h.release

theorem rel_commit : ∀ {a b : Option Shared}, Option.Rel Binds a b →
    (b.map (Shared.commit ((a.map Shared.mark).getD 0))).map Shared.undo = a.map Shared.undo
  | _, _, .none => rfl
  | _, _, .some h => congrArg some h.commit

end Binds

end Shared

/-! ## Scopes -/

/-- The shared mappings are the same, and so are their logs. -/
def Restored (s s' : Store) : Prop := ∀ i, s'.mappings.get? i = s.mappings.get? i

namespace Restored

variable {s s' s'' : Store}

theorem of_eq (h : s'.mappings = s.mappings) : Restored s s' := fun _ => by rw [h]

theorem trans (h : Restored s s') (h' : Restored s' s'') : Restored s s'' :=
  fun i => (h' i).trans (h i)

end Restored

namespace Substitution

variable {σ σ₁ : Substitution} {s s' s'' : Store} {i : Nat} {f : Shared → Shared}

theorem get?_onShared (hi : σ.shared = some i) :
    (σ.onShared f s).mappings.get? i = (s.mappings.get? i).map f := by
  rw [onShared, hi]
  dsimp only [Store.updateMapping]
  cases h : s.mappings.get? i with
  | none => exact h
  | some m => exact Table.get?_insert_self _ _ _

theorem get?_onShared_of_ne (hi : σ.shared ≠ some i) :
    (σ.onShared f s).mappings.get? i = s.mappings.get? i := by
  unfold onShared
  split
  · rfl
  next number hnumber =>
    unfold Store.updateMapping
    split
    · exact Table.get?_insert_of_ne _ _ fun heq => hi (heq ▸ hnumber)
    · rfl

theorem onShared_next (σ : Substitution) (f : Shared → Shared) (s : Store) :
    (σ.onShared f s).next = s.next := by
  unfold onShared Store.updateMapping
  split
  · rfl
  split <;> rfl

/-- Only the mapping that the substitution is made of, if it is shared, has been extended. -/
structure Entered (σ : Substitution) (s s' : Store) : Prop where
  others : ∀ i, σ.shared ≠ some i → s'.mappings.get? i = s.mappings.get? i
  own : ∀ i, σ.shared = some i → Option.Rel Shared.Binds (s.mappings.get? i) (s'.mappings.get? i)

namespace Entered

theorem of_restored (h : Restored s s') : σ.Entered s s' where
  others i _ := h i
  own i _ := by
    rw [h i]
    cases s.mappings.get? i with
    | none => exact .none
    | some m => exact .some .refl

theorem trans (h : σ.Entered s s') (h' : σ.Entered s' s'') : σ.Entered s s'' where
  others i hi := (h'.others i hi).trans (h.others i hi)
  own i hi := Shared.Binds.rel_trans (h.own i hi) (h'.own i hi)

theorem of_eq (h : σ.Entered s' s'') (hs : s'.mappings = s.mappings) : σ.Entered s s'' :=
  ⟨hs ▸ h.others, hs ▸ h.own⟩

theorem congr (h : σ₁.Entered s s') (hshared : σ₁.shared = σ.shared) : σ.Entered s s' :=
  ⟨hshared ▸ h.others, hshared ▸ h.own⟩

theorem bind (σ : Substitution) (v : Variable) (t : Term) (s : Store) :
    σ.Entered s (σ.onShared (fun m => m.bind v t) s) where
  others _ hi := get?_onShared_of_ne hi
  own i hi := by
    rw [get?_onShared hi]
    cases s.mappings.get? i with
    | none => exact .none
    | some m => exact .some (.single ⟨v, t, rfl⟩)

/-- When the scope is left that was entered at the first store, all mappings are as they were
there. -/
theorem release (h : σ.Entered s s') :
    Restored s (σ.onShared (Shared.release (σ.mark s)) s') := by
  intro i
  by_cases hi : σ.shared = some i
  · rw [get?_onShared hi, mark, hi]
    exact Shared.Binds.rel_release (h.own i hi)
  · exact (get?_onShared_of_ne hi).trans (h.others i hi)

/-- When the extensions are kept, the logs are as they were. -/
theorem commit (h : σ.Entered s s') (i : Nat) :
    ((σ.onShared (Shared.commit (σ.mark s)) s').mappings.get? i).map Shared.undo =
      (s.mappings.get? i).map Shared.undo := by
  by_cases hi : σ.shared = some i
  · rw [get?_onShared hi, mark, hi]
    exact Shared.Binds.rel_commit (h.own i hi)
  · rw [get?_onShared_of_ne hi, h.others i hi]

end Entered

end Substitution

end Recheck
