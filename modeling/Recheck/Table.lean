/-!
# Recheck — tables

A `Table` is a finite map from serial numbers, kept as a list of entries so that it can
be evaluated and reasoned about directly. An entry that is written twice is replaced.
-/

namespace Recheck

/-- A finite map from serial numbers. -/
structure Table (A : Type) where
  entries : List (Nat × A)

namespace Table

variable {A : Type}

def empty : Table A := ⟨[]⟩

instance : Inhabited (Table A) := ⟨empty⟩

/-- The entry under a key. -/
def get? (t : Table A) (key : Nat) : Option A := t.entries.lookup key

/-- The table without the entry under a key. -/
def erase (t : Table A) (key : Nat) : Table A :=
  ⟨t.entries.filter fun e => e.1 ≠ key⟩

/-- Writes an entry, in place of an earlier one under the same key. -/
def insert (t : Table A) (key : Nat) (a : A) : Table A :=
  ⟨(key, a) :: (t.erase key).entries⟩

/-- Filtering out one key leaves the entries under all others as they are. -/
theorem lookup_filter_ne {K : Type} [DecidableEq K] (entries : List (K × A)) {key k : K}
    (h : k ≠ key) : (entries.filter fun e => e.1 ≠ key).lookup k = entries.lookup k := by
  induction entries with
  | nil => rfl
  | cons e rest ih =>
    obtain ⟨j, a⟩ := e
    by_cases hj : j = key
    · have hk : (k == j) = false := by simp [hj, h]
      simp only [ne_eq, hj, not_true_eq_false, decide_false, Bool.false_eq_true,
        not_false_eq_true, List.filter_cons_of_neg]
      rw [List.lookup_cons, ← hj, hk]
      simpa [hj] using ih
    · have hf : List.filter (fun e => decide (e.1 ≠ key)) ((j, a) :: rest) =
          (j, a) :: List.filter (fun e => decide (e.1 ≠ key)) rest := by
        simp [hj]
      rw [hf, List.lookup_cons, List.lookup_cons, ih]

@[simp] theorem get?_empty (k : Nat) : (empty : Table A).get? k = none := rfl

@[simp] theorem get?_insert_self (t : Table A) (k : Nat) (a : A) :
    (t.insert k a).get? k = some a := by
  simp [get?, insert]

theorem get?_insert_of_ne (t : Table A) {key k : Nat} (a : A) (h : k ≠ key) :
    (t.insert key a).get? k = t.get? k := by
  have hk : (k == key) = false := by simp [h]
  simp only [get?, insert, erase, List.lookup_cons, hk]
  exact lookup_filter_ne t.entries h

end Table

end Recheck
