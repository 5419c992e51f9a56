import Recheck.Proofs.Keeps.Observation
import Recheck.Typing.Declarations

/-!
# Recheck — looking at a term

Printing a term, asking whether and on what its reduction is stuck and searching it for
variables are not meant to change anything. All of them look behind delayed substitutions,
though, and they do so by carrying these out. A substitution that is carried out updates the
let clauses that it meets and strikes the variables that it replaces from the bounds of the
unknowns that it meets.

`look_spares` says what is safe from that: all solutions, every let clause that is not
referred to, and every unknown whose bounds are neither bound nor replaced.
`DelayedLook.look_narrows` shows that the rest is not. A search does not see all that a
substitution rewrites, either (`DelayedLook.find_misses_delayed`).
-/

namespace Recheck

/-- A way to look at a term. -/
inductive Look where
  | print
  | isWhnf
  | stuckOn
  | find (vars : List Variable)

/-- Looks at a term, for the effect on the store alone. -/
def Look.run (sig : Signature) (fuel : Nat) (t : Term) : Look → Core Unit
  | .print => do let _ ← t.print sig fuel
  | .isWhnf => do let _ ← t.isWhnf sig fuel
  | .stuckOn => do let _ ← t.stuckOn sig fuel
  | .find vars => do let _ ← t.find sig fuel vars

/-- The store that looking at a term leaves behind, whether it succeeds or fails. -/
def Look.after (look : Look) (sig : Signature) (fuel : Nat) (t : Term) (s : Store) : Store :=
  match look.run sig fuel t s with
  | .ok _ s => s
  | .error _ s => s

theorem Look.keeps_run {sig : Signature} {R : Region} {I : SolverState → Prop}
    (hI : Invariant sig R I) (hsig : sig.Within R) (fuel : Nat) {t : Term} (ht : t.Within R)
    (look : Look) : Preserves I (look.run sig fuel t) := by
  cases look with
  | print => exact (hI.print fuel ht).then_pure
  | isWhnf => exact (hI.isWhnf hsig fuel ht).then_pure
  | stuckOn => exact (hI.stuckOn hsig fuel ht).then_pure
  | find vars => exact (hI.find fuel vars ht).then_pure

/-! ## What is spared -/

/-- The unknown has no bounds that could be struck: it delays substitutions, or none of its
bounds is bound or replaced inside of the region. -/
def Unknown.Spared (R : Region) (u : Unknown) : Prop :=
  u.delaying = true ∨ ∀ x ∈ u.bounds, ¬ R.Binds x

/-- What the region does not touch is the same in the two stores. -/
structure Store.Spares (R : Region) (s s' : Store) : Prop where
  solutions : s'.solutions = s.solutions
  clause : ∀ n, ¬ R.refers n → s'.clauses.get? n = s.clauses.get? n
  unknown : ∀ n u, s.unknowns.get? n = some u → u.Spared R → s'.unknowns.get? n = some u

namespace Store.Spares

variable {R : Region} {s s' : Store}

theorem setClause (h : s.Spares R s') {n : Nat} (hn : R.refers n) (c : LetClause) :
    s.Spares R { s' with clauses := s'.clauses.insert n c } where
  solutions := h.solutions
  clause k hk := by
    have hne : k ≠ n := fun heq => hk (heq ▸ hn)
    rw [Table.get?_insert_of_ne _ _ hne]
    exact h.clause k hk
  unknown := h.unknown

/-- Nothing is struck from the bounds of an unknown that is spared. -/
theorem narrow (h : s.Spares R s') {n : Nat} {u : Unknown} {xs : List Var}
    (hu : s'.unknowns.get? n = some u) (hdelaying : u.delaying = false)
    (hxs : ∀ x ∈ xs, R.Binds x) :
    let narrowed := { u with bounds := u.bounds.filter fun x => x ∉ xs }
    s.Spares R { s' with unknowns := s'.unknowns.insert n narrowed } where
  solutions := h.solutions
  clause := h.clause
  unknown k v hv hspared := by
    have hv' := h.unknown k v hv hspared
    by_cases hk : k = n
    · subst hk
      -- the unknown is spared and does not delay, so none of its bounds is among the variables
      obtain rfl : u = v := Option.some.inj (hu.symm.trans hv')
      have hbounds : ∀ x ∈ u.bounds, ¬ R.Binds x :=
        hspared.resolve_left (by simp [hdelaying])
      have hall : u.bounds.filter (fun x => x ∉ xs) = u.bounds :=
        List.filter_eq_self.mpr fun x hx => by simpa using fun hmem => hbounds x hx (hxs x hmem)
      rw [Table.get?_insert_self, hall]
    · rw [Table.get?_insert_of_ne _ _ hk]
      exact hv'

theorem invariant (sig : Signature) (R : Region) (s : Store) :
    Invariant sig R (OnStore fun s' => Good R s' ∧ s.Spares R s') where
  good h := h.1
  number h := ⟨h.1.number, h.2.solutions, h.2.clause, h.2.unknown⟩
  define {s' _ c} h hc := by
    -- numbers that have not been handed out belong to every region
    have hspares := h.2.setClause (h.1.refers_fresh s'.next (Nat.le_refl _)) c
    exact ⟨h.1.number.setClause hc, hspares.solutions, hspares.clause, hspares.unknown⟩
  rewrite {_ _ q _ _ _} h₁ h hn hget he hrw :=
    ⟨(Good.invariant sig R).rewrite (q := q) h₁.1 h.1 hn hget he hrw, h.2.setClause hn _⟩
  narrow {_ q _ _ _} h hu hd hxs :=
    ⟨(Good.invariant sig R).narrow (q := q) h.1 hu hd hxs, h.2.narrow hu hd hxs⟩
  mapping {_ q _ _} h hm :=
    ⟨(Good.invariant sig R).mapping (q := q) h.1 hm, h.2.solutions, h.2.clause, h.2.unknown⟩

end Store.Spares

/-- Looking at a term, successfully or not, leaves all solutions as they are. Take any region
that the term, the declarations and the store keep to: then each let clause that the region
does not refer to is left alone, and so is each unknown none of whose bounds it binds or
replaces. -/
theorem look_spares (sig : Signature) (fuel : Nat) (t : Term) (s : Store) (R : Region)
    (look : Look) (hsig : sig.Within R) (ht : t.Within R) (hs : Good R s) :
    s.Spares R (look.after sig fuel t s) := by
  -- the invariant compares the store with the first one, so it is the statement at the end
  have hkeeps := look.keeps_run (Store.Spares.invariant sig R s) hsig fuel ht HasStore.frame s
    ⟨hs, rfl, fun _ _ => rfl, fun _ _ hu _ => hu⟩
  rw [Look.after]
  cases hr : look.run sig fuel t s with
  | ok a s' => rw [hr] at hkeeps; exact hkeeps.1.2
  | error e s' => rw [hr] at hkeeps; exact hkeeps.2

/-! ## An unknown behind a delayed substitution -/

namespace DelayedLook

def x : Var := ⟨13, .param, "x"⟩

def y : Var := ⟨14, .param, "y"⟩

/-- An unknown that delays substitutions. It may depend on `x`, and it is solved by `?w`. -/
def v : Var := ⟨15, .unknown, "?v"⟩

def w : Var := ⟨16, .unknown, "?w"⟩

def nat : Term := .mk 17 .nat

def occurrenceOfW : Term := .mk 19 (.unknown w)

/-- The term `?v[x := zero]`. -/
def term : Term :=
  .mk 20 (.delayed (.mk 18 (.unknown v))
    (.own ⟨[(.local x, .mk 21 .zero)]⟩) default)

/-- The term `(\lam (y : Nat) => ?w) ?v[x := zero]`. -/
def application : Term :=
  .mk 22 (.app (.mk 23 (.lam .set0 [⟨y, some nat, true⟩] occurrenceOfW)) term)

/-- A store in which `?w` may depend on a variable. -/
def store (z : Var) : Store :=
  { Store.start 24 with
    unknowns := (Table.empty.insert 15 ⟨some nat, [x], true, default, false⟩).insert 16
      ⟨some nat, [z], false, default, false⟩
    solutions := Table.empty.insert 18 occurrenceOfW }

def bounds (s : Store) : Option (List Var) := (s.unknowns.get? 16).map Unknown.bounds

/-- Whether the application passes the check. -/
def accepts (traceDepth : Int64) : Bool :=
  Check.succeeds ((⟨Prelude.signature, default, traceDepth⟩ : Checker).check 20 ⟨[]⟩ application none)
    (.ofStore (store x))

/-- Whichever way one looks at `?v[x := zero]`, the variable `x` is struck from the bounds of
`?w`. If `?w` may depend on `x`, then it is not well-scoped in the empty context; but a trace
of the check prints the argument first. -/
theorem look_narrows :
    (∀ look ∈ [Look.print, .isWhnf, .stuckOn, .find [.local y]],
        bounds (look.after Prelude.signature 10 term (store x)) = some []) ∧
      bounds (store x) = some [x] ∧ accepts 0 = false ∧ accepts (-1) = true := by
  decide +kernel

/-- What a search for `y` finds in a term, its text, and its text with `zero` for `y`. -/
def around (t : Term) : Core (Option Variable × String × String) := do
  let found ← t.find Prelude.signature 10 [.local y]
  let text ← t.print Prelude.signature 10
  let copy ← t.subst Prelude.signature 10 (.single y (.mk 21 .zero))
  return (found, text, ← copy.print Prelude.signature 10)

/-- A search does not look at the values of a substitution that waits for an unknown. -/
theorem find_misses_delayed :
    let value : Term := .mk 22 (.ref y)
    let t : Term := .mk 20 (.delayed (.mk 18 (.unknown v)) (.own (.single (.local x) value)) default)
    (around t).run' { store x with solutions := .empty } =
      some (none, "?v[x := y]", "?v[x := zero]") := by
  decide +kernel

/-- Nothing but new clauses may be referred to, and all variables but `y` may be bound. -/
def region : Region := ⟨fun n => 24 ≤ n, fun n => n ≠ 14⟩

theorem term_within : term.Within region := by
  simp [term, x, MappingRef.parts, Mapping.parts, Region.Binds, region]

theorem store_good : Good region (store y) where
  clause := nofun
  solution := Table.forall_insert (P := fun _ t => Term.Within region t)
    (by simp [Table.empty, Table.get?]) (by simp [occurrenceOfW])
  unknown n u t hu htype := by
    have hnat : nat.Within region := by simp [nat]
    have hall := Table.forall_insert (P := fun _ u => Unknown.type u = some nat)
      (Table.forall_insert (by simp [Table.empty, Table.get?]) rfl) rfl n u hu
    exact Option.some.inj (hall.symm.trans htype) ▸ hnat
  mapping := nofun
  refers_fresh _ hn := hn
  binds_fresh n hn heq := by
    subst heq
    exact absurd hn (by decide)

theorem signature_within : Signature.Within region default :=
  Signature.within_of_entries ⟨(by decide : 0 ≠ 14), nofun⟩ (List.forall_mem_nil _)
    (List.forall_mem_nil _) (List.forall_mem_nil _) (List.forall_mem_nil _)
    (List.forall_mem_nil _)

/-- If `?w` may depend on `y` instead, then printing the term spares its bounds. -/
theorem look_spares_bounds :
    bounds (Look.print.after default 10 term (store y)) = some [y] := by
  have hspares := look_spares default 10 term (store y) region .print signature_within term_within
    store_good
  have hbounds : ∀ z ∈ [y], ¬ region.Binds z := by simp [Region.Binds, region, y]
  rw [bounds, hspares.unknown 16 ⟨some nat, [y], false, default, false⟩ rfl (.inr hbounds)]
  rfl

end DelayedLook

end Recheck
