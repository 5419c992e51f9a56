import Recheck.Proofs.Outcome
import Recheck.Proofs.Scope.Passes
import Mathlib.Logic.Relation

/-!
# Recheck — solutions over sequences of comparisons

Comparisons share one state, and each of them can solve occurrences of unknowns. What holds
after any number of them:

* `compare_solution_unique`: an occurrence that is solved stays solved, and by the same term.
  This is a fact about occurrences. Two occurrences of one unknown are solved independently
  of each other, and by terms that need not be equal.

What a solution reads as is another matter. It is looked through once, when it is assigned, and
only as it reads then: later solutions, and the values of delayed substitutions, can lead it out of
the bounds of its unknown and back to the unknown itself (`LaterSolutions`). A solution that is out
of bounds changes what a pattern binds (`EscapedSolution`), and what is put off under binders is
put off without them (`BoundOccurrence`).
-/

namespace Recheck

variable {I : SolverState → Prop} {st st' : SolverState} {sig : Signature} {s s' s₀ : Store}
  {t : Term} {n stamp : Nat}

/-! ## Sequences of comparisons -/

/-- The state that an operation leaves behind, whether it succeeds or fails. -/
def Solver.stateAfter {A : Type} (x : Solver A) (st : SolverState) : SolverState :=
  match x st with
  | .ok _ st => st
  | .error _ st => st

/-- One comparison leads from the first state to the second one, whatever its answer. -/
inductive Compares (sig : Signature) (st : SolverState) : SolverState → Prop where
  | run (fuel : Nat) (span : Span) (r : Relation) (a b : Term) (type : Option Term) :
      Compares sig st ((Solver.compare sig fuel span r a b type).stateAfter st)

theorem Keeps.stateAfter {A : Type} {x : Solver A} {Q : A → Prop} (h : Keeps I x Q) (hst : I st) :
    I (x.stateAfter st) := by
  have hx := h () st hst
  rw [Solver.stateAfter]
  cases hr : x st with
  | ok a st' =>
    rw [hr] at hx
    exact hx.1
  | error e st' =>
    rw [hr] at hx
    exact hx

/-- An invariant of comparisons holds after any number of them. -/
theorem ComparisonInvariant.compares (hI : ComparisonInvariant sig .unrestricted I)
    (h : Relation.ReflTransGen (Compares sig) st st') (hst : I st) : I st' := by
  induction h with
  | refl => exact hst
  | tail _ hstep ih =>
    cases hstep with
    | run fuel span r a b type =>
      have hkeeps := hI.compare (Region.signature_unrestricted sig) fuel span r type
        (Region.within_unrestricted a) (Region.within_unrestricted b)
      exact hkeeps.stateAfter ih

/-! ## Solutions stay -/

theorem Store.Extends.refl (s : Store) : s.Extends s := fun _ _ hu => hu

theorem Store.Extends.trans {s₁ s₂ s₃ : Store} (h₁ : s₁.Extends s₂) (h₂ : s₂.Extends s₃) :
    s₁.Extends s₃ := fun n u hu => h₂ n u (h₁ n u hu)

/-- Solving an occurrence that is not solved yet changes no other solution. -/
theorem Store.Extends.solve (t : Term) (h : s.solutions.get? n = none) :
    s.Extends { s with solutions := s.solutions.insert n t } := by
  intro m u hu
  have hne : m ≠ n := by
    intro heq
    rw [heq, h] at hu
    cases hu
  show (s.solutions.insert n t).get? m = some u
  rw [Table.get?_insert_of_ne _ _ hne]
  exact hu

/-- That the solutions of an earlier store are still there is an invariant. -/
theorem Store.Extends.solverInvariant (sig : Signature) (s₀ : Store) :
    SolverInvariant sig .unrestricted (OnStore s₀.Extends) where
  good _ := Region.good_unrestricted _
  number h := h
  define h _ := h
  rewrite _ h _ _ _ _ := h
  narrow h _ _ _ := h
  mapping h _ := h
  defer _ h _ := h
  deferLevel _ h _ := h
  solve h _ hnone _ := h.trans (.solve _ hnone)

theorem compares_extends (h : Relation.ReflTransGen (Compares sig) st st') :
    st.store.Extends st'.store :=
  (Store.Extends.solverInvariant sig st.store).comparison.compares h (.refl _)

/-- An occurrence has one solution: what solves it after some comparisons still solves it
after any number of others, and every comparison identifies the two. -/
theorem compare_solution_unique (sig : Signature) (st st' : SolverState)
    (h : Relation.ReflTransGen (Compares sig) st st') (ref u u' : Term)
    (hu : st.store.solutions.get? ref.stamp = some u)
    (hu' : st'.store.solutions.get? ref.stamp = some u') :
    u' = u ∧ ∀ fuel span r type st'', Solver.compare sig (fuel + 1) span r u u' type st'' =
      .ok true st'' := by
  have hstays := compares_extends h ref.stamp u hu
  rw [hu'] at hstays
  obtain rfl : u' = u := Option.some.inj hstays
  refine ⟨rfl, fun fuel span r type st'' => ?_⟩
  have hsame : u'.same u' = true := by simp [Term.same]
  rw [Solver.compare, Conversion.run, Conversion.step, if_pos hsame]
  rfl

/-! ## Two occurrences of one unknown -/

namespace TwoOccurrences

/-- An unknown number, which occurs twice. -/
def v : Var := ⟨13, .unknown, "?v"⟩

def first : Term := .mk 14 (.unknown v)

def second : Term := .mk 15 (.unknown v)

def zero : Term := .mk 16 .zero

def one : Term := .mk 17 (.suc zero)

def start : SolverState :=
  .ofStore { Store.start 18 with
    unknowns := Table.empty.insert 13 ⟨none, [], false, default, false⟩ }

/-- A comparison for equality. -/
def compare (a b : Term) : Solver Bool :=
  Solver.compare Prelude.signature 10 default .eq a b none

/-- Both occurrences have been compared with each other and then with different numbers. -/
def after : SolverState :=
  (compare second one).stateAfter ((compare first zero).stateAfter
    ((compare first second).stateAfter start))

theorem compares_after :
    Relation.ReflTransGen (Compares Prelude.signature) start after :=
  ((Relation.ReflTransGen.single (.run 10 default .eq first second none)).tail
    (.run 10 default .eq first zero none)).tail (.run 10 default .eq second one none)

/-- The answer of a comparison. -/
def answer (a b : Term) (st : SolverState) : Option Bool := (compare a b).run' st

/-- The two occurrences are equal as long as neither is solved. Each can then be solved by a
number of its own, and they are no longer equal. -/
theorem occurrences_solved_apart :
    answer first second start = some true ∧
      Relation.ReflTransGen (Compares Prelude.signature) start after ∧
      after.store.solutions.get? first.stamp = some zero ∧
      after.store.solutions.get? second.stamp = some one ∧
      answer zero one after = some false ∧ answer first second after = some false :=
  ⟨by decide +kernel, compares_after, rfl, rfl, by decide +kernel, by decide +kernel⟩

/-- A comparison of the first occurrence with the other number leaves its solution as it
is. -/
theorem first_solution_unique :
    Relation.ReflTransGen (Compares Prelude.signature) after
        ((compare first one).stateAfter after) ∧
      ((compare first one).stateAfter after).store.solutions.get? first.stamp = some zero ∧
      ∀ fuel span r type st, Solver.compare Prelude.signature (fuel + 1) span r zero zero type st =
        .ok true st := by
  have hrun : Relation.ReflTransGen (Compares Prelude.signature) after
      ((compare first one).stateAfter after) := .single (.run 10 default .eq first one none)
  have hunique := compare_solution_unique Prelude.signature after _ hrun first zero zero rfl rfl
  exact ⟨hrun, rfl, hunique.2⟩

end TwoOccurrences

namespace BoundOccurrence

open TwoOccurrences (compare answer)

def x : Var := ⟨14, .param, "x"⟩

def y : Var := ⟨15, .param, "y"⟩

/-- An occurrence of an unknown that may refer to `x` and `y`. -/
def unknown : Term := .mk 16 (.unknown ⟨13, .unknown, "?v"⟩)

def reference : Term := .mk 17 (.ref y)

/-- The functions `\lam x => ?v` and `\lam y => y`. -/
def a : Term := .mk 18 (.lam .set0 [⟨x, some (.mk 19 .nat), true⟩] unknown)

def b : Term := .mk 20 (.lam .set0 [⟨y, some (.mk 19 .nat), true⟩] reference)

def start : SolverState :=
  .ofStore { Store.start 22 with
    unknowns := Table.empty.insert 13 ⟨some (.mk 19 .nat), [x, y], false, default, false⟩ }

/-- The unknown is found to be `x` after the functions have been compared. -/
def solved : SolverState :=
  let s := ((compare a b).stateAfter start).store
  .ofStore { s with solutions := s.solutions.insert 16 (.mk 21 (.ref x)) }

/-- What is put off under binders does not say which variables correspond there. If the unknown is
`x`, then the functions are equal, and the two sides that were put off are not. -/
theorem equation_loses_binders :
    answer a b start = some true ∧
      ((compare a b).stateAfter start).equations.deferred.map (fun e => (e.a, e.b)) =
        [(unknown, reference)] ∧
      answer a b solved = some true ∧
      ((compare a b).stateAfter solved).equations.deferred.length = 0 ∧
      answer unknown reference solved = some false :=
  ⟨by decide +kernel, rfl, by decide +kernel, by decide +kernel, by decide +kernel⟩

end BoundOccurrence

namespace EscapedSolution

open TwoOccurrences (compare answer)

def x : Var := ⟨13, .param, "x"⟩

def y : Var := ⟨14, .param, "y"⟩

/-- An occurrence of an unknown that may not refer to any variable. -/
def first : Term := .mk 15 (.unknown ⟨16, .unknown, "?v"⟩)

/-- An occurrence of an unknown that delays substitutions and may refer to `x`. -/
def second : Term := .mk 17 (.unknown ⟨18, .unknown, "?w"⟩)

/-- The term `?w[x := y]`. -/
def delayed : Term :=
  .mk 19 (.delayed second (.own (.single (.local x) (.mk 20 (.ref y)))) .empty)

/-- The argument `(\lam (y : Nat) => suc ?v) zero`. -/
def arg : Term :=
  let function : Term :=
    .mk 21 (.lam .set0 [⟨y, some (.mk 22 .nat), true⟩] (.mk 23 (.suc first)))
  .mk 24 (.app function (.mk 25 .zero))

def start : SolverState :=
  let unknowns := (Table.empty.insert 16 ⟨none, [], false, default, false⟩).insert 18
    ⟨none, [x], true, default, false⟩
  .ofStore { Store.start 29 with unknowns }

/-- First `?v` is found to be `?w[x := y]`, and then `?w` to be `x`. -/
def solved : SolverState :=
  (compare second (.mk 26 (.ref x))).stateAfter ((compare first delayed).stateAfter start)

/-- The text of what the pattern `suc k` binds in the argument. -/
def bound : Core (Option String) := do
  let k : Var := ⟨27, .param, "k"⟩
  match ← matchPatterns Prelude.signature 10 [.con Prelude.suc [.bind k (.mk 28 .nat)]] [arg] with
  | .yes m => (m.get? (.local k)).mapM (Term.print Prelude.signature 10)
  | _ => return none

/-- The pattern binds `?v`. That is found to be `y`, and then the pattern binds `zero`: what is put
for the parameter of the function is put into the solution. -/
theorem binding_changes :
    answer first delayed start = some true ∧ bound.run' start.store = some (some "?v") ∧
      (first.print Prelude.signature 10).run' solved.store = some "y" ∧
      bound.run' solved.store = some (some "zero") := by
  decide +kernel

end EscapedSolution

/-! ## Solutions that lead to later ones -/

/-- Reading a term leads to another one, in one step: to a part of it, to the definition of one of
its let clauses, or to the solution of an unknown. -/
inductive Leads (sig : Signature) (s : Store) : Term → Term → Prop where
  | part {stamp : Nat} {n : Node Term} {t : Term} (ht : .term t ∈ n.searched sig) :
      Leads sig s (.mk stamp n) t
  | definition {stamp : Nat} {strict : Bool} {xs : List Var} {body : Term} {x : Var}
      {c : LetClause} (hx : x ∈ xs) (hc : s.clauses.get? x.serial = some c) :
      Leads sig s (.mk stamp (.letIn strict xs body)) c.expr
  | solution {stamp : Nat} {v : Var} {u : Term} (hu : s.solutions.get? stamp = some u) :
      Leads sig s (.mk stamp (.unknown v)) u

/-- The variable occurs in the term, read in the store: as a reference, or as an unknown that is
not solved. -/
def Mentions (sig : Signature) (s : Store) (t : Term) (x : Var) : Prop :=
  ∃ u, Relation.ReflTransGen (Leads sig s) t u ∧
    (u.node = .ref x ∨ u.node = .unknown x ∧ s.solutions.get? u.stamp = none)

namespace LaterSolutions

/-- A variable. -/
def x : Var := ⟨15, .param, "x"⟩

/-- An unknown that may not refer to any variable. -/
def v : Var := ⟨13, .unknown, "?v"⟩

/-- An unknown that may refer to `x`. -/
def w : Var := ⟨14, .unknown, "?w"⟩

def occurrenceOfV : Term := .mk 16 (.unknown v)

def otherOfV : Term := .mk 17 (.unknown v)

def occurrenceOfW : Term := .mk 18 (.unknown w)

def reference : Term := .mk 20 (.ref x)

def start : SolverState :=
  let unknowns := (Table.empty.insert 13 ⟨none, [], false, default, false⟩).insert 14
    ⟨none, [x], false, default, false⟩
  .ofStore { Store.start 22 with unknowns }

/-- First `?v` is found to be the successor of `?w`, and then `?w` to be the given term. -/
def solvedBy (t : Term) : SolverState :=
  (TwoOccurrences.compare occurrenceOfW t).stateAfter
    ((TwoOccurrences.compare occurrenceOfV (.mk 19 (.suc occurrenceOfW))).stateAfter start)

theorem compares_solvedBy (t : Term) :
    Relation.ReflTransGen (Compares Prelude.signature) start (solvedBy t) :=
  (Relation.ReflTransGen.single (.run 10 default .eq _ _ none)).tail (.run 10 default .eq _ _ none)

theorem leads_suc (stamp : Nat) (t : Term) (s : Store) :
    Leads Prelude.signature s (.mk stamp (.suc t)) t := .part (by simp)

/-- If `?w` is `x`, then the solution of `?v` leads to `x`, which is not in the bounds of
`?v`. If `?w` is the successor of another occurrence of `?v`, then the solution of `?v` leads
to `?v`. -/
theorem solution_leads_out_of_bounds :
    (Relation.ReflTransGen (Compares Prelude.signature) start (solvedBy reference) ∧
      (solvedBy reference).store.solutions.get? occurrenceOfV.stamp =
        some (.mk 19 (.suc occurrenceOfW)) ∧
      Occurs Prelude.signature Node.lexical (fun _ => False) (solvedBy reference).store
        (.mk 19 (.suc occurrenceOfW)) x ∧
      (start.store.unknowns.get? v.serial).map Unknown.bounds = some []) ∧
    (Relation.ReflTransGen (Compares Prelude.signature) start (solvedBy (.mk 21 (.suc otherOfV))) ∧
      (solvedBy (.mk 21 (.suc otherOfV))).store.solutions.get? occurrenceOfV.stamp =
        some (.mk 19 (.suc occurrenceOfW)) ∧
      Mentions Prelude.signature (solvedBy (.mk 21 (.suc otherOfV))).store
        (.mk 19 (.suc occurrenceOfW)) v) := by
  refine ⟨⟨compares_solvedBy _, rfl, ?_, rfl⟩, compares_solvedBy _, rfl, ?_⟩
  · refine .part (p := ([], occurrenceOfW)) (by simp [unscoped])
      (by simp) ?_
    exact .solution (u := reference) rfl .ref
  · refine ⟨otherOfV, ?_, .inr ⟨rfl, rfl⟩⟩
    exact .head (leads_suc 19 _ _) (.head (.solution (u := .mk 21 (.suc otherOfV)) rfl)
      (.single (leads_suc 21 _ _)))

end LaterSolutions

end Recheck
