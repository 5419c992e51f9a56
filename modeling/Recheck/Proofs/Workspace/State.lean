import Mathlib.Data.Finset.Basic
import Recheck.Typing.Monad

/-!
# Recheck — the workspace of a checker

The rules of the checker hand scopes down: what is in scope is an argument, and going back to
the scope from before takes nothing. A checker that is used for many checks has one context
instead and changes it in place. It brings variables into scope as it meets binders, and has to
take them out again whichever way a rule is left.

`Workspace` is what such a checker changes: the set of the variables in scope and the stack of
them in the order in which they came, the inferred types of let clauses, and the indentation
and the bullet of the trace. There are four changes to it. A variable is pushed, the latest one is
popped, the type of a let clause is noted or forgotten, and the trace goes one level deeper
or comes back. A scope is left by `release`, which pops the variables since a mark. Some rules
release on every way out, by `deferring`, and some only when they succeed, and then it is left
to a rule further out.

`Ledger` keeps every workspace that there ever was, so that what holds throughout a check can
be said of it.
-/

namespace Recheck

/-- What a checker changes as it goes. -/
structure Workspace where
  /-- The variables in scope. -/
  bound : Finset Var
  /-- The variables in scope with their types, the latest first. -/
  stack : List ContextEntry
  /-- The types of let clauses that were declared without one. -/
  inferred : List (Var × Term)
  /-- The indentation of the next line of the trace. -/
  indent : Nat
  /-- The number of the next bullet of the trace. -/
  bullet : Nat

namespace Workspace

/-- The variables on the stack, the latest first. -/
def vars (w : Workspace) : List Var := w.stack.map ContextEntry.var

/-- What is in scope, as the rules are told. -/
def scope (w : Workspace) : Scope := ⟨⟨w.stack⟩, w.inferred, w.indent⟩

/-- The workspace of a checker over a context, between two checks. -/
def ofContext (Γ : Context) : Workspace := ⟨Γ.vars.toFinset, Γ.entries, [], 0, 0⟩

/-- Brings a variable into scope. -/
def push (e : ContextEntry) (w : Workspace) : Workspace :=
  { w with bound := insert e.var w.bound, stack := e :: w.stack }

/-- Takes the latest variable out of scope. -/
def pop (w : Workspace) : Workspace :=
  match w.stack with
  | [] => w
  | e :: rest => { w with bound := w.bound.erase e.var, stack := rest }

/-- Forgets the type of a let clause. -/
def forget (x : Var) (w : Workspace) : Workspace :=
  { w with inferred := w.inferred.filter fun e => e.1 ≠ x }

/-- Notes the type of a let clause, in place of an earlier one. -/
def note (x : Var) (type : Term) (w : Workspace) : Workspace :=
  { w with inferred := (x, type) :: (w.forget x).inferred }

/-- Goes one level deeper in the trace. -/
def deepen (w : Workspace) : Workspace := { w with indent := w.indent + 1, bullet := w.bullet + 1 }

/-- Comes back to the level above. -/
def lift (w : Workspace) : Workspace := { w with indent := w.indent - 1, bullet := w.bullet - 1 }

end Workspace

/-- A workspace and all the workspaces before it, the latest first. -/
structure Ledger where
  space : Workspace
  past : List Workspace

namespace Ledger

def change (f : Workspace → Workspace) (l : Ledger) : Ledger := ⟨f l.space, l.space :: l.past⟩

/-- Pops a number of variables. -/
def popMany : Nat → Ledger → Ledger
  | 0, l => l
  | n + 1, l => popMany n (l.change .pop)

/-- Pops the variables since the stack had the given length. -/
def release (mark : Nat) (l : Ledger) : Ledger := l.popMany (l.space.stack.length - mark)

end Ledger

/-- What a check with a workspace changes. -/
structure WorkState where
  check : CheckState
  ledger : Ledger

/-- Checks with a workspace. -/
abbrev Work := EStateM Failure WorkState

namespace Work

/-- A check that does not touch the workspace. -/
def ofCheck {A : Type} (x : Check A) : Work A := fun s =>
  match x s.check with
  | .ok a check => .ok a { s with check }
  | .error e check => .error e { s with check }

instance : MonadLift Check Work := ⟨ofCheck⟩

def space : Work Workspace := return (← get).ledger.space

def change (f : Workspace → Workspace) : Work Unit :=
  modify fun s => { s with ledger := s.ledger.change f }

/-- The length of the stack, to release to later. -/
def mark : Work Nat := return (← space).stack.length

def release (mark : Nat) : Work Unit :=
  modify fun s => { s with ledger := s.ledger.release mark }

/-- Runs an operation and cleans up behind it, also if it fails. -/
def deferring {A : Type} (cleanup : Ledger → Ledger) (x : Work A) : Work A := fun s =>
  match x s with
  | .ok a s => .ok a { s with ledger := cleanup s.ledger }
  | .error e s => .error e { s with ledger := cleanup s.ledger }

/-- Leaves the scope of an operation on every way out. -/
def enclosed {A : Type} (x : Work A) : Work A := do
  let m ← mark
  deferring (Ledger.release m) x

/-- Leaves the scope of an operation when it succeeds. -/
def released {A : Type} (x : Work A) : Work A := do
  let m ← mark
  let a ← x
  release m
  return a

/-- Brings a variable into scope. The error, if it already is, is about `t`. -/
def add (k : Checker) (x : Var) (type : Option Term) (t : Term) : Work Unit := do
  if x ∈ (← space).bound then
    refuse ((k.about .alreadyBound t).note s!"{x.name} is already bound")
  change (.push ⟨x, type⟩)

/-- A line of the trace at the present indentation. -/
def line (w : Workspace) (text : String) : String :=
  let indent := "".pushn '\t' w.indent
  let text := (text.dropSuffix "\n").toString.replace "\n" ("\n" ++ indent ++ "  ")
  indent ++ Trace.bullet w.bullet ++ " " ++ text

/-- Runs a check one level deeper in the trace, under a line with the given text. -/
def item {A : Type} (k : Checker) (text : Check String) (body : Work A) : Work A := do
  let w ← space
  if Trace.reaches k.traceDepth w.indent then
    let text ← text
    modify fun s => { s with check.trace := s.check.trace.push (line w text) }
  change .deepen
  deferring (Ledger.change .lift) body

end Work

/-! ## What holds throughout -/

namespace Workspace

/-- The set of the variables in scope is the set of those on the stack, and none of them is on
it twice. -/
structure Consistent (w : Workspace) : Prop where
  bound : w.bound = w.vars.toFinset
  nodup : w.vars.Nodup

/-- A consistent workspace in which at least the variables of `w₀` are in scope. -/
structure Over (w₀ w : Workspace) : Prop where
  consistent : w.Consistent
  stack : w₀.stack <:+ w.stack

/-- A workspace that rules can start from: types are noted only of let clauses in scope, and
there is one bullet for each step of the indentation. -/
structure Settled (w : Workspace) : Prop where
  consistent : w.Consistent
  inferred : ∀ e ∈ w.inferred, e.1 ∈ w.bound
  bullet : w.bullet = w.indent

/-- What a rule that opens a scope makes of the workspace `w₀`. -/
structure Opened (w₀ w : Workspace) : Prop where
  settled : w.Settled
  stack : w₀.stack <:+ w.stack
  inferred : w.inferred = w₀.inferred
  indent : w.indent = w₀.indent

/-- What a rule that fails may make of the workspace `w₀`: there can be more variables in scope,
but everything else that it noted is undone. -/
structure Abandoned (w₀ w : Workspace) : Prop where
  above : w₀.Over w
  inferred : w.inferred ⊆ w₀.inferred
  indent : w.indent = w₀.indent
  bullet : w.bullet = w₀.bullet

variable {w w₀ w₁ : Workspace}

theorem Settled.above (h : w.Settled) : w.Over w := ⟨h.consistent, List.suffix_refl _⟩

theorem Settled.opened (h : w.Settled) : w.Opened w := ⟨h, List.suffix_refl _, rfl, rfl⟩

theorem Settled.abandoned (h : w.Settled) : w.Abandoned w :=
  ⟨h.above, List.Subset.refl _, rfl, rfl⟩

theorem Opened.above (h : w₀.Opened w) : w₀.Over w := ⟨h.settled.consistent, h.stack⟩

theorem Opened.bullet (h : w₀.Opened w) (h₀ : w₀.Settled) : w.bullet = w₀.bullet := by
  rw [h.settled.bullet, h.indent, h₀.bullet]

theorem Opened.trans (h₀ : w₀.Opened w₁) (h₁ : w₁.Opened w) : w₀.Opened w :=
  ⟨h₁.settled, h₀.stack.trans h₁.stack, h₁.inferred.trans h₀.inferred, h₁.indent.trans h₀.indent⟩

theorem Over.trans (h₀ : w₀.stack <:+ w₁.stack) (h₁ : w₁.Over w) : w₀.Over w :=
  ⟨h₁.consistent, h₀.trans h₁.stack⟩

theorem Abandoned.of_opened (h : w₁.Abandoned w) (h₀ : w₀.Settled) (ho : w₀.Opened w₁) :
    w₀.Abandoned w where
  above := h.above.trans ho.stack
  inferred := ho.inferred ▸ h.inferred
  indent := h.indent.trans ho.indent
  bullet := h.bullet.trans (ho.bullet h₀)

theorem mem_bound_iff (h : w.Consistent) {x : Var} : x ∈ w.bound ↔ x ∈ w.vars := by
  rw [h.bound, List.mem_toFinset]

/-! ## The changes -/

theorem Consistent.push (h : w.Consistent) {e : ContextEntry} (he : e.var ∉ w.bound) :
    (w.push e).Consistent where
  bound := by
    show insert e.var w.bound = (e.var :: w.vars).toFinset
    rw [List.toFinset_cons, h.bound]
  nodup := List.nodup_cons.mpr ⟨mt (mem_bound_iff h).mpr he, h.nodup⟩

theorem Consistent.pop (h : w.Consistent) : w.pop.Consistent := by
  rw [Workspace.pop]
  split
  next => exact h
  next e rest hstack =>
    have hvars : w.vars = e.var :: rest.map ContextEntry.var := by
      rw [vars, hstack, List.map_cons]
    have hnodup := List.nodup_cons.mp (hvars ▸ h.nodup)
    refine ⟨?_, hnodup.2⟩
    show w.bound.erase e.var = (rest.map ContextEntry.var).toFinset
    rw [h.bound, hvars, List.toFinset_cons, Finset.erase_insert]
    rw [List.mem_toFinset]
    exact hnodup.1

theorem Settled.push (h : w.Settled) {e : ContextEntry} (he : e.var ∉ w.bound) :
    w.Opened (w.push e) where
  settled :=
    { consistent := h.consistent.push he
      inferred := fun c hc => Finset.mem_insert_of_mem (h.inferred c hc)
      bullet := h.bullet }
  stack := List.suffix_cons e w.stack
  inferred := rfl
  indent := rfl

theorem Settled.deepen (h : w.Settled) : w.deepen.Settled :=
  ⟨⟨h.consistent.bound, h.consistent.nodup⟩, h.inferred, congrArg (· + 1) h.bullet⟩

theorem lift_deepen (w : Workspace) : w.deepen.lift = w := rfl

/-- No type is noted of a variable that is not in scope. -/
theorem Settled.forget_eq (h : w.Settled) {x : Var} (hx : x ∉ w.bound) : w.forget x = w := by
  have hkeep : w.inferred.filter (fun e => decide (e.1 ≠ x)) = w.inferred :=
    List.filter_eq_self.mpr fun e he => decide_eq_true fun hex => hx (hex ▸ h.inferred e he)
  rw [forget, hkeep]

theorem forget_note (w : Workspace) (x : Var) (type : Term) :
    (w.note x type).forget x = w.forget x := by
  simp only [forget, note]
  rw [List.filter_cons_of_neg (by simp), List.filter_filter]
  simp only [Bool.and_self]

end Workspace

namespace Ledger

/-- Between the two ledgers there were only workspaces over `w₀`. -/
def Since (w₀ : Workspace) (l l' : Ledger) : Prop :=
  ∃ ws, l'.past = ws ++ l.past ∧ ∀ w ∈ ws, w₀.Over w

variable {w₀ w₁ : Workspace} {l l' l'' : Ledger}

theorem Since.refl (w₀ : Workspace) (l : Ledger) : Since w₀ l l := ⟨[], rfl, by simp⟩

theorem Since.trans (h : Since w₀ l l') (h' : Since w₀ l' l'') : Since w₀ l l'' := by
  obtain ⟨ws, hws, hover⟩ := h
  obtain ⟨ws', hws', hover'⟩ := h'
  refine ⟨ws' ++ ws, by rw [hws', hws, List.append_assoc], fun w hw => ?_⟩
  exact (List.mem_append.mp hw).elim (hover' w) (hover w)

theorem Since.mono (h : Since w₁ l l') (hle : w₀.stack <:+ w₁.stack) : Since w₀ l l' := by
  obtain ⟨ws, hws, hover⟩ := h
  exact ⟨ws, hws, fun w hw => (hover w hw).trans hle⟩

theorem since_change (f : Workspace → Workspace) (h : w₀.Over l.space) : Since w₀ l (l.change f) :=
  ⟨[l.space], rfl, by simpa using h⟩

/-- Popping down to the stack of `w₀` leaves the workspace as it was but for what is on the
stack. -/
theorem release_space (h : w₀.Over l.space) (h₀ : w₀.Consistent) :
    (l.release w₀.stack.length).space =
      { l.space with bound := w₀.bound, stack := w₀.stack } ∧
      Since w₀ l (l.release w₀.stack.length) := by
  obtain ⟨top, htop⟩ := h.stack
  have hlength : l.space.stack.length - w₀.stack.length = top.length := by
    rw [← htop, List.length_append, Nat.add_sub_cancel]
  rw [release, hlength]
  induction top generalizing l with
  | nil =>
    refine ⟨?_, .refl _ _⟩
    have hstack : w₀.stack = l.space.stack := htop
    have hbound : w₀.bound = l.space.bound := by
      rw [h₀.bound, h.consistent.bound, Workspace.vars, Workspace.vars, hstack]
    show l.space = _
    rw [hstack, hbound]
  | cons e top ih =>
    have hpop : l.space.pop =
        { l.space with bound := l.space.bound.erase e.var, stack := top ++ w₀.stack } := by
      rw [Workspace.pop, ← htop]
      rfl
    have hover : w₀.Over (l.change .pop).space :=
      ⟨h.consistent.pop, by rw [show (l.change .pop).space = l.space.pop from rfl, hpop]; exact ⟨top, rfl⟩⟩
    have hlength' : (l.change .pop).space.stack.length - w₀.stack.length = top.length := by
      rw [show (l.change .pop).space = l.space.pop from rfl, hpop]
      simp
    have hrest := ih hover (by rw [show (l.change .pop).space = l.space.pop from rfl, hpop]) hlength'
    refine ⟨?_, (since_change _ h).trans hrest.2⟩
    rw [List.length_cons, popMany, hrest.1, show (l.change .pop).space = l.space.pop from rfl, hpop]

end Ledger

end Recheck
