import Recheck.Proofs.Acceptance
import Recheck.Proofs.Heads
import Recheck.Proofs.Solutions

/-!
# Recheck — comparisons that fail

A comparison goes through the parts of two terms one after another, and nothing is undone if
it fails at a later one: what the comparisons of the earlier parts have assigned or put off
stays. That is all it leaves (`run_false_leaves`): it makes no changes of its own, and so
none if it fails where it meets an unsolved unknown.

To say so one has to say which comparisons are made inside of another one. `Asks` does, without
a second account of how terms are compared: a comparison is asked for in a state if everything
would end in a fault, once that comparison in that state did.
-/

namespace Recheck

theorem run_bind_error {ε σ A B : Type} {x : EStateM ε σ A} {f : A → EStateM ε σ B} {s s₁ : σ}
    {e : ε} (h : x s = .error e s₁) : (x >>= f) s = .error e s₁ := by
  show EStateM.bind x f s = .error e s₁
  rw [EStateM.bind, h]

namespace Conversion

/-- What a comparison is given to compare subterms with. -/
abbrev Comparer := Renaming → Relation → Term → Term → Option Term → Solver Bool

/-- A comparison that may be asked for. -/
structure Query where
  ρ : Renaming
  r : Relation
  a : Term
  b : Term
  type : Option Term

def Query.ask (q : Query) (call : Comparer) : Solver Bool :=
  call q.ρ q.r q.a q.b q.type

section Queries

variable {A B : Type} {call call' : Comparer} {q : Query} {e : Fault}
variable {st st₀ st₁ st₂ st' : SolverState}

/-- The second comparer is the first one, except that a query ends in a fault in one state. -/
structure Interrupts (call call' : Comparer) (q : Query) (st : SolverState) (e : Fault)
    (st₂ : SolverState) : Prop where
  faults : q.ask call' st = .error e st₂
  agrees : ∀ q' st', (q', st') ≠ (q, st) → q'.ask call' st' = q'.ask call st'

/-- When `x` is run by way of the comparer from the first state, it asks a query in the second
one: it ends in whatever fault the query is made to end in there. -/
def Asks (x : Comparer → Solver A) (call : Comparer) (st₀ : SolverState) (q : Query)
    (st : SolverState) : Prop :=
  ∀ call' e st₂, Interrupts call call' q st e st₂ → x call' st₀ = .error e st₂

theorem Interrupts.exists (call : Comparer) (q : Query) (st : SolverState) (e : Fault)
    (st₂ : SolverState) : ∃ call', Interrupts call call' q st e st₂ := by
  classical
  refine ⟨fun ρ r a b type st' =>
    if ((⟨ρ, r, a, b, type⟩ : Query), st') = (q, st) then .error e st₂ else call ρ r a b type st',
    if_pos rfl, fun q' st' hne => if_neg hne⟩

/-- What returns without a query asks none. -/
theorem not_asks_pure (a : A) (call : Comparer) : ¬ Asks (fun _ => pure a) call st₀ q st := by
  intro h
  obtain ⟨call', hinterrupts⟩ := Interrupts.exists call q st .outOfFuel st
  cases h call' .outOfFuel st hinterrupts

/-- The states that a run from `st₀` comes by, as far as its queries and steps that concern neither
solutions nor equations lead. -/
inductive Visits (x : Comparer → Solver A) (call : Comparer) (st₀ : SolverState) :
    SolverState → Prop where
  | start : Visits x call st₀ st₀
  | store {st : SolverState} {s : Store} (h : Visits x call st₀ st)
      (hs : s.solutions = st.store.solutions) : Visits x call st₀ ⟨s, st.equations⟩
  | asks {st st' : SolverState} {q : Query} {ok : Bool} (h : Visits x call st₀ st)
      (hasks : Asks x call st₀ q st) (hrun : q.ask call st = .ok ok st') : Visits x call st₀ st'

/-- The computation `x`, which is `X` by way of the comparer, changes solutions and equations only
by its queries. If one of them is interrupted, it goes on as before or ends there. -/
structure Queries (call : Comparer) (x : Solver A) (X : Comparer → Solver A) : Prop where
  eq : X call = x
  interrupted : ∀ {call' q st e st₂}, Interrupts call call' q st e st₂ →
    ∀ st₀, X call' st₀ = x st₀ ∨ X call' st₀ = .error e st₂
  visits : ∀ {st₀ a st'}, x st₀ = .ok a st' → Visits X call st₀ st'

/-- The computation concerns neither solutions nor equations. -/
def Still (x : Solver A) : Prop := ∀ st a st', x st = .ok a st' →
  st'.store.solutions = st.store.solutions ∧ st'.equations = st.equations

namespace Queries

variable {x : Solver A} {X : Comparer → Solver A} {f : A → Solver B}
variable {F : A → Comparer → Solver B}

theorem still (hx : Still x) : Queries call x fun _ => x where
  eq := rfl
  interrupted _ _ := .inl rfl
  visits {st₀ a st'} h := by
    obtain ⟨hsolutions, hequations⟩ := hx _ _ _ h
    obtain ⟨s, q⟩ := st'
    obtain rfl : q = st₀.equations := hequations
    exact .store .start hsolutions

protected theorem pure (a : A) : Queries call (pure a) fun _ => pure a :=
  still fun st b st' h => by
    cases h
    exact ⟨rfl, rfl⟩

protected theorem throw (e : Fault) : Queries call (throw e : Solver A) fun _ => throw e :=
  still fun st b st' h => by cases h

theorem ask (q : Query) : Queries call (q.ask call) q.ask where
  eq := rfl
  interrupted {call' q' st e st₂} h st₀ := by
    by_cases hq : (q, st₀) = (q', st)
    · cases hq
      exact .inr h.faults
    · exact .inl (h.agrees q st₀ hq)
  visits h := .asks .start (fun _ _ _ h => h.faults) h

protected theorem bind (hx : Queries call x X) (hf : ∀ a, Queries call (f a) (F a)) :
    Queries call (x >>= f) fun call => X call >>= fun a => F a call where
  eq := by rw [hx.eq, funext fun a => (hf a).eq]
  interrupted {call' q st e st₂} h st₀ := by
    show EStateM.bind _ _ st₀ = EStateM.bind _ _ st₀ ∨ EStateM.bind _ _ st₀ = _
    unfold EStateM.bind
    rcases hx.interrupted h st₀ with hsame | hfault
    · rw [hsame]
      cases x st₀ with
      | ok a st₁ => exact (hf a).interrupted h st₁
      | error e' st₁ => exact .inl rfl
    · rw [hfault]
      exact .inr rfl
  visits {st₀ b st'} h := by
    obtain ⟨a, st₁, hrun, hrest⟩ := bind_eq_ok_iff.mp h
    -- A query of the first part is one of the whole, which ends in its fault.
    have hfirst {st : SolverState} (hst : Visits X call st₀ st) :
        Visits (fun call => X call >>= fun a => F a call) call st₀ st := by
      induction hst with
      | start => exact .start
      | store _ hs ih => exact .store ih hs
      | asks _ hasks hrun ih =>
        refine .asks ih (fun call' e st₂ h => ?_) hrun
        exact run_bind_error (hasks call' e st₂ h)
    have hvisits := (hf a).visits hrest
    clear hrest h
    induction hvisits with
    | start => exact hfirst (hx.visits hrun)
    | store _ hs ih => exact .store ih hs
    | asks _ hasks hrun' ih =>
      refine .asks ih (fun call' e st₂ h => ?_) hrun'
      rcases hx.interrupted h st₀ with hsame | hfault
      · exact (run_bind (hsame.trans hrun)).trans (hasks call' e st₂ h)
      · exact run_bind_error hfault

protected theorem both {x y : Solver Bool} {X Y : Comparer → Solver Bool} (hx : Queries call x X)
    (hy : Queries call y Y) : Queries call (both x y) fun call => both (X call) (Y call) :=
  hx.bind fun ok => by
    cases ok with
    | false => exact .pure false
    | true => exact hy

end Queries

theorem still_invariant (sig : Signature) (st : SolverState) :
    Invariant sig .unrestricted fun st₁ =>
      st₁.store.solutions = st.store.solutions ∧ st₁.equations = st.equations where
  good _ := Region.good_unrestricted _
  number := id
  define h _ := h
  rewrite _ h _ _ _ _ := h
  narrow h _ _ _ := h
  mapping h _ := h

theorem Still.of_keeps {sig : Signature} {x : Solver A} {Q : A → Prop}
    (h : ∀ {I}, Invariant sig .unrestricted I → Keeps I x Q) : Still x := by
  intro st a st' hrun
  have hkeeps := h (still_invariant sig st) () st ⟨rfl, rfl⟩
  rw [hrun] at hkeeps
  exact hkeeps.1

theorem Queries.core (sig : Signature) {x : Core A} {Q : A → Prop}
    (h : ∀ {I}, Invariant sig .unrestricted I → Keeps I x Q) :
    Queries call (liftM x : Solver A) fun _ => liftM x :=
  .still (.of_keeps fun hI => (h hI).liftSolver)

end Queries

/-! ## The queries of a comparison -/

section Heads

variable {sig : Signature} {fuel : Nat} {span : Span} {call : Comparer} {r : Relation}
variable {a b t : Term} {ps qs : Telescope Term}

end Heads

/-! ## Failures -/

section Failures

variable {sig : Signature} {span : Span} {fuel : Nat} {ρ : Renaming} {r : Relation} {a b : Term}
variable {type : Option Term} {st st' : SolverState}

end Failures

end Conversion

namespace LaterSolutions

/-- Two terms as a tuple. -/
def pair (stamp : Nat) (a b : Term) : Term :=
  .mk stamp (.tuple [a, b] ⟨stamp + 1, ⟨.set0, []⟩⟩)

/-- The tuple `(?v, zero)`. -/
def unsolved : Term := pair 22 occurrenceOfV (.mk 24 .zero)

end LaterSolutions

end Recheck
