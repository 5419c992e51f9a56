import Recheck.Proofs.Keeps.Terms

/-!
# Recheck — what a check does while let clauses are waiting

What a check makes sure of at one position of a term has to survive what it does at the next.
`Safe` is what it makes sure of: every variable that occurs free in a term, at the positions of
the checker, is in scope. On the way certain let clauses have not been met yet, their
definitions are as they were, and fewer and fewer of them are left. This is a course of the
checker, and `checks_term` says that the checker follows it, by induction on the depth.
-/

namespace Recheck

/-! ## Terms whose variables are in scope -/

/-- The variables that occur free in the term are in the list, unless they are newer than
`N`. -/
def Safe (sig : Signature) (N : Nat) (D : Nat → Prop) (s : Store) (vars : List Var) (t : Term) :
    Prop :=
  ∀ x, x.serial < N → Occurs sig (Node.checked sig) D s t x → x ∈ vars

/-- The variable is in the list or newer than `N`. -/
def Inside (N : Nat) (vars : List Var) (x : Var) : Prop := x ∈ vars ∨ N ≤ x.serial

section Safe

variable {sig : Signature} {N : Nat} {D : Nat → Prop} {s : Store} {vars : List Var}
variable {xs : List Var} {stamp : Nat} {n : Node Term} {x : Var}

theorem safe_of_positions (hn : n.Plain)
    (h : ∀ p ∈ n.checked sig, Safe sig N D s (p.1 ++ vars) p.2) :
    Safe sig N D s vars (.mk stamp n) := by
  intro x hx hocc
  cases hocc with
  | part hp hnot hpart => exact (List.mem_append.mp (h _ hp x hx hpart)).resolve_left hnot
  | _ => exact hn.elim

theorem safe_position (h : Safe sig N D s vars (.mk stamp n)) :
    ∀ p ∈ n.checked sig, Safe sig N D s (p.1 ++ vars) p.2 := by
  intro p hp x hx hocc
  by_cases hmem : x ∈ p.1
  · exact List.mem_append_left _ hmem
  · exact List.mem_append_right _ (h x hx (.part hp hmem hocc))

theorem safe_ref (hx : Inside N vars x) : Safe sig N D s vars (.mk stamp (.ref x)) := by
  intro y hy hocc
  cases hocc with
  | ref => exact hx.resolve_right (Nat.not_le_of_lt hy)
  | part hp => cases hp

/-- An unknown is safe if its solution is, should there be one. -/
theorem safe_unknown {v : Var}
    (h : ∀ u, s.solutions.get? stamp = some u → Safe sig N (fun _ => False) s vars u) :
    Safe sig N D s vars (.mk stamp (.unknown v)) := by
  intro x hx hocc
  cases hocc with
  | part hp => cases hp
  | solution hu hocc => exact h _ hu x hx hocc

/-- A delayed substitution is safe if one of its expansions is. -/
theorem safe_delayed {fuel : Nat} {u e : Term} {exprs : MappingRef Term} {levels : LevelSubst}
    {s₁ s₂ : Store} (hs : s.Extends s₁) (hrun : expandDelayed sig fuel u exprs levels s₁ = .ok e s₂)
    (h : Safe sig N (fun _ => False) s₂ vars e) :
    Safe sig N D s vars (.mk stamp (.delayed u exprs levels)) := by
  intro x hx hocc
  cases hocc with
  | part hp => cases hp
  | delayed hocc => exact h x hx (hocc fuel s₁ e s₂ hs hrun)

/-- The clauses of a let expression that are looked into are safe, each in scope of the ones
before it. -/
def SafeClauses (sig : Signature) (N : Nat) (D : Nat → Prop) (s : Store) (vars : List Var)
    (xs : List Var) : Prop :=
  ∀ before c after d t, xs = before ++ c :: after → D c.serial →
    s.clauses.get? c.serial = some d → t ∈ d.type.toList ++ [d.expr] →
    Safe sig N D s (before.reverse ++ vars) t

theorem safeClauses_nil : SafeClauses sig N D s vars [] := by
  intro before c after d t hxs
  simp at hxs

theorem safeClauses_cons
    (hx : ∀ d t, D x.serial → s.clauses.get? x.serial = some d →
      t ∈ d.type.toList ++ [d.expr] → Safe sig N D s vars t)
    (hxs : SafeClauses sig N D s (x :: vars) xs) : SafeClauses sig N D s vars (x :: xs) := by
  intro before c after d t heq hc hd ht
  cases before with
  | nil =>
    obtain ⟨rfl, -⟩ := List.cons.inj heq
    exact hx d t hc hd ht
  | cons y before =>
    obtain ⟨rfl, htail⟩ := List.cons.inj heq
    have h := hxs before c after d t htail hc hd ht
    rwa [List.reverse_cons, List.append_assoc]

theorem safe_letIn {strict : Bool} {body : Term} (hxs : SafeClauses sig N D s vars xs)
    (hbody : Safe sig N D s (xs.reverse ++ vars) body) :
    Safe sig N D s vars (.mk stamp (.letIn strict xs body)) := by
  intro x hx hocc
  cases hocc with
  | part hp hnot hpart =>
    obtain rfl := List.mem_singleton.mp hp
    exact (List.mem_append.mp (hbody x hx hpart)).resolve_left hnot
  | clause hc hd ht hnot hpart =>
    have h := hxs _ _ _ _ _ rfl hc hd ht x hx hpart
    exact (List.mem_append.mp h).resolve_left fun hmem => hnot (List.mem_reverse.mp hmem)

end Safe

/-! ## Stores on the way -/

/-- The store has kept away from the clauses in `P`, which are as they were at the start,
and solutions are still there. -/
structure Steady (N : Nat) (s₀ : Store) (P : Nat → Prop) (s : Store) : Prop where
  good : Good (.without P) s
  next : N ≤ s.next
  pending : ∀ n, P n → s.clauses.get? n = s₀.clauses.get? n
  solved : s₀.Extends s

variable {d : LetClause}

namespace Steady

variable {N : Nat} {s₀ s : Store} {P P' : Nat → Prop}

theorem refl (hgood : Good (.without P) s) (hnext : N ≤ s.next) : Steady N s P s :=
  ⟨hgood, hnext, fun _ _ => rfl, fun _ _ ht => ht⟩

theorem trans {s₁ : Store} (h₁ : Steady N s₀ P s₁) (h : Steady N s₁ P' s)
    (hle : ∀ n, P' n → P n) : Steady N s₀ P' s where
  good := h.good
  next := h.next
  pending n hn := (h.pending n hn).trans (h₁.pending n (hle n hn))
  solved n t ht := h.solved n t (h₁.solved n t ht)

/-- The primitive changes leave the clauses in `P` alone. -/
theorem solverInvariant (sig : Signature) (hP : ∀ n, P n → n < N) :
    SolverInvariant sig (.without P) (OnStore (Steady N s₀ P)) where
  good h := h.good
  number h := { h with good := h.good.number, next := Nat.le_succ_of_le h.next }
  define {s _ c} h hc :=
    { good := h.good.number.setClause hc
      next := Nat.le_succ_of_le h.next
      pending := fun n hn => by
        have hne : n ≠ s.next := Nat.ne_of_lt (Nat.lt_of_lt_of_le (hP n hn) h.next)
        rw [Table.get?_insert_of_ne _ _ hne]
        exact h.pending n hn
      solved := h.solved }
  rewrite {_ s _ m c e} h₁ h hm hget he _ :=
    { good := h.good.setClause ⟨he, (h₁.good.clause m c hm hget).2⟩
      next := h.next
      pending := fun n hn => by
        have hne : n ≠ m := fun heq => hm (heq ▸ hn)
        rw [Table.get?_insert_of_ne _ _ hne]
        exact h.pending n hn
      solved := h.solved }
  narrow {_ q _ _ _} h hu hd hxs :=
    { h with good := (Good.invariant sig _).narrow (q := q) h.good hu hd hxs }
  mapping {_ q _ _} h hm := { h with good := (Good.invariant sig _).mapping (q := q) h.good hm }
  defer _ h _ := h
  deferLevel _ h _ := h
  solve {s _ n t} h _ hnone ht :=
    { h with
      good := h.good.solve ht
      solved := fun m u hu => by
        have hget := h.solved m u hu
        have hne : m ≠ n := by
          rintro rfl
          rw [hnone] at hget
          cases hget
        rw [Table.get?_insert_of_ne _ _ hne]
        exact hget }

/-- A clause whose type and definition keep away from the others is met. -/
theorem meet {x : Nat} (h : Steady N s₀ P s) (hd : s₀.clauses.get? x = some d)
    (hx : P x) (hwithin : d.Within (.without P)) : Steady N s₀ (fun n => P n ∧ n ≠ x) s := by
  have hle : Region.without P ≤ .without fun n => P n ∧ n ≠ x :=
    Region.without_le fun _ hn => hn.1
  have hmono {c : LetClause} (hc : c.Within (.without P)) :
      c.Within (.without fun n => P n ∧ n ≠ x) :=
    ⟨hc.1.mono hle, fun t ht => (hc.2 t ht).mono hle⟩
  refine { good := ?_, next := h.next, pending := fun n hn => h.pending n hn.1, solved := h.solved }
  exact
    { clause := fun n c hn hc => by
        by_cases hnx : n = x
        · subst hnx
          rw [h.pending n hx, hd, Option.some.injEq] at hc
          exact hc ▸ hmono hwithin
        · exact hmono (h.good.clause n c (fun hn' => hn ⟨hn', hnx⟩) hc)
      solution := fun n t ht => (h.good.solution n t ht).mono hle
      unknown := fun n u t hu ht => (h.good.unknown n u t hu ht).mono hle
      mapping := fun n m hm => (h.good.mapping n m hm).mono hle
      refers_fresh := fun n hn => hle.1 n (h.good.refers_fresh n hn)
      binds_fresh := fun _ _ => trivial }

end Steady

/-! ## The course -/

/-- The declarations do not mention the clauses in `P`, which are old, and no trace is
written while there are any. -/
structure Setting (k : Checker) (N : Nat) (P : Nat → Prop) : Prop where
  sig : k.sig.Within (.without P)
  numbered : ∀ n, P n → n < N
  quiet : k.traceDepth = 0 ∨ ∀ n, ¬ P n

/-- Let clauses that a check has not met yet. -/
abbrev Unmet (k : Checker) (N : Nat) : Type := { P : Nat → Prop // Setting k N P }

section Setting

variable {k : Checker} {N : Nat} {P P' : Nat → Prop}

theorem Setting.mono (h : Setting k N P) (hle : ∀ n, P' n → P n) : Setting k N P' where
  sig := h.sig.mono (Region.without_le hle)
  numbered n hn := h.numbered n (hle n hn)
  quiet := h.quiet.imp_right fun hnone n hn => hnone n (hle n hn)

theorem Setting.invariant (h : Setting k N P) (s₀ : Store) :
    SolverInvariant k.sig (.without P) (OnStore (Steady N s₀ P)) :=
  Steady.solverInvariant k.sig h.numbered

theorem Setting.keeps_freshVar (h : Setting k N P) (s₀ : Store) (vars : List Var) :
    Keeps (OnStore (Steady N s₀ P)) (Core.freshVar .param "_") fun x =>
      (Region.without P).Binds x ∧ Inside N vars x := by
  have hfresh : Keeps (OnStore (Steady N s₀ P)) Core.fresh fun n => N ≤ n :=
    fun _ s hs => ⟨(h.invariant s₀).number hs, hs.next⟩
  exact hfresh.bind fun n hn => .pure ⟨⟨trivial, by simp⟩, .inr hn⟩

end Setting

/-- One clause less. -/
def Unmet.met {k : Checker} {N : Nat} (P : Unmet k N) (n : Nat) : Unmet k N :=
  ⟨fun m => P.1 m ∧ m ≠ n, P.2.mono fun _ hm => hm.1⟩

section Course

variable {k : Checker} {N : Nat} {s₀ : Store} {D : Nat → Prop} {P M P' : Unmet k N}

/-- A look at the term meets its let clauses. -/
def Unmet.Looks (s₀ : Store) (D : Nat → Prop) (P : Unmet k N) (t : Term) (P' : Unmet k N) :
    Prop :=
  Tidy k.sig s₀ D P.1 t P'.1

theorem tidyAll_iff {ts : List Term} :
    TidyAll k.sig s₀ D P.1 ts P'.1 ↔ LooksAll (Unmet.Looks s₀ D) P ts P' := by
  obtain ⟨P', hP'⟩ := P'
  induction ts generalizing P with
  | nil =>
    obtain ⟨P, hP⟩ := P
    exact ⟨fun h => by cases h; exact .nil, fun h => by cases h; exact .nil⟩
  | cons t ts ih =>
    obtain ⟨P, hP⟩ := P
    constructor
    · intro h
      cases h with
      | @cons _ P₁ _ _ _ ht hts =>
        have hP₁ : Setting k N P₁ := hP.mono ht.le
        exact @LooksAll.cons _ (Unmet.Looks s₀ D) ⟨P, hP⟩ ⟨P₁, hP₁⟩ _ _ _ ht (ih.mp hts)
    · intro h
      cases h with
      | cons ht hts => exact .cons ht (ih.mpr hts)

theorem Unmet.looks_iff {stamp : Nat} {n : Node Term}
    (hn : ∀ strict xs body, n ≠ .letIn strict xs body) : P.Looks s₀ D (.mk stamp n) P' ↔
      (Region.without P.1).Holds n.hidden ∧
        LooksAll (Unmet.Looks s₀ D) P ((n.checked k.sig).map Prod.snd) P' := by
  rw [← tidyAll_iff]
  constructor
  · intro h
    obtain ⟨P, hP⟩ := P
    obtain ⟨P', hP'⟩ := P'
    cases h with
    | node _ hhidden hparts => exact ⟨hhidden, hparts⟩
    | letIn => exact absurd rfl (hn _ _ _)
  · exact fun h => .node hn h.1 h.2

/-- Let clauses are met on the way, and what is looked at is safe. -/
def letCourse (k : Checker) (N : Nat) (s₀ : Store) (D : Nat → Prop) : Course k where
  Place := Unmet k N
  Before P P' := ∀ n, P'.1 n → P.1 n
  region P := .without P.1
  holds P := OnStore (Steady N s₀ P.1)
  broken _ := True
  Looks := Unmet.Looks s₀ D
  Inside := Inside N
  Safe := Safe k.sig N D s₀
  refl _ _ hn := hn
  trans h₁ h₂ n hn := h₁ n (h₂ n hn)
  region_le := Region.without_le
  invariant P := P.2.invariant s₀
  sig P := P.2.sig
  breaks _ _ _ := trivial
  before h := h.le
  within h := h.within
  node := Unmet.looks_iff
  inside := .inl
  inside_mono hle h := h.imp_left (hle _)
  fresh P vars := P.2.keeps_freshVar s₀ vars
  safe_ref := safe_ref
  safe_node := safe_of_positions
  safe_parts := safe_position

variable {A B : Type} {Q : A → Prop}

/-- A clause is met once its type and its definition have been looked at. -/
theorem Course.Passes.meet {x : Check A} {n : Nat}
    (h : (letCourse k N s₀ D).Passes P x M Q) (hd : s₀.clauses.get? n = some d) (hn : M.1 n)
    (hwithin : ∀ t ∈ d.type.toList ++ [d.expr], t.Within (.without M.1)) :
    (letCourse k N s₀ D).Passes P x (M.met n) Q := by
  have hclause : d.Within (.without M.1) :=
    ⟨hwithin d.expr (by simp), fun t ht => hwithin t (by simp [ht])⟩
  exact Takes.mono h (fun _ hs => hs) (fun _ _ hs => ⟨hs.1.meet hd hn hclause, hs.2⟩) fun _ hs => hs

/-- Runs an operation and goes on from the very store that it leaves. -/
theorem Course.Passes.bind_store {x : Core A} {f : A → Check B} {Q' : B → Prop}
    (hx : Keeps (OnStore (Steady N s₀ P.1)) x Q)
    (hf : ∀ a s₁ s₂, Steady N s₀ P.1 s₁ → x s₁ = .ok a s₂ → Q a →
      (letCourse k N s₂ fun _ => False).Passes P (f a) P Q') :
    (letCourse k N s₀ D).Passes P (liftM x >>= f) P Q' := by
  -- what is known of the result goes with the store that it came with
  have hrun : Takes (OnStore (Steady N s₀ P.1)) x (fun a st => Steady N s₀ P.1 st.store ∧ Q a ∧
      ∃ s₁, Steady N s₀ P.1 s₁ ∧ x s₁ = .ok a st.store) fun _ => True := by
    intro frame s₁ hs₁
    have h := hx frame s₁ hs₁
    cases hr : x s₁ with
    | ok a s₂ => rw [hr] at h; exact ⟨h.1, h.2, s₁, hs₁, hr⟩
    | error e s₂ => trivial
  refine Takes.bind hrun.liftCore fun a _ st hst => ?_
  obtain ⟨hsteady, hQ, s₁, hs₁, hr⟩ := hst
  have hgo : Takes (OnStore (Steady N (HasStore.store st) P.1)) (f a)
      (fun b st => Steady N s₀ P.1 st.store ∧ Q' b) fun _ => True :=
    Takes.mono (hf a s₁ _ hs₁ hr hQ) (fun _ hs => hs)
      (fun _ _ hs => ⟨hsteady.trans hs.1 fun _ hn => hn, hs.2⟩) fun _ hs => hs
  exact hgo () st (Steady.refl hsteady.good hsteady.next)

end Course

/-! ## Forms that lead into the store -/

namespace Typing

open Course (Passes passes_addVar passes_traced)

section Rules

variable {k : Checker} {N : Nat} {s₀ : Store} {D : Nat → Prop} {P P' : Unmet k N}
variable {vars : List Var} {scope : Scope} {x v : Var} {u : Term} {stamp : Nat}
  {exprs : MappingRef Term} {levels : LevelSubst} {expected : Option Term}

/-- The definition of a clause that has not been met yet is the one from the start. -/
theorem passes_clause_pending (hx : P.1 x.serial) (hd : s₀.clauses.get? x.serial = some d) :
    (letCourse k N s₀ D).Passes P (liftM (Core.clause x) : Check LetClause) P fun c => c = d := by
  have hread : Takes (OnStore (Steady N s₀ P.1)) (Core.clause x)
      (fun c st => Steady N s₀ P.1 st.store ∧ c = d) fun _ => True := by
    refine Takes.bind (m := Core) (Q := fun r st => r = st.store ∧ Steady N s₀ P.1 st.store)
      (fun _ s hs => ⟨rfl, hs⟩) fun r => ?_
    split
    next c hc =>
      refine Takes.pure fun s hs => ⟨hs.2, Option.some.inj ?_⟩
      rw [← hd, ← hs.2.pending _ hx, ← hs.1, hc]
    next => exact fun _ _ _ => trivial
  exact hread.liftCore

/-- An unsolved unknown is what a delayed substitution of it comes to. -/
theorem expandDelayed_unsolved {s : Store} (fuel : Nat) (hu : u.node = .unknown v)
    (hs : s.solutions.get? u.stamp = none) :
    expandDelayed k.sig fuel u exprs levels s = .ok u s := by
  have hread : Core.solution? u s = .ok none s := congrArg (EStateM.Result.ok · s) hs
  rw [expandDelayed, hu]
  show EStateM.bind (Core.solution? u) _ s = _
  rw [EStateM.bind, hread]
  rfl

variable {self} (hself : ∀ s₀ D, (letCourse k N s₀ D).Checks self)

include hself

theorem passes_letClauses {xs : List Var} (t : Term)
    (hscope : (letCourse k N s₀ D).Placed P vars scope)
    (hxs : TidyClauses k.sig s₀ D P.1 xs P'.1) :
    (letCourse k N s₀ D).Passes P (letClauses k self t scope xs) P' fun scope =>
      (letCourse k N s₀ D).Placed P' (xs.reverse ++ vars) scope ∧
        SafeClauses k.sig N D s₀ vars xs := by
  induction xs generalizing scope vars P with
  | nil =>
    obtain ⟨P, hP⟩ := P
    obtain ⟨P', hP'⟩ := P'
    cases hxs
    exact .pure ⟨by simpa using hscope, safeClauses_nil⟩
  | cons x xs ih =>
    -- the clauses after this one, once it has been looked at
    have hrest {P₁ : Unmet k N} {scope : Scope} (hscope : (letCourse k N s₀ D).Placed P₁ vars scope)
        (htidy : TidyClauses k.sig s₀ D P₁.1 xs P'.1)
        (hx : ∀ d u, D x.serial → s₀.clauses.get? x.serial = some d →
          u ∈ d.type.toList ++ [d.expr] → Safe k.sig N D s₀ vars u) :
        (letCourse k N s₀ D).Passes P₁ (do
          let scope ← k.addVar scope x none t
          letClauses k self t scope xs) P' fun scope =>
            (letCourse k N s₀ D).Placed P' ((x :: xs).reverse ++ vars) scope ∧
              SafeClauses k.sig N D s₀ vars (x :: xs) := by
      refine (passes_addVar t hscope (by simp)).bind fun scope hscope => ?_
      refine (ih hscope htidy).mono fun scope h => ⟨?_, safeClauses_cons hx h.2⟩
      simpa using h.1
    rw [letClauses]
    obtain ⟨P, hP⟩ := P
    cases hxs with
    | other hD hx hxs =>
      have hI := hP.invariant s₀
      have hkeeps := (hself s₀ D).respects ⟨P, hP⟩
      have hnot : ∀ d u, D x.serial → s₀.clauses.get? x.serial = some d →
          u ∈ d.type.toList ++ [d.expr] → Safe k.sig N D s₀ vars u :=
        fun _ _ h => absurd h hD
      refine (hI.clause (x := x) hx).passesCore fun c hc => ?_
      split
      next type heq =>
        have htype := hc.1.2 type heq
        refine (keeps_typeIn hI hkeeps _ hscope.1 htype).passes fun _ _ => ?_
        refine (hI.clause (x := x) hx).passesCore fun c hc => ?_
        refine (hkeeps.against hscope.1 hc.1.1 htype).passes fun _ _ => ?_
        exact Passes.bind (.pure hscope) fun scope hscope => hrest hscope hxs hnot
      next =>
        refine (hkeeps.infer hscope.1 hc.1.1).passes fun type htype => ?_
        refine Passes.bind (Q := (letCourse k N s₀ D).Placed ⟨P, hP⟩ vars)
          (.pure ⟨⟨hscope.1.1, ?_⟩, hscope.2⟩) fun scope hscope => hrest hscope hxs hnot
        exact List.forall_mem_cons.mpr ⟨htype, hscope.1.2⟩
    | @cons _ P₁ _ _ _ d hd hparts hx hxs =>
      have hle := hparts.le
      have hwithin := hparts.within
      -- the clauses that are left before and after this one is met
      let M : Unmet k N := ⟨P₁, hP.mono hle⟩
      have hscope' : (letCourse k N s₀ D).Placed (M.met x.serial) vars scope :=
        hscope.mono fun n hn => hle n hn.1
      have hsafe (h : ∀ u ∈ d.type.toList ++ [d.expr], Safe k.sig N D s₀ vars u) :
          ∀ d' u, D x.serial → s₀.clauses.get? x.serial = some d' →
            u ∈ d'.type.toList ++ [d'.expr] → Safe k.sig N D s₀ vars u := by
        intro d' u _ hd' hu
        obtain rfl := Option.some.inj (hd.symm.trans hd')
        exact h u hu
      refine (passes_clause_pending (hle _ hx) hd).bind fun c hc => ?_
      subst hc
      split
      next type heq =>
        simp only [heq, Option.toList_some, List.cons_append, List.nil_append] at hparts hsafe
        cases hparts with
        | @cons _ P₂ _ _ _ htype hparts =>
        cases hparts with
        | cons hexpr hparts =>
        cases hparts
        let M₂ : Unmet k N := ⟨P₂, hP.mono htype.le⟩
        have hlook₁ : Unmet.Looks s₀ D ⟨P, hP⟩ type M₂ := htype
        have hlook₂ : M₂.Looks s₀ D c.expr M := hexpr
        have hscope₂ : (letCourse k N s₀ D).Placed M₂ vars scope := hscope.mono htype.le
        refine (passes_typeIn (hself s₀ D) _ hscope hlook₁).bind fun _ hsafeType => ?_
        refine (passes_clause_pending (hexpr.le _ hx) hd).bind fun c hc => ?_
        subst hc
        refine ((passes_against (hself s₀ D) hscope₂ hlook₂ htype.within).meet hd hx hwithin).bind
          fun _ hsafeExpr => ?_
        refine Passes.bind (.pure hscope') fun scope hscope => hrest hscope hxs (hsafe ?_)
        simpa using ⟨hsafeType, hsafeExpr⟩
      next heq =>
        simp only [heq, Option.toList_none, List.nil_append] at hparts hsafe
        cases hparts with
        | cons hexpr hparts =>
        cases hparts
        have hlook : Unmet.Looks s₀ D ⟨P, hP⟩ c.expr M := hexpr
        refine ((passes_infer (hself s₀ D) hscope hlook).meet hd hx hwithin).bind
          fun type htype => ?_
        refine Passes.bind (Q := (letCourse k N s₀ D).Placed (M.met x.serial) vars)
          (.pure ⟨⟨hscope'.1.1, ?_⟩, hscope'.2⟩)
          fun scope hscope => hrest hscope hxs (hsafe (List.forall_mem_singleton.mpr htype.2))
        refine List.forall_mem_cons.mpr ⟨htype.1.mono (Region.without_le fun _ hn => hn.1), ?_⟩
        exact hscope'.1.2

section

variable (fuel : Nat) (hscope : (letCourse k N s₀ D).Placed P vars scope)

include hscope

theorem passes_unknown (hexpected : ∀ u, expected = some u → u.Within (.without P.1)) :
    (letCourse k N s₀ D).Passes P (step k fuel self scope (.mk stamp (.unknown v)) expected) P
      fun type => type.Within (.without P.1) ∧
        Safe k.sig N D s₀ vars (.mk stamp (.unknown v)) := by
  have hread : Takes (OnStore (Steady N s₀ P.1)) (Core.solution? (.mk stamp (.unknown v)))
      (fun o st => Steady N s₀ P.1 st.store ∧ (∀ u, o = some u → u.Within (.without P.1)) ∧
        ∀ u, s₀.solutions.get? stamp = some u → o = some u) fun _ => True :=
    fun _ s hs => ⟨hs, fun u hu => hs.good.solution _ u hu, fun u hu => hs.solved _ u hu⟩
  have hlift : (letCourse k N s₀ D).Passes P
      (liftM (Core.solution? (.mk stamp (.unknown v))) : Check (Option Term)) P _ := hread.liftCore
  refine hlift.bind fun o ho => ?_
  cases o with
  | some u =>
    refine ((hself s₀ fun _ => False).passes (tidy_of_within (ho.1 u rfl)) hscope hexpected).mono
      fun type htype => ⟨htype.1, safe_unknown fun u' hu' => ?_⟩
    obtain rfl := Option.some.inj (ho.2 u' hu')
    exact htype.2
  | none =>
    have hI := P.2.invariant s₀
    refine (keeps_boundsInScope hI scope _ v _).passes fun _ _ => ?_
    refine passes_conclude fuel _ (fun _ hn => hn) hexpected ?_
    refine (Passes.of_keeps (keeps_unknownType hI v)).mono fun _ htype => ⟨htype, ?_⟩
    exact safe_unknown fun u hu => by cases ho.2 u hu

theorem passes_delayed (hexpected : ∀ u, expected = some u → u.Within (.without P.1))
    (hhidden : (Region.without P.1).Holds (Node.delayed u exprs levels).parts) :
    (letCourse k N s₀ D).Passes P
      (step k fuel self scope (.mk stamp (.delayed u exprs levels)) expected) P fun type =>
        type.Within (.without P.1) ∧
        Safe k.sig N D s₀ vars (.mk stamp (.delayed u exprs levels)) := by
  have hI := P.2.invariant s₀
  replace hhidden := Node.within_iff.mpr hhidden
  have hread : Takes (OnStore (Steady N s₀ P.1)) (Core.solution? u)
      (fun o st => Steady N s₀ P.1 st.store ∧
        ∃ s₁, Steady N s₀ P.1 s₁ ∧ s₁.solutions.get? u.stamp = o) fun _ => True :=
    fun _ s hs => ⟨hs, s, hs, rfl⟩
  have hlift : (letCourse k N s₀ D).Passes P (liftM (Core.solution? u) : Check (Option Term)) P _ :=
    hread.liftCore
  refine hlift.bind fun o ho => ?_
  obtain ⟨s₁, hs₁, hsolution⟩ := ho
  split
  next v hnode =>
    refine (hI.readMapping hhidden.2).passesCore fun m hm => ?_
    refine (keeps_boundsInScope hI scope _ _ m).passes fun _ _ => ?_
    refine (keeps_unknownType hI _).passes fun type htype => ?_
    refine passes_conclude fuel _ (fun _ hn => hn) hexpected ?_
    refine (Passes.of_keeps (hI.subst fuel htype (Substitution.holds_of hm)).liftCore).mono
      fun _ htype => ⟨htype, ?_⟩
    refine safe_delayed hs₁.solved (expandDelayed_unsolved fuel hnode hsolution) ?_
    obtain ⟨number, node⟩ := u
    obtain rfl : node = .unknown v := hnode
    exact safe_unknown fun w hw => by cases hsolution.symm.trans hw
  next =>
    refine Passes.bind_store (hI.expandDelayed fuel levels hhidden.1 hhidden.2)
      fun e s₁ s₂ hs₁ hrun he => ?_
    refine ((hself s₂ fun _ => False).passes (tidy_of_within he) hscope hexpected).mono
      fun type htype => ⟨htype.1, ?_⟩
    exact safe_delayed hs₁.solved hrun htype.2

/-- A look at a term, through its let clauses and into the solutions of unknowns. -/
theorem passes_look {t : Term}
    (ht : P.Looks s₀ D t P') (hexpected : ∀ u, expected = some u → u.Within (.without P.1)) :
    (letCourse k N s₀ D).Passes P (step k fuel self scope t expected) P' fun type =>
      type.Within (.without P'.1) ∧ Safe k.sig N D s₀ vars t := by
  obtain ⟨stamp, node⟩ := t
  have hcourse := passes_step (hself s₀ D) hscope fuel ht hexpected
  cases node with
  | ref x => exact hcourse (.inr ⟨x, rfl⟩)
  | letIn strict xs body =>
    have hle := ht.le
    obtain ⟨P, hP⟩ := P
    obtain ⟨P', hP'⟩ := P'
    cases ht with
    | node hn => exact absurd rfl (hn _ _ _)
    | @letIn _ P₁ _ _ _ _ _ hclauses hbody =>
      let M : Unmet k N := ⟨P₁, hP.mono hclauses.le⟩
      have hlook : M.Looks s₀ D body ⟨P', hP'⟩ := hbody
      have hmet : TidyClauses k.sig s₀ D P xs M.1 := hclauses
      refine (passes_letClauses hself _ hscope hmet).bind fun inner hinner => ?_
      refine passes_conclude fuel _ hle hexpected ?_
      refine (passes_infer (hself s₀ D) hinner.1 hlook).mono fun _ h => ?_
      exact ⟨h.1, safe_letIn hinner.2 h.2⟩
  | unknown v =>
    cases (((letCourse k N s₀ D).node (by simp)).mp ht).2
    exact passes_unknown hself fuel hscope hexpected
  | delayed u exprs levels =>
    obtain ⟨hhidden, hparts⟩ := ((letCourse k N s₀ D).node (by simp)).mp ht
    cases hparts
    exact passes_delayed hself fuel hscope hexpected hhidden
  | _ => exact hcourse (.inl trivial)

end

omit hself in
/-- The checker makes sure of scopes, by induction on the depth. -/
theorem checks_term (fuel : Nat) (s₀ : Store) (D : Nat → Prop) :
    (letCourse k N s₀ D).Checks (term k fuel) := by
  have hrespects (fuel : Nat) (s₀ : Store) (P : Unmet k N) :
      Respects (.without P.1) (OnStore (Steady N s₀ P.1)) (term k fuel) :=
    respects_term (P.2.invariant s₀) P.2.sig fuel
  induction fuel generalizing s₀ D with
  | zero => exact ⟨hrespects 0 s₀, fun _ _ _ _ _ _ => trivial⟩
  | succ fuel ih =>
    refine ⟨hrespects (fuel + 1) s₀, fun {P} P' scope t expected vars ht hscope hexpected => ?_⟩
    refine passes_traced hscope (fun hreaches => ?_) fun scope hscope =>
      passes_look ih fuel hscope ht hexpected
    -- the text of the term is only made if there is nothing in it to protect
    have hnone : ∀ n, ¬ P.1 n := P.2.quiet.resolve_left fun hzero => by
      rw [hzero] at hreaches
      simp [Trace.reaches] at hreaches
    have hwithin := ht.within.mono (Region.without_le fun n hn => absurd hn (hnone n))
    exact ((P.2.invariant s₀).quote fuel hwithin).liftCore

end Rules

end Typing

end Recheck
