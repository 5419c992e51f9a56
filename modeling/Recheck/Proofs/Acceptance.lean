import Recheck.Admission

/-!
# Recheck — patterns and the values they accept

Matching looks at the heads of values. Where the head that a pattern looks at is there,
matching is decided without a change of the store, but for the literals that it unfolds.

* `Pattern.Accepts` is what a match stands for: the constructors of the pattern are those of
  the value.
* `Pattern.Faces` says that the value has a head wherever the pattern looks at one, as all
  canonical values of the type of the pattern do. Record patterns are left out.
* `matchPatterns_decides`: matching patterns that face their arguments tells whether they are
  accepted.
* `DataType.run_admitted`: the constructors that an instance admits are those whose patterns
  accept its arguments.
-/

namespace Recheck

variable {t : Term} {c : ConName} {ts : List Term}

/-! ## Normal forms by their heads -/

/-- The forms that are in weak-head normal form whatever their parts are. -/
def Node.isCanonical : Node Term → Bool
  | .con _ | .data _ | .record _ | .lam .. | .pi .. | .sigma _ | .tuple .. | .univ _
  | .new .. | .int _ => true
  | _ => false

theorem whnf_of_isCanonical (h : t.node.isCanonical) (sig : Signature) (fuel : Nat) (s : Store) :
    t.whnf sig (fuel + 1) s = .ok t s := by
  obtain ⟨stamp, node⟩ := t
  cases node with
  | con | data | record | lam | pi | sigma | tuple | univ | new | int => rfl
  | _ => cases h

theorem isWhnf_of_isCanonical (h : t.node.isCanonical) (sig : Signature) (fuel : Nat) (s : Store) :
    t.isWhnf sig (fuel + 1) s = .ok .yes s := by
  obtain ⟨stamp, node⟩ := t
  cases node with
  | con | data | record | lam | pi | sigma | tuple | univ | new | int => rfl
  | _ => cases h

/-! ## Acceptance -/

/-- The term is an application of the constructor, or a literal that stands for one. The
literal before it may have any stamp. -/
inductive Term.Unfolds : Term → ConName → List Term → Prop where
  | con {stamp : Nat} {c : ConApp Term} : Term.Unfolds (.mk stamp (.con c)) c.con c.args
  | zero {stamp : Nat} : Term.Unfolds (.mk stamp (.int 0)) Prelude.zero []
  | suc {stamp stamp' : Nat} {n : Int} (hn : n ≠ 0) :
      Term.Unfolds (.mk stamp (.int n)) Prelude.suc [.mk stamp' (.int (n - 1))]

theorem Term.Unfolds.con_unique {d : ConName} {us : List Term} (h : t.Unfolds c ts)
    (h' : t.Unfolds d us) : c = d := by
  cases h with
  | con =>
    cases h'
    rfl
  | zero =>
    cases h' with
    | zero => rfl
    | suc hn => exact absurd rfl hn
  | suc hn =>
    cases h' with
    | zero => exact absurd rfl hn
    | suc _ => rfl

namespace Pattern

variable {ps : List (Pattern Term)} {p : Pattern Term} {n : Int} {stamp : Nat}

mutual

/-- The value is one of those that the pattern stands for. -/
def Accepts : Pattern Term → Term → Prop
  | .bind _ _, _ | .wild, _ => True
  | .con c ps, t => ∃ ts, t.Unfolds c ts ∧ AcceptsAll ps ts
  | .tuple ps, t => ∃ ts type, t.node = .tuple ts type ∧ AcceptsAll ps ts
  | .absurd, _ | .record _ _, _ => False

/-- The values are accepted pattern by pattern. -/
def AcceptsAll : List (Pattern Term) → List Term → Prop
  | [], [] => True
  | p :: ps, t :: ts => p.Accepts t ∧ AcceptsAll ps ts
  | _, _ => False

end

mutual

/-- The value has a head wherever the pattern looks at one. -/
def Faces : Pattern Term → Term → Prop
  | .bind _ _, _ | .wild, _ | .absurd, _ => True
  | .con c ps, t => (∃ d ts, t.Unfolds d ts) ∧ ∀ ts, t.Unfolds c ts → FacesAll ps ts
  | .tuple ps, t => ∃ ts type, t.node = .tuple ts type ∧ ps.length = ts.length ∧ FacesAll ps ts
  | .record _ _, _ => False

/-- The values have heads where the patterns look at them, as far as both lists go. -/
def FacesAll : List (Pattern Term) → List Term → Prop
  | p :: ps, t :: ts => p.Faces t ∧ FacesAll ps ts
  | _, _ => True

end

theorem AcceptsAll.length_eq (h : AcceptsAll ps ts) : ps.length = ts.length := by
  induction ps generalizing ts with
  | nil =>
    cases ts with
    | nil => rfl
    | cons t ts => exact h.elim
  | cons p ps ih =>
    cases ts with
    | nil => exact h.elim
    | cons t ts => rw [List.length_cons, List.length_cons, ih h.2]

/-- Whether a literal is accepted is a matter of its value. -/
theorem accepts_literal (stamp' : Nat) (h : p.Accepts (.mk stamp (.int n))) :
    p.Accepts (.mk stamp' (.int n)) := by
  cases p with
  | bind | wild => exact trivial
  | absurd | record => exact h
  | con c ps =>
    obtain ⟨ts, hunfolds, hts⟩ := h
    cases hunfolds with
    | zero => exact ⟨[], .zero, hts⟩
    | suc hn => exact ⟨_, .suc hn, hts⟩
  | tuple ps =>
    obtain ⟨ts, type, hnode, -⟩ := h
    cases hnode

/-- The arguments of a value are determined up to the stamps of literals. -/
theorem AcceptsAll.of_unfolds {us : List Term} (haccepts : AcceptsAll ps ts) (h : t.Unfolds c ts)
    (h' : t.Unfolds c us) : AcceptsAll ps us := by
  cases h with
  | con =>
    cases h'
    exact haccepts
  | zero =>
    cases h'
    exact haccepts
  | suc hn =>
    cases h' with
    | suc _ =>
      cases ps with
      | nil => exact haccepts
      | cons p ps => exact ⟨accepts_literal _ haccepts.1, haccepts.2⟩

theorem accepts_con_iff (h : t.Unfolds c ts) : (Pattern.con c ps).Accepts t ↔ AcceptsAll ps ts := by
  constructor
  · intro haccepts
    obtain ⟨us, hus, haccepts⟩ := haccepts
    exact haccepts.of_unfolds hus h
  · exact fun haccepts => ⟨ts, h, haccepts⟩

theorem accepts_tuple_iff {type : Stamped (SigmaType Term)} :
    (Pattern.tuple ps).Accepts (.mk stamp (.tuple ts type)) ↔ AcceptsAll ps ts := by
  constructor
  · intro haccepts
    obtain ⟨us, type', hnode, haccepts⟩ := haccepts
    cases hnode
    exact haccepts
  · exact fun haccepts => ⟨ts, type, rfl, haccepts⟩

end Pattern

/-! ## Matching -/

theorem run_bind {ε σ A B : Type} {x : EStateM ε σ A} {f : A → EStateM ε σ B} {s s₁ : σ} {a : A}
    (h : x s = .ok a s₁) : (x >>= f) s = f a s₁ := by
  show EStateM.bind x f s = f a s₁
  rw [EStateM.bind, h]

/-- The head of an application of a constructor, or of a literal. -/
theorem Term.Unfolds.run_constructor? (h : t.Unfolds c ts) (s : Store) :
    ∃ us s', t.constructor? s = .ok (some (c, us)) s' ∧ t.Unfolds c us := by
  cases h with
  | con => exact ⟨_, s, rfl, .con⟩
  | zero => exact ⟨[], s, rfl, .zero⟩
  | @suc stamp _ n hn =>
    refine ⟨[.mk s.next (.int (n - 1))], { s with next := s.next + 1 }, ?_, .suc hn⟩
    show (if n = 0 then _ else _ : Core _) s = _
    rw [if_neg hn]
    rfl

theorem Term.Unfolds.isCanonical (h : t.Unfolds c ts) : t.node.isCanonical := by
  cases h <;> rfl

namespace Reduction

variable {sig : Signature} {fuel : Nat} {self : Term → Core Term}

/-- Matching ends, and tells whether the value is accepted. -/
def Decides (x : Core Match) (s : Store) (p : Prop) : Prop :=
  ∃ s', (p ∧ ∃ m, x s = .ok (.yes m) s') ∨ (¬ p ∧ x s = .ok .no s')

section Decides

variable {x : Core Match} {s : Store} {p : Prop}
variable {s' : Store}

theorem Decides.yes {m : Mapping Term} (hp : p) (h : x s = .ok (.yes m) s') :
    Decides x s p := ⟨s', .inl ⟨hp, m, h⟩⟩

theorem Decides.no (hp : ¬ p) (h : x s = .ok .no s') : Decides x s p :=
  ⟨s', .inr ⟨hp, h⟩⟩

theorem Decides.iff {q : Prop} (h : Decides x s p) (hiff : p ↔ q) : Decides x s q := by
  obtain ⟨s', ⟨hp, m, hm⟩ | ⟨hp, hno⟩⟩ := h
  · exact .yes (hiff.mp hp) hm
  · exact .no (fun hq => hp (hiff.mpr hq)) hno

/-- The first step of the match does not decide. -/
theorem Decides.of_run {A : Type} {y : Core A} {f : A → Core Match} {a : A} {s₁ : Store}
    (hy : y s = .ok a s₁) (h : Decides (f a) s₁ p) : Decides (y >>= f) s p := by
  obtain ⟨s', h⟩ := h
  refine ⟨s', ?_⟩
  rw [run_bind hy]
  exact h

end Decides

variable (hself : ∀ t : Term, t.node.isCanonical → ∀ s, self t s = .ok t s)

include hself

set_option linter.unusedSectionVars false in
mutual

/-- One pattern, by induction on the pattern. -/
theorem matchOne_decides : ∀ (p : Pattern Term) {t : Term} (m : Mapping Term) (s : Store),
    p.Faces t → Decides (matchOne sig fuel self m p t) s (p.Accepts t)
  | .bind _ _, _, _, _, _ => .yes trivial rfl
  | .wild, _, _, _, _ => .yes trivial rfl
  | .absurd, _, _, _, _ => .no id rfl
  | .con c ps, t, m, s, hfaces => by
    obtain ⟨⟨d, ts, hunfolds⟩, hargs⟩ := hfaces
    obtain ⟨us, s', hrun, hunfolds⟩ := hunfolds.run_constructor? s
    refine .of_run (hself t hunfolds.isCanonical s) (.of_run hrun ?_)
    show Decides (if d = c then if ps.length = us.length then matchAll sig fuel self m none ps us
      else pure .no else pure .no) s' _
    by_cases hd : d = c
    · subst hd
      rw [if_pos rfl]
      by_cases hlen : ps.length = us.length
      · rw [if_pos hlen]
        refine (matchAll_decides ps m s' (hargs us hunfolds) hlen).iff ?_
        exact (Pattern.accepts_con_iff hunfolds).symm
      · rw [if_neg hlen]
        refine .no ?_ rfl
        rw [Pattern.accepts_con_iff hunfolds]
        exact fun haccepts => hlen haccepts.length_eq
    · rw [if_neg hd]
      refine .no ?_ rfl
      rintro ⟨vs, hvs, -⟩
      exact hd (hunfolds.con_unique hvs)
  | .tuple ps, t, m, s, hfaces => by
    obtain ⟨ts, type, hnode, hlen, hargs⟩ := hfaces
    obtain ⟨stamp, node⟩ := t
    cases hnode
    refine .of_run (hself _ rfl s) ?_
    show Decides (if ps.length = ts.length then matchAll sig fuel self m none ps ts
      else pure .no) s _
    rw [Pattern.accepts_tuple_iff, if_pos hlen]
    exact matchAll_decides ps m s hargs hlen
  | .record _ _, _, _, _, hfaces => hfaces.elim

/-- Patterns for as many values. -/
theorem matchAll_decides : ∀ (ps : List (Pattern Term)) {ts : List Term} (m : Mapping Term)
    (s : Store), Pattern.FacesAll ps ts → ps.length = ts.length →
    Decides (matchAll sig fuel self m none ps ts) s (Pattern.AcceptsAll ps ts)
  | [], [], m, s, _, _ => .yes trivial rfl
  | [], _ :: _, _, _, _, hlen => by cases hlen
  | _ :: _, [], _, _, _, hlen => by cases hlen
  | p :: ps, t :: ts, m, s, hfaces, hlen => by
    obtain ⟨s₁, ⟨haccepts, m₁, hone⟩ | ⟨hrefuses, hone⟩⟩ := matchOne_decides p m s hfaces.1
    · refine .of_run hone ?_
      refine (matchAll_decides ps m₁ s₁ hfaces.2 (Nat.succ.inj hlen)).iff ?_
      exact ⟨fun h => ⟨haccepts, h⟩, fun h => h.2⟩
    · refine .of_run hone (.no (fun h => hrefuses h.1) rfl)

end

end Reduction

/-- Patterns that face their arguments: matching tells whether they are accepted. -/
theorem matchPatterns_decides {ps : List (Pattern Term)} (h : Pattern.FacesAll ps ts)
    (sig : Signature) (fuel : Nat) (s : Store) :
    Reduction.Decides (matchPatterns sig (fuel + 1) ps ts) s (Pattern.AcceptsAll ps ts) := by
  rw [matchPatterns, Reduction.matchPatterns]
  by_cases hlen : ps.length = ts.length
  · rw [if_pos hlen]
    exact Reduction.matchAll_decides (fun t ht s => whnf_of_isCanonical ht sig fuel s) ps _ s h hlen
  · rw [if_neg hlen]
    exact .no (fun haccepts => hlen haccepts.length_eq) rfl

/-! ## Admission -/

namespace DataType

variable {sig : Signature} {d : DataType Term}

/-- The patterns of the constructor, if it has some, face the arguments of the instance. -/
def Faces (sig : Signature) (d : DataType Term) (c : ConName) : Prop :=
  ∀ ps, (sig.con c).patterns = some ps → Pattern.FacesAll ps d.args

/-- The patterns of the constructor, if it has some, accept the arguments of the instance. -/
def Accepts (sig : Signature) (d : DataType Term) (c : ConName) : Prop :=
  ∀ ps, (sig.con c).patterns = some ps → Pattern.AcceptsAll ps d.args

theorem admission_cases (h : d.Faces sig c) (fuel : Nat) (s : Store) :
    (d.Accepts sig c ∧ ∃ dataArgs s',
      d.admission sig (fuel + 1) c s = .ok (.admitted dataArgs) s') ∨
    (¬ d.Accepts sig c ∧ ∃ s', d.admission sig (fuel + 1) c s = .ok .refused s') := by
  unfold admission
  cases hps : (sig.con c).patterns with
  | none =>
    refine .inl ⟨?_, d.args, s, rfl⟩
    intro ps h
    rw [hps] at h
    cases h
  | some ps =>
    obtain ⟨s', ⟨haccepts, m, hrun⟩ | ⟨hrefuses, hrun⟩⟩ :=
      matchPatterns_decides (h ps hps) sig fuel s
    · refine .inl ⟨?_, _, s', run_bind hrun⟩
      intro qs hqs
      rw [hps] at hqs
      cases hqs
      exact haccepts
    · exact .inr ⟨fun haccepts => hrefuses (haccepts ps hps), s', run_bind hrun⟩

theorem run_admittedAmong {cs : List ConName} (h : ∀ c ∈ cs, d.Faces sig c) (fuel : Nat)
    (s : Store) : ∃ found s', d.admittedAmong sig (fuel + 1) cs s = .ok (some found) s' ∧
      ∀ c, c ∈ found.map Prod.fst ↔ c ∈ cs ∧ d.Accepts sig c := by
  induction cs generalizing s with
  | nil => exact ⟨[], s, rfl, by simp⟩
  | cons c cs ih =>
    rw [List.forall_mem_cons] at h
    rcases admission_cases h.1 fuel s with ⟨haccepts, dataArgs, s₁, hrun⟩ | ⟨hrefuses, s₁, hrun⟩
    · obtain ⟨found, s₂, hfound, hiff⟩ := ih h.2 s₁
      refine ⟨(c, dataArgs) :: found, s₂, ?_, ?_⟩
      · rw [admittedAmong, run_bind hrun]
        exact run_bind hfound
      · intro e
        rw [List.map_cons, List.mem_cons, List.mem_cons, hiff]
        constructor
        · rintro (rfl | ⟨he, hacc⟩)
          · exact ⟨.inl rfl, haccepts⟩
          · exact ⟨.inr he, hacc⟩
        · rintro ⟨rfl | he, hacc⟩
          · exact .inl rfl
          · exact .inr ⟨he, hacc⟩
    · obtain ⟨found, s₂, hfound, hiff⟩ := ih h.2 s₁
      refine ⟨found, s₂, ?_, ?_⟩
      · rw [admittedAmong, run_bind hrun]
        exact hfound
      · intro e
        rw [List.mem_cons, hiff]
        constructor
        · exact fun he => ⟨.inr he.1, he.2⟩
        · rintro ⟨rfl | he, hacc⟩
          · exact absurd hacc hrefuses
          · exact ⟨he, hacc⟩

/-- The constructors that an instance admits are those that accept it. -/
theorem run_admitted (h : ∀ c ∈ (sig.data d.data).constructors, d.Faces sig c) (fuel : Nat)
    (s : Store) : ∃ found s', d.admitted sig (fuel + 1) s = .ok (some found) s' ∧
      ∀ c, c ∈ found.map Prod.fst ↔ c ∈ (sig.data d.data).constructors ∧ d.Accepts sig c :=
  run_admittedAmong h fuel s

end DataType

end Recheck
