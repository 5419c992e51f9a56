import Recheck.Proofs.Copies
import Recheck.Proofs.Renumbering.Repetition

/-!
# Recheck — tame terms

A term is tame if a copy of it can be told from it by the names of bound variables only. What
stands in the way of that:

* let expressions, unknowns and delayed substitutions, behind which the store may change;
* pattern matches inside of terms, since a copy of a match counts as another match;
* variables that occur outside of their scope. The type that several parameters share is
  outside of the scope of all of them.

A tame term is also made of numbers that have been handed out. Substitution takes tame terms to
tame terms.
-/

namespace Recheck

open Pairing (nothing)

variable {N stamp : Nat} {node : Node Term} {t : Term} {x : Var} {r : RecordType Term} {D : Vars}

/-! ## Scopes -/

/-- The variables that a term may refer to. -/
abbrev Vars := Var → Prop

namespace Vars

/-- All variables with numbers below `N`, other than let clauses and unknowns. -/
def old (N : Nat) : Vars := fun x => x.Old N nothing

/-- The variables of a binder come into scope. -/
def and (D : Vars) (xs : List Var) : Vars := fun x => x ∈ xs ∨ D x

/-- The variables of a binder are hidden. -/
def without (D : Vars) (xs : List Var) : Vars := fun x => D x ∧ x ∉ xs

/-- As far as numbers below `N` go, the second scope has all variables of the first. -/
def Le (N : Nat) (D D' : Vars) : Prop := ∀ x : Var, x.Old N nothing → D x → D' x

variable {N : Nat} {D D' : Vars} {xs ys : List Var}

theorem Le.refl : D.Le N D := fun _ _ h => h

theorem Le.and (h : D.Le N D') (xs : List Var) : (D.and xs).Le N (D'.and xs) :=
  fun x hx => Or.imp_right (h x hx)

theorem Le.without (h : D.Le N D') (xs : List Var) : (D.without xs).Le N (D'.without xs) :=
  fun x hx hD => ⟨h x hx hD.1, hD.2⟩

theorem le_and : D.Le N (D.and xs) := fun _ _ h => .inr h

theorem without_le : (D.without xs).Le N D := fun _ _ h => h.1

theorem and_le_and (h : xs ⊆ ys) : (D.and xs).Le N (D.and ys) :=
  fun _ _ hx => hx.imp_left fun hmem => h hmem

theorem and_and_le (xs : List Var) : ((D.and xs).and ys).Le N (D.and (xs ++ ys)) := by
  rintro x _ (hx | hx | hx)
  · exact .inl (List.mem_append_right xs hx)
  · exact .inl (List.mem_append_left ys hx)
  · exact .inr hx

theorem and_append_le (xs : List Var) : (D.and (xs ++ ys)).Le N ((D.and xs).and ys) := by
  rintro x _ (hx | hx)
  · exact (List.mem_append.mp hx).elim (fun h => .inr (.inl h)) .inl
  · exact .inr (.inr hx)

end Vars

/-- The types of a telescope, each with the variables that it may refer to. The pending
parameters share the type that comes next. -/
def Telescope.sites : Vars → List Var → Telescope Term → List (Vars × Term)
  | _, _, [] => []
  | D, pending, p :: ps =>
    match p.type with
    | none => Telescope.sites D (p.var :: pending) ps
    | some type => (D.without pending, type) :: Telescope.sites (D.and (p.var :: pending)) [] ps

/-- The implementations of a record type, which may refer to the instance. -/
def RecordType.sites (D : Vars) (r : RecordType Term) : List (Vars × Term) :=
  r.impls.map fun e => (D.and [r.this], e.2)

/-- The subterms of a node, each with the variables that it may refer to. -/
@[simp] def Node.sites (D : Vars) : Node Term → List (Vars × Term)
  | .app fn arg => [(D, fn), (D, arg)]
  | .call _ _ args => args.map (D, ·)
  | .con c => c.dataArgs.map (D, ·) ++ c.args.map (D, ·)
  | .data d => d.args.map (D, ·)
  | .field _ _ arg => [(D, arg)]
  | .record r => r.sites D
  | .lam _ ps body | .pi _ ps body =>
    Telescope.sites D [] ps ++ [(D.and (Telescope.vars ps), body)]
  | .sigma s => Telescope.sites D [] s.params
  | .tuple fields type => fields.map (D, ·) ++ Telescope.sites D [] type.val.params
  | .proj t _ => [(D, t)]
  | .new renewed type => renewed.toList.map (D, ·) ++ type.val.sites D
  | .ofType t type => [(D, t), (D, type)]
  | .hole _ part => part.toList.map (D, ·)
  | .ref _ | .univ _ | .int _ | .letIn .. | .case _ | .unknown _ | .delayed .. => []

/-- Whether tame terms may be of the form of the node. -/
@[simp] def Node.isTame : Node Term → Bool
  | .letIn .. | .case _ | .unknown _ | .delayed .. => false
  | _ => true

/-- The term is tame: it refers to variables of its scope and is made of numbers below `N`. -/
inductive Term.Tame (N : Nat) : Vars → Term → Prop where
  | mk {D : Vars} {stamp : Nat} {node : Node Term} (hform : node.isTame) (hstamp : stamp < N)
      (hinner : ∀ n ∈ node.innerStamps, n < N)
      (hrefs : ∀ x ∈ node.refs, D x ∧ x.Old N nothing)
      (hbinders : ∀ x, .binder x ∈ node.parts → x.Old N nothing)
      (hsites : ∀ E t, (E, t) ∈ node.sites D → Term.Tame N E t) : Term.Tame N D (.mk stamp node)

section Sites

variable {N N' : Nat} {D D' : Vars}
variable {E : Vars}

theorem Telescope.sites_mono (h : D.Le N D') (pending : List Var) (ps : Telescope Term)
    (ht : (E, t) ∈ ps.sites D' pending) :
    ∃ F, (F, t) ∈ ps.sites D pending ∧ F.Le N E := by
  induction ps generalizing D D' pending with
  | nil => cases ht
  | cons p ps ih =>
    rw [Telescope.sites] at ht ⊢
    cases hp : p.type with
    | none =>
      rw [hp] at ht
      exact ih h (p.var :: pending) ht
    | some type =>
      rw [hp] at ht
      rcases List.mem_cons.mp ht with heq | ht
      · obtain ⟨rfl, rfl⟩ := Prod.mk.inj heq
        exact ⟨_, .head _, h.without pending⟩
      · obtain ⟨F, hF, hle⟩ := ih (h.and (p.var :: pending)) [] ht
        exact ⟨F, .tail _ hF, hle⟩

/-- Parameters that share a type may as well come into scope before it. -/
theorem Telescope.sites_settle (D : Vars) (xs pending : List Var) (ps : Telescope Term)
    (ht : (E, t) ∈ ps.sites (D.and xs) pending) :
    ∃ F, (F, t) ∈ ps.sites D (pending ++ xs) ∧ F.Le N E := by
  induction ps generalizing pending with
  | nil => cases ht
  | cons p ps ih =>
    rw [Telescope.sites] at ht ⊢
    cases hp : p.type with
    | none =>
      rw [hp] at ht
      exact ih (p.var :: pending) ht
    | some type =>
      rw [hp] at ht
      rcases List.mem_cons.mp ht with heq | ht
      · obtain ⟨rfl, rfl⟩ := Prod.mk.inj heq
        refine ⟨_, .head _, fun x _ hx => ⟨.inr hx.1, fun hmem => hx.2 ?_⟩⟩
        exact List.mem_append_left xs hmem
      · have hle : (D.and (p.var :: (pending ++ xs))).Le N ((D.and xs).and (p.var :: pending)) := by
          rintro x _ (hx | hx)
          · rw [← List.cons_append, List.mem_append] at hx
            exact hx.elim .inl fun h => .inr (.inl h)
          · exact .inr (.inr hx)
        obtain ⟨F, hF, hFE⟩ := Telescope.sites_mono hle [] ps ht
        exact ⟨F, .tail _ hF, hFE⟩

theorem sites_map_mono (h : D.Le N D') (ts : List Term) (ht : (E, t) ∈ ts.map (D', ·)) :
    ∃ F, (F, t) ∈ ts.map (D, ·) ∧ F.Le N E := by
  obtain ⟨u, hu, heq⟩ := List.mem_map.mp ht
  obtain ⟨rfl, rfl⟩ := Prod.mk.inj heq
  exact ⟨D, List.mem_map_of_mem hu, h⟩

theorem sites_append_mono {as as' bs bs' : List (Vars × Term)}
    (ha : (E, t) ∈ as' → ∃ F, (F, t) ∈ as ∧ F.Le N E)
    (hb : (E, t) ∈ bs' → ∃ F, (F, t) ∈ bs ∧ F.Le N E) (ht : (E, t) ∈ as' ++ bs') :
    ∃ F, (F, t) ∈ as ++ bs ∧ F.Le N E := by
  rcases List.mem_append.mp ht with h | h
  · obtain ⟨F, hF, hle⟩ := ha h
    exact ⟨F, List.mem_append_left bs hF, hle⟩
  · obtain ⟨F, hF, hle⟩ := hb h
    exact ⟨F, List.mem_append_right as hF, hle⟩

theorem RecordType.sites_mono (h : D.Le N D') (ht : (E, t) ∈ r.sites D') :
    ∃ F, (F, t) ∈ r.sites D ∧ F.Le N E := by
  obtain ⟨e, he, heq⟩ := List.mem_map.mp ht
  obtain ⟨rfl, rfl⟩ := Prod.mk.inj heq
  exact ⟨_, List.mem_map_of_mem he, h.and _⟩

theorem Node.sites_mono (h : D.Le N D') (ht : (E, t) ∈ node.sites D') :
    ∃ F, (F, t) ∈ node.sites D ∧ F.Le N E := by
  have hmap := sites_map_mono (E := E) (t := t) h
  have hps {ps : Telescope Term} := Telescope.sites_mono (E := E) (t := t) h [] ps
  cases node with
  | ref | univ | int | letIn | case | unknown | delayed => cases ht
  | app fn arg => exact hmap [fn, arg] ht
  | ofType u type => exact hmap [u, type] ht
  | field f sort arg => exact hmap [arg] ht
  | proj u index => exact hmap [u] ht
  | call | data | hole => exact hmap _ ht
  | con c => exact sites_append_mono (hmap _) (hmap _) ht
  | record r => exact RecordType.sites_mono h ht
  | lam sort ps body | pi sort ps body =>
    refine sites_append_mono hps (fun hbody => ?_) ht
    exact sites_map_mono (h.and _) [body] hbody
  | sigma s => exact hps ht
  | tuple fields type => exact sites_append_mono (hmap _) hps ht
  | new renewed type => exact sites_append_mono (hmap _) (RecordType.sites_mono h) ht

theorem Term.Tame.mono (h : t.Tame N D) (hN : N ≤ N') (hD : D.Le N D') : t.Tame N' D' := by
  have hold (x : Var) (hx : x.Old N nothing) : x.Old N' nothing := hx.later hN
  induction h generalizing D' with
  | mk hform hstamp hinner hrefs hbinders _ ih =>
    refine ⟨hform, hstamp.trans_le hN, fun n hn => (hinner n hn).trans_le hN,
      fun x hx => ⟨hD x (hrefs x hx).2 (hrefs x hx).1, hold x (hrefs x hx).2⟩,
      fun x hx => hold x (hbinders x hx), fun E t ht => ?_⟩
    obtain ⟨F, hF, hle⟩ := Node.sites_mono hD ht
    exact ih F t hF hle

theorem Term.Tame.later (h : t.Tame N D) (hN : N ≤ N') : t.Tame N' D := h.mono hN .refl

end Sites

/-! ## Lists of subterms -/

/-- All of the subterms are tame, each in its scope. -/
def TameAll (N : Nat) (sites : List (Vars × Term)) : Prop := ∀ E t, (E, t) ∈ sites → t.Tame N E

section TameAll

variable {N N' : Nat} {D D' : Vars} {as bs : List (Vars × Term)}
variable {ps : Telescope Term} {type : Term}

theorem TameAll.later (h : TameAll N as) (hN : N ≤ N') : TameAll N' as :=
  fun E t ht => (h E t ht).later hN

@[simp] theorem tameAll_nil : TameAll N [] := fun _ _ h => by cases h

theorem tameAll_append : TameAll N (as ++ bs) ↔ TameAll N as ∧ TameAll N bs := by
  simp only [TameAll, List.mem_append, or_imp, forall_and]

theorem tameAll_cons : TameAll N ((D, t) :: as) ↔ t.Tame N D ∧ TameAll N as := by
  simp only [TameAll, List.mem_cons, or_imp, forall_and, Prod.mk.injEq, and_imp,
    forall_eq_apply_imp_iff, forall_eq]

theorem tameAll_map {ts : List Term} : TameAll N (ts.map (D, ·)) ↔ ∀ t ∈ ts, t.Tame N D := by
  induction ts with
  | nil => simp
  | cons t ts ih => rw [List.map_cons, tameAll_cons, ih, List.forall_mem_cons]

theorem tameAll_record : TameAll N (r.sites D) ↔ ∀ e ∈ r.impls, e.2.Tame N (D.and [r.this]) := by
  have hmap : r.sites D = (r.impls.map Prod.snd).map (D.and [r.this], ·) := by
    rw [RecordType.sites, List.map_map]
    rfl
  rw [hmap, tameAll_map, List.forall_mem_map]

theorem TameAll.settle {xs : List Var} (h : TameAll N (ps.sites D xs)) :
    TameAll N (ps.sites (D.and xs) []) := by
  intro E t ht
  obtain ⟨F, hF, hle⟩ := Telescope.sites_settle D xs [] ps ht
  exact (h F t hF).mono le_rfl hle

/-- The parameters after the first one of a telescope. -/
theorem TameAll.tail {p : Param Term} (h : TameAll N (Telescope.sites D [] (p :: ps))) :
    TameAll N (ps.sites (D.and [p.var]) []) := by
  rw [Telescope.sites] at h
  cases hp : p.type with
  | none =>
    rw [hp] at h
    exact h.settle
  | some type =>
    rw [hp] at h
    exact (tameAll_cons.mp h).2

/-- The type of the first parameter of a telescope. -/
theorem TameAll.headType {pending : List Var} (h : TameAll N (ps.sites D pending))
    (htype : ps.headType = some type) : type.Tame N D := by
  induction ps generalizing pending with
  | nil => cases htype
  | cons p ps ih =>
    rw [Telescope.sites] at h
    rw [Telescope.headType, List.findSome?_cons] at htype
    cases hp : p.type with
    | none =>
      rw [hp] at h htype
      exact ih h htype
    | some type' =>
      rw [hp] at h htype
      cases htype
      exact (tameAll_cons.mp h).1.mono le_rfl Vars.without_le

/-- The type of a column of a telescope may refer to the columns before it. -/
theorem TameAll.column {before after : List (Column Term)} {c : Column Term}
    (h : TameAll N (ps.sites D [])) (hps : ps.columns = before ++ c :: after)
    (htype : c.type = some type) : type.Tame N (D.and (before.map Column.var)) := by
  induction before generalizing ps D with
  | nil =>
    cases ps with
    | nil => cases hps
    | cons p ps =>
      obtain ⟨rfl, -⟩ := List.cons.inj hps
      exact (h.headType htype).mono le_rfl Vars.le_and
  | cons b before ih =>
    cases ps with
    | nil => cases hps
    | cons p ps =>
      obtain ⟨rfl, hps'⟩ := List.cons.inj hps
      exact (ih h.tail hps').mono le_rfl (Vars.and_and_le _)

end TameAll

@[simp] theorem Term.tame_mk :
    (Term.mk stamp node).Tame N D ↔ node.isTame ∧ stamp < N ∧ (∀ n ∈ node.innerStamps, n < N) ∧
      (∀ x ∈ node.refs, D x ∧ x.Old N nothing) ∧
      (∀ x, .binder x ∈ node.parts → x.Old N nothing) ∧ TameAll N (node.sites D) := by
  constructor
  · rintro ⟨hform, hstamp, hinner, hrefs, hbinders, hsites⟩
    exact ⟨hform, hstamp, hinner, hrefs, hbinders, hsites⟩
  · rintro ⟨hform, hstamp, hinner, hrefs, hbinders, hsites⟩
    exact ⟨hform, hstamp, hinner, hrefs, hbinders, hsites⟩

/-- The subterms of a tame term. -/
theorem Term.Tame.sites (h : (Term.mk stamp node).Tame N D) : TameAll N (node.sites D) := by
  cases h with
  | mk _ _ _ _ _ hsites => exact hsites

theorem Term.Tame.form (h : t.Tame N D) : t.node.isTame := by
  obtain ⟨hform, -⟩ := h
  exact hform

theorem Term.Tame.scope (h : t.Tame N D) (x : Var) (hx : x ∈ t.node.refs) :
    D x ∧ x.Old N nothing := by
  obtain ⟨-, -, -, hrefs, -⟩ := h
  exact hrefs x hx

theorem Term.Tame.binders (h : t.Tame N D) (x : Var) (hx : .binder x ∈ t.node.parts) :
    x.Old N nothing := by
  obtain ⟨-, -, -, -, hbinders, -⟩ := h
  exact hbinders x hx

theorem Term.Tame.inner (h : t.Tame N D) (n : Nat) (hn : n ∈ t.node.innerStamps) : n < N := by
  obtain ⟨-, -, hinner, -⟩ := h
  exact hinner n hn

theorem Telescope.binder_mem_parts {ps : Telescope Term} :
    .binder x ∈ ps.parts ↔ x ∈ ps.vars := by
  simp only [Telescope.parts, Telescope.vars, List.mem_flatMap, List.mem_cons, Part.binder.injEq,
    List.mem_map, Option.mem_toList, reduceCtorEq, and_false, exists_false, or_false]
  constructor
  · rintro ⟨p, hp, rfl⟩
    exact ⟨p, hp, rfl⟩
  · rintro ⟨p, hp, rfl⟩
    exact ⟨p, hp, rfl⟩

theorem RecordType.binder_mem_parts : .binder x ∈ r.parts ↔ x = r.this := by
  simp

/-- The node consists of a telescope and a term in its scope. -/
structure Node.Abstracts (node : Telescope Term → Term → Node Term) : Prop where
  form : ∀ ps body, (node ps body).isTame
  inner : ∀ ps body, (node ps body).innerStamps = []
  refs : ∀ ps body, (node ps body).refs = []
  parts : ∀ ps body, (node ps body).parts = Telescope.parts ps ++ [.term body]
  sites : ∀ D ps body, (node ps body).sites D =
    Telescope.sites D [] ps ++ [(D.and (Telescope.vars ps), body)]

theorem Node.Abstracts.lam (sort : USort) : Node.Abstracts (.lam sort) :=
  ⟨fun _ _ => rfl, fun _ _ => rfl, fun _ _ => rfl, fun _ _ => rfl, fun _ _ _ => rfl⟩

theorem Node.Abstracts.pi (sort : USort) : Node.Abstracts (.pi sort) :=
  ⟨fun _ _ => rfl, fun _ _ => rfl, fun _ _ => rfl, fun _ _ => rfl, fun _ _ _ => rfl⟩

/-! ## Substitution -/

/-- Every success of the operation has the property, which may hang on how many numbers have
been handed out by then. -/
def Advances {m : Type → Type} [Monad m] [Returning m] {A : Type} (x : m A) (s : Store)
    (P : A → Nat → Prop) : Prop :=
  Yields x s fun a s' => s.next ≤ s'.next ∧ P a s'.next

/-- Every success of the operation is a term that is tame in the scope. -/
abbrev Tames {m : Type → Type} [Monad m] [Returning m] (x : m Term) (s : Store) (D : Vars) : Prop :=
  Advances x s fun t N => t.Tame N D

namespace Advances

variable {m : Type → Type} [Monad m] [Returning m] {A B : Type} {s : Store} {P Q : A → Nat → Prop}
variable {x : Core A}

protected theorem pure {a : A} (h : P a s.next) : Advances (pure a : m A) s P :=
  Yields.pure ⟨le_rfl, h⟩

protected theorem bind {x : m A} {f : A → m B} {Q : B → Nat → Prop} (hx : Advances x s P)
    (hf : ∀ a s₁, s.next ≤ s₁.next → P a s₁.next → Advances (f a) s₁ Q) : Advances (x >>= f) s Q := by
  refine Yields.bind hx ?_
  rintro a s₁ ⟨hle, ha⟩
  refine (hf a s₁ hle ha).mono ?_
  rintro b s₂ ⟨hle', hb⟩
  exact ⟨hle.trans hle', hb⟩

theorem mono {x : m A} (hx : Advances x s P) (h : ∀ a N, s.next ≤ N → P a N → Q a N) : Advances x s Q :=
  Yields.mono hx fun a _ ha => ⟨ha.1, h a _ ha.1 ha.2⟩

protected theorem map [LawfulMonad m] {x : m A} {f : A → B} {Q : B → Nat → Prop}
    (hx : Advances x s fun a => Q (f a)) : Advances (f <$> x) s Q :=
  Yields.map hx

protected theorem throw {ε σ : Type} [HasStore σ] {e : ε} : Advances (throw e : EStateM ε σ A) s P :=
  Yields.throw

theorem lift (h : Advances x s P) : Advances (liftM x : Traversal A) s P := Yields.lift h

theorem liftSolver (h : Advances x s P) : Advances (liftM x : Solver A) s P :=
  Yields.liftSolver h

theorem start {x : Traversal A} (h : Advances x s P) : Advances (Traversal.start x) s P := Yields.start h

theorem mapM [LawfulMonad m] {f : A → m B} {xs : List A} {P : B → Nat → Prop}
    (hP : ∀ b N N', N ≤ N' → P b N → P b N')
    (hf : ∀ x ∈ xs, ∀ s₁, s.next ≤ s₁.next → Advances (f x) s₁ P) :
    Advances (xs.mapM f) s fun ys N => ys.length = xs.length ∧ ∀ y ∈ ys, P y N := by
  induction xs generalizing s with
  | nil => exact .pure ⟨rfl, by simp⟩
  | cons x xs ih =>
    rw [List.forall_mem_cons] at hf
    rw [List.mapM_cons]
    refine (hf.1 s le_rfl).bind fun y s₁ hle hy => ?_
    refine (ih fun z hz s₂ hle' => hf.2 z hz s₂ (hle.trans hle')).bind
      fun ys s₂ hle' hys => .pure ?_
    exact ⟨congrArg (· + 1) hys.1, List.forall_mem_cons.mpr ⟨hP y _ _ hle' hy, hys.2⟩⟩

theorem fresh {P : Nat → Nat → Prop} (h : P s.next (s.next + 1)) : Advances Core.fresh s P :=
  Yields.fresh ⟨Nat.le_succ _, h⟩

end Advances

/-- The substitution takes terms that are tame in one scope to terms that are tame in the
other one. -/
structure Substitution.Tame (M N : Nat) (σ : Substitution) (D D' : Vars) : Prop where
  le : M ≤ N
  fields : ∀ f, σ.exprs.get? (.field f) = none
  mapped : ∀ x u, D x → x.Old M nothing → σ.exprs.get? (.local x) = some u → u.Tame N D'
  kept : ∀ x, D x → x.Old M nothing → σ.exprs.get? (.local x) = none → D' x

section Substitutions

variable {M N N' : Nat} {σ : Substitution} {D D' E E' : Vars} {s : Store}

theorem Substitution.Tame.mono (h : σ.Tame M N D D') (hN : N ≤ N') (hD : E.Le M D)
    (hD' : D'.Le N E') : σ.Tame M N' E E' where
  le := h.le.trans hN
  fields := h.fields
  mapped x u hx hold hu := (h.mapped x u (hD x hold hx) hold hu).mono hN hD'
  kept x hx hold hnone :=
    hD' x (hold.later h.le) (h.kept x (hD x hold hx) hold hnone)

theorem Substitution.Tame.later (h : σ.Tame M N D D') (hN : N ≤ N') : σ.Tame M N' D D' :=
  h.mono hN .refl .refl

/-- One more variable is replaced. -/
theorem Substitution.Tame.bind (h : σ.Tame M N D D') (ht : E x → t.Tame N' E') (hN : N ≤ N')
    (hD : ∀ z, z ≠ x → E z → D z) (hD' : D'.Le N E') :
    (σ.bind x t).Tame M N' E E' where
  le := h.le.trans hN
  fields f := by
    rw [Substitution.bind, Mapping.get?_insert_of_ne _ _ (by simp)]
    exact h.fields f
  mapped z u hz hold hu := by
    by_cases hzx : z = x
    · subst hzx
      rw [σ.get?_bind_self] at hu
      cases hu
      exact ht hz
    · rw [σ.get?_bind_of_ne _ hzx] at hu
      exact (h.mapped z u (hD z hzx hz) hold hu).mono hN hD'
  kept z hz hold hnone := by
    by_cases hzx : z = x
    · subst hzx
      rw [σ.get?_bind_self] at hnone
      cases hnone
    · rw [σ.get?_bind_of_ne _ hzx] at hnone
      exact hD' z (hold.later h.le) (h.kept z (hD z hzx hz) hold hnone)

/-- A single variable is replaced. -/
theorem Substitution.Tame.single (ht : E x → t.Tame N D) (hE : ∀ z, z ≠ x → E z → D z) :
    (Substitution.single x t).Tame N N E D := by
  have hidentity : Substitution.identity.Tame N N D D :=
    ⟨le_rfl, fun _ => rfl, (fun _ _ _ _ h => by cases h), fun _ h _ _ => h⟩
  exact hidentity.bind ht le_rfl hE .refl

/-- A variable that comes into scope is replaced. -/
theorem Substitution.Tame.instance (ht : t.Tame N D) (x : Var) :
    (Substitution.single x t).Tame N N (D.and [x]) D :=
  .single (fun _ => ht) fun _ hz h => h.resolve_left fun hmem => hz (List.mem_singleton.mp hmem)

end Substitutions

namespace Traversal

variable {s : Store} {D : Vars}

/-- The recursive call of a traversal takes tame terms to tame terms. -/
def Tames (self : Substitution → Term → Traversal Term) : Prop :=
  ∀ {M : Nat} {σ : Substitution} {D D' : Vars} {t : Term} {s : Store}, t.Tame M D →
    σ.Tame M s.next D D' → Recheck.Tames (self σ t) s D'

/-- A new node that is tame. -/
theorem tames_build (hform : node.isTame) (hinner : ∀ n ∈ node.innerStamps, n < s.next)
    (hrefs : ∀ x ∈ node.refs, D x ∧ x.Old s.next nothing)
    (hbinders : ∀ x, .binder x ∈ node.parts → x.Old s.next nothing)
    (hsites : TameAll s.next (node.sites D)) : Recheck.Tames (Core.build node) s D := by
  have hle : s.next ≤ s.next + 1 := Nat.le_succ _
  refine Yields.build ⟨hle, ?_⟩
  have hold (x : Var) (hx : x.Old s.next nothing) : x.Old (s.next + 1) nothing :=
    hx.later hle
  exact ⟨hform, Nat.lt_succ_self _, fun n hn => Nat.lt_succ_of_lt (hinner n hn),
    fun x hx => ⟨(hrefs x hx).1, hold x (hrefs x hx).2⟩, fun x hx => hold x (hbinders x hx),
    hsites.later hle⟩

/-- A new node without binders that is tame. -/
theorem tames_plain (hform : node.isTame) (hinner : node.innerStamps = []) (hrefs : node.refs = [])
    (hbinders : ∀ x, .binder x ∉ node.parts) (hsites : TameAll s.next (node.sites D)) :
    Recheck.Tames (Core.build node) s D :=
  tames_build hform (by simp [hinner, -Node.innerStamps]) (by simp [hrefs, -Node.refs])
    (fun x hx => absurd hx (hbinders x)) hsites

/-- A new reference. -/
theorem tames_ref (hx : D x) (hold : x.Old s.next nothing) :
    Recheck.Tames (Core.build (.ref x)) s D := by
  refine tames_build rfl (by simp) ?_ ?_ tameAll_nil
  · intro y hy
    obtain rfl := List.mem_singleton.mp hy
    exact ⟨hx, hold⟩
  · rcases hold.kind with h | h <;> simp [h]

/-- A new node with a telescope. -/
theorem tames_abstract {node : Telescope Term → Term → Node Term} (hnode : Node.Abstracts node)
    {ps : Telescope Term} {body : Term} (hps : TameAll s.next (ps.sites D []))
    (hvars : ∀ x ∈ ps.vars, x.Old s.next nothing)
    (hbody : body.Tame s.next (D.and ps.vars)) :
    Recheck.Tames (Core.build (node ps body)) s D := by
  refine tames_build (hnode.form ps body) (by simp [hnode.inner, -Node.innerStamps])
    (by simp [hnode.refs, -Node.refs]) ?_ ?_
  · intro x hx
    refine hvars x (Telescope.binder_mem_parts.mp ?_)
    simpa [hnode.parts, -Node.parts] using hx
  · rw [hnode.sites]
    exact tameAll_append.mpr ⟨hps, tameAll_cons.mpr ⟨hbody, tameAll_nil⟩⟩

section Step

variable {sig : Signature} {self} (hself : Tames self)
  {M : Nat} {σ : Substitution} {D D' : Vars} {s : Store}
variable {A : Type} {P : A → Nat → Prop} {ts : List Term} {ps : Telescope Term} {body arg : Term}
  {sort : USort} {r : RecordType Term}

theorem advances_inScope {x : Traversal A} (h : Advances x s P) : Advances (inScope σ x) s P :=
  yields_inScope h fun _ _ h => by rwa [σ.onShared_next]

include hself

theorem tames_terms (hσ : σ.Tame M s.next D D') (hts : ∀ t ∈ ts, t.Tame M D) :
    Advances (ts.mapM (self σ)) s fun us N => ∀ u ∈ us, u.Tame N D' := by
  refine (Advances.mapM (P := fun u N => u.Tame N D') (fun _ _ _ hle hu => hu.later hle)
    fun t ht s₁ hle => hself (hts t ht) (hσ.later hle)).mono fun us N _ h => h.2

theorem tames_optional {o : Option Term} (hσ : σ.Tame M s.next D D')
    (ho : ∀ t ∈ o.toList, t.Tame M D) :
    Advances (o.mapM (self σ)) s fun o' N =>
      o'.isSome = o.isSome ∧ ∀ u ∈ o'.toList, u.Tame N D' := by
  cases o with
  | none => exact .pure ⟨rfl, by simp⟩
  | some t => exact .map ((hself (ho t (by simp)) hσ).mono fun u N _ hu => ⟨rfl, by simpa using hu⟩)

omit hself in
/-- Copies a binder and goes on in its scope. -/
theorem advances_copy {x : Var} {f : Var → Substitution → Traversal A} (name : String)
    (hf : ∀ y ref s₁, s.next ≤ y.serial → s.next ≤ s₁.next → y.Old s₁.next nothing →
      (∀ E : Vars, E y → ref.Tame s₁.next E) → Advances (f y (σ.bind x ref)) s₁ P) :
    Advances (do
      let y ← Core.freshVar .param name
      let ref ← Core.build (.ref y)
      let σ ← enter σ x ref
      f y σ : Traversal A) s P := by
  have hfresh : Advances (Core.freshVar .param name) s fun y N => s.next ≤ y.serial ∧
      y.Old N nothing :=
    Yields.freshVar ⟨Nat.le_succ _, le_rfl, .inl rfl, Nat.lt_succ_self _, not_false⟩
  refine hfresh.lift.bind fun y s₁ hle₁ hy => ?_
  have href : Advances (Core.build (.ref y)) s₁ fun ref N => ∀ E : Vars, E y → ref.Tame N E := by
    intro ref s' hrun
    exact ⟨(tames_ref (D := fun _ => True) trivial hy.2 ref s' hrun).1,
      fun E hE => (tames_ref hE hy.2 ref s' hrun).2⟩
  refine href.lift.bind fun ref s₂ hle₂ href => ?_
  have henter : Advances (liftM (enter σ x ref) : Traversal Substitution) s₂ fun σ' N =>
      σ' = σ.bind x ref ∧ N = s₂.next :=
    (yields_enter x ref).lift.mono fun σ' s' h => ⟨h.2.2.symm.le, h.1, h.2.2⟩
  refine henter.bind fun _ s₃ hle₃ hσ' => ?_
  obtain ⟨rfl, hnext⟩ := hσ'
  rw [← hnext] at href
  refine hf y ref s₃ hy.1 (hle₁.trans (hle₂.trans hle₃)) ?_ href
  exact hy.2.later (hle₂.trans hle₃)

/-- Copies the parameters of a telescope. The pending ones share the type that comes next. -/
theorem tames_params {pending pending' : List Var} (hps : TameAll M (ps.sites D pending))
    (hbehind : σ.Tame M s.next (D.and pending) (D'.and pending'))
    (hbeside : σ.Tame M s.next (D.without pending) (D'.without pending')) :
    Advances (params self σ ps) s fun r N => TameAll N (r.1.sites D' pending') ∧
      (∀ x ∈ r.1.vars, x.Old N nothing) ∧
      r.2.Tame M N (D.and (pending ++ ps.vars))
        (D'.and (pending' ++ r.1.vars)) := by
  induction ps generalizing s σ D D' pending pending' with
  | nil =>
    refine .pure ⟨tameAll_nil, by simp [Telescope.vars], ?_⟩
    simpa [Telescope.vars] using hbehind
  | cons p ps ih =>
    have htypes : ∀ t ∈ p.type.toList, t.Tame M (D.without pending) := by
      intro t ht
      rw [Telescope.sites, Option.mem_toList.mp ht] at hps
      exact (tameAll_cons.mp hps).1
    rw [params]
    refine (tames_optional hself hbeside htypes).bind fun type s₁ hle₁ htype => ?_
    obtain ⟨hsome, htype⟩ := htype
    refine advances_copy _ fun y ref s₂ hnew hle₂ hold href => ?_
    have hle : s.next ≤ s₂.next := hle₁.trans hle₂
    -- what is behind the parameter may refer to it
    have hbehind₂ : (σ.bind p.var ref).Tame M s₂.next (D.and (p.var :: pending))
        (D'.and (y :: pending')) := by
      refine hbehind.bind (fun _ => href _ (.inl (.head _))) hle (fun z hz hDz => ?_)
        (Vars.and_le_and (List.subset_cons_self y pending'))
      exact hDz.imp_left fun hmem => (List.mem_cons.mp hmem).resolve_left hz
    cases hp : p.type with
    | none =>
      rw [hp, Option.isSome_none, Option.isSome_eq_false_iff, Option.isNone_iff_eq_none] at hsome
      subst hsome
      rw [Telescope.sites, hp] at hps
      have hbeside₂ : (σ.bind p.var ref).Tame M s₂.next (D.without (p.var :: pending))
          (D'.without (y :: pending')) := by
        refine hbeside.bind (fun h => absurd List.mem_cons_self h.2) hle (fun z _ hDz => ?_)
          fun z hz hDz => ?_
        · exact ⟨hDz.1, fun hmem => hDz.2 (.tail _ hmem)⟩
        · refine ⟨hDz.1, fun hmem => ?_⟩
          rcases List.mem_cons.mp hmem with rfl | hmem
          · have := hz.serial
            omega
          · exact hDz.2 hmem
      refine (ih hps hbehind₂ hbeside₂).bind fun r s₃ hle₃ hr => ?_
      obtain ⟨hps', hvars, hσ'⟩ := hr
      refine .pure ⟨hps', ?_, ?_⟩
      · exact List.forall_mem_cons.mpr ⟨hold.later hle₃, hvars⟩
      · refine hσ'.mono le_rfl (Vars.and_le_and ?_) (Vars.and_le_and ?_)
        · simp [Telescope.vars]
        · simp [Telescope.vars]
    | some A =>
      rw [hp, Option.isSome_some, Option.isSome_iff_exists] at hsome
      obtain ⟨B, rfl⟩ := hsome
      rw [Telescope.sites, hp] at hps
      have hbehind₃ : (σ.bind p.var ref).Tame M s₂.next ((D.and (p.var :: pending)).and [])
          ((D'.and (y :: pending')).and []) :=
        hbehind₂.mono le_rfl (fun _ _ h => h.resolve_left List.not_mem_nil) Vars.le_and
      have hbeside₃ : (σ.bind p.var ref).Tame M s₂.next ((D.and (p.var :: pending)).without [])
          ((D'.and (y :: pending')).without []) :=
        hbehind₂.mono le_rfl Vars.without_le fun _ _ h => ⟨h, List.not_mem_nil⟩
      refine (ih (tameAll_cons.mp hps).2 hbehind₃ hbeside₃).bind fun r s₃ hle₃ hr => ?_
      obtain ⟨hps', hvars, hσ'⟩ := hr
      refine .pure ⟨?_, ?_, ?_⟩
      · refine tameAll_cons.mpr ⟨?_, hps'⟩
        exact (htype B (by simp)).later (hle₂.trans hle₃)
      · exact List.forall_mem_cons.mpr ⟨hold.later hle₃, hvars⟩
      · refine hσ'.mono le_rfl ?_ ?_
        · rintro z _ (hz | hz)
          · simp only [Telescope.vars, List.map_cons, List.mem_append, List.mem_cons] at hz
            rcases hz with hz | hz | hz
            · exact .inr (.inl (.tail _ hz))
            · exact .inr (.inl (hz ▸ (.head _)))
            · exact .inl hz
          · exact .inr (.inr hz)
        · rintro z _ (hz | hz | hz)
          · exact .inl (List.mem_append_right _ (.tail _ hz))
          · refine .inl ?_
            simp only [Telescope.vars, List.map_cons, List.mem_append, List.mem_cons] at hz ⊢
            exact hz.elim (fun h => .inr (.inl h)) .inl
          · exact .inr hz

/-- Copies a telescope on its own. -/
theorem tames_telescope (hps : TameAll M (ps.sites D [])) (hσ : σ.Tame M s.next D D') :
    Advances (params self σ ps) s fun r N => TameAll N (r.1.sites D' []) ∧
      (∀ x ∈ r.1.vars, x.Old N nothing) ∧
      r.2.Tame M N (D.and ps.vars) (D'.and r.1.vars) := by
  refine tames_params hself hps ?_ ?_
  · exact hσ.mono le_rfl (fun _ _ h => h.resolve_left List.not_mem_nil) Vars.le_and
  · exact hσ.mono le_rfl Vars.without_le fun _ _ h => ⟨h, List.not_mem_nil⟩

/-- Substitutes in a traversal of its own. -/
theorem tames_applyFrom (ht : t.Tame M D) (hσ : σ.Tame M s.next D D') :
    Recheck.Tames (applyFrom self σ t) s D' := by
  unfold applyFrom
  split
  next hidentity =>
    refine .pure (ht.mono hσ.le fun x hold hx => hσ.kept x hx hold ?_)
    rw [Substitution.isIdentity, Bool.and_eq_true, Mapping.isEmpty, List.isEmpty_iff] at hidentity
    rw [Mapping.get?, hidentity.1, List.lookup_nil]
  next => exact .start (hself ht hσ)

/-- Copies a telescope and what is in its scope. -/
theorem tames_abstraction {node : Substitution → Telescope Term → Term → Node Term}
    (hnode : ∀ σ, Node.Abstracts (node σ)) (hps : TameAll M (ps.sites D []))
    (hbody : body.Tame M (D.and ps.vars)) (hσ : σ.Tame M s.next D D') :
    Recheck.Tames (do
      let (ps, σ) ← params self σ ps
      let body ← self σ body
      Core.build (node σ ps body) : Traversal Term) s D' := by
  refine (tames_telescope hself hps hσ).bind fun r s₁ hle₁ hr => ?_
  obtain ⟨ps', σ'⟩ := r
  obtain ⟨hps', hvars, hσ'⟩ := hr
  refine (hself hbody hσ').bind fun body' s₂ hle₂ hbody' => ?_
  refine (tames_abstract (hnode σ') (hps'.later hle₂) (fun x hx => ?_) hbody').lift
  exact (hvars x hx).later hle₂

theorem tames_beta (hps : TameAll s.next (ps.sites D []))
    (hbody : body.Tame s.next (D.and ps.vars)) (harg : arg.Tame s.next D) :
    Recheck.Tames (beta self sort body arg ps) s D := by
  cases ps with
  | nil => exact .throw
  | cons p ps =>
    cases ps with
    | nil => exact tames_applyFrom hself hbody (.instance harg p.var)
    | cons q ps =>
      refine (tames_abstraction hself (fun _ => .lam sort) hps.tail ?_
        (.instance harg p.var)).start
      exact hbody.mono le_rfl (Vars.and_append_le [p.var])

theorem tames_makeApp {fn : Term} {args : List Term} (hfn : fn.Tame s.next D)
    (hargs : ∀ a ∈ args, a.Tame s.next D) : Recheck.Tames (makeAppFrom self fn args) s D := by
  induction args generalizing fn s with
  | nil => exact .pure hfn
  | cons arg args ih =>
    rw [List.forall_mem_cons] at hargs
    have hrest (u : Term) (s₁ : Store) (hle : s.next ≤ s₁.next) (hu : u.Tame s₁.next D) :
        Recheck.Tames (makeAppFrom self u args) s₁ D :=
      ih hu fun a ha => (hargs.2 a ha).later hle
    rw [makeAppFrom]
    split
    next sort ps body hnode =>
      obtain ⟨stamp, node⟩ := fn
      obtain rfl : node = .lam sort ps body := hnode
      obtain ⟨hps, hbody⟩ := tameAll_append.mp hfn.sites
      exact (tames_beta hself hps (tameAll_cons.mp hbody).1 hargs.1).bind hrest
    next =>
      have hsites : TameAll s.next ((Node.app fn arg).sites D) :=
        tameAll_cons.mpr ⟨hfn, tameAll_cons.mpr ⟨hargs.1, tameAll_nil⟩⟩
      exact (tames_plain rfl rfl rfl (by simp) hsites).bind hrest

omit hself in
theorem advances_componentAt (fields : List Term) (index : Int64) :
    Advances (componentAt fields index) s fun o _ => ∀ u, o = some u → u ∈ fields := by
  unfold componentAt
  split
  · exact .throw
  · exact .pure fun u hu => List.mem_of_getElem? hu

omit hself in
theorem tames_makeProj {index : Int64} (ht : t.Tame s.next D) :
    Recheck.Tames (makeProj t index) s D := by
  obtain ⟨stamp, node⟩ := t
  refine yields_proj (fun _ => ?_) fun fields type u hnode hget => ⟨le_rfl, ?_⟩
  · exact tames_plain rfl rfl rfl (by simp) (tameAll_cons.mpr ⟨ht, tameAll_nil⟩)
  · obtain rfl : node = .tuple fields type := hnode
    exact tameAll_map.mp (tameAll_append.mp ht.sites).1 u (List.mem_of_getElem? hget)

theorem tames_implementation {this : Term} (f : FieldName) (hr : TameAll s.next (r.sites D))
    (hthis : this.Tame s.next D) :
    Advances (implementationFrom self r f this) s fun o N => ∀ u, o = some u → u.Tame N D := by
  unfold implementationFrom
  cases himpl : r.impl? f with
  | none => exact .pure (by simp)
  | some impl =>
    have himpl' : impl.Tame s.next (D.and [r.this]) := tameAll_record.mp hr _ (mem_of_lookup himpl)
    refine .map ((tames_applyFrom hself himpl' (.instance hthis r.this)).mono ?_)
    rintro u N _ hu _ ⟨rfl⟩
    exact hu

theorem tames_makeField {f : FieldName} (harg : arg.Tame s.next D) :
    Recheck.Tames (makeFieldFrom self f sort arg) s D := by
  obtain ⟨stamp, node⟩ := arg
  refine yields_field (fun _ => ?_) fun renewed type impl hnode himpl => ?_
  · exact tames_plain rfl rfl rfl (by simp) (tameAll_cons.mpr ⟨harg, tameAll_nil⟩)
  · obtain rfl : node = .new renewed type := hnode
    exact hself (tameAll_record.mp (tameAll_append.mp harg.sites).2 _ (mem_of_lookup himpl))
      (.instance harg type.val.this)

theorem tames_impls {fs : List FieldName} (hσ : σ.Tame M s.next D D')
    (hr : ∀ e ∈ r.impls, e.2.Tame M D) :
    Advances (fs.filterMapM fun f => (r.impl? f).mapM fun impl => return (f, ← self σ impl)) s
      fun impls N => ∀ e ∈ impls, e.2.Tame N D' := by
  induction fs generalizing s with
  | nil => exact .pure (by simp)
  | cons f fs ih =>
    have hf : Advances ((r.impl? f).mapM fun impl => return (f, ← self σ impl)) s
        fun o N => ∀ e, o = some e → e.2.Tame N D' := by
      cases himpl : r.impl? f with
      | none => exact .pure (by simp)
      | some impl =>
        refine .map ((hself (hr _ (mem_of_lookup himpl)) hσ).bind fun u s' _ hu => .pure ?_)
        rintro _ ⟨rfl⟩
        exact hu
    rw [List.filterMapM_cons]
    refine hf.bind fun o s₁ hle ho => ?_
    cases o with
    | none => exact ih (hσ.later hle)
    | some e =>
      refine (ih (hσ.later hle)).bind fun impls s₂ hle' himpls => .pure ?_
      exact List.forall_mem_cons.mpr ⟨(ho e rfl).later hle', himpls⟩

theorem tames_recordType (hr : TameAll M (r.sites D)) (hσ : σ.Tame M s.next D D') :
    Advances (recordType sig self σ r) s fun r' N =>
      r'.this.Old N nothing ∧ TameAll N (r'.sites D') := by
  have hnew : Advances (newRecordType r.record (r.sortArg.subst σ.levels) (r.sort.subst σ.levels)
      r.universes) s fun copy N => copy.impls = [] ∧ copy.this.Old N nothing := by
    have hfresh : Advances (Core.freshVar .given "this") s fun y N => y.Old N nothing :=
      Yields.freshVar ⟨Nat.le_succ _, .inr rfl, Nat.lt_succ_self _, not_false⟩
    exact hfresh.bind fun y s' _ hy => .pure ⟨rfl, hy⟩
  unfold recordType
  refine hnew.lift.bind fun copy s₁ hle₁ hcopy => ?_
  obtain ⟨himpls, hthis⟩ := hcopy
  split
  next =>
    refine .pure ⟨hthis, ?_⟩
    rw [tameAll_record, himpls]
    simp
  next =>
    have href := tames_ref (D := D'.and [copy.this]) (.inl (.head _)) hthis
    refine href.lift.bind fun ref s₂ hle₂ href => ?_
    have hinner : Advances (inScope σ do
        let σ ← enter σ r.this ref
        (sig.implemented r).filterMapM fun f =>
          (r.impl? f).mapM fun impl => return (f, ← self σ impl)) s₂
          fun impls N => ∀ e ∈ impls, e.2.Tame N (D'.and [copy.this]) := by
      refine advances_inScope ?_
      have henter : Advances (liftM (enter σ r.this ref) : Traversal Substitution) s₂ fun σ' N =>
          σ' = σ.bind r.this ref ∧ N = s₂.next :=
        (yields_enter r.this ref).lift.mono fun σ' s' h => ⟨h.2.2.symm.le, h.1, h.2.2⟩
      refine henter.bind fun _ s₃ hle₃ hσ' => ?_
      obtain ⟨rfl, -⟩ := hσ'
      have hle : s.next ≤ s₃.next := hle₁.trans (hle₂.trans hle₃)
      refine tames_impls hself (hσ.bind (fun _ => href.later hle₃) hle (fun z hz h => ?_) Vars.le_and)
        (tameAll_record.mp hr)
      exact h.resolve_left fun hmem => hz (List.mem_singleton.mp hmem)
    refine hinner.bind fun impls s₃ hle₃ himpls => .pure ⟨?_, tameAll_record.mpr himpls⟩
    exact hthis.later (hle₂.trans hle₃)

/-- Rebuilds a node from a list of terms. -/
theorem tames_list (node : List Term → Node Term) (hform : ∀ us, (node us).isTame)
    (hinner : ∀ us, (node us).innerStamps = []) (hrefs : ∀ us, (node us).refs = [])
    (hbinders : ∀ us x, .binder x ∉ (node us).parts)
    (hsites : ∀ us, (node us).sites D' = us.map (D', ·)) (hts : ∀ t ∈ ts, t.Tame M D)
    (hσ : σ.Tame M s.next D D') :
    Recheck.Tames (do
      let us ← ts.mapM (self σ)
      Core.build (node us) : Traversal Term) s D' := by
  refine (tames_terms hself hσ hts).bind fun us s₁ _ hus => ?_
  refine (tames_plain (hform us) (hinner us) (hrefs us) (hbinders us) ?_).lift
  rw [hsites]
  exact tameAll_map.mpr hus

/-- One step of a traversal; the cases follow the forms of terms. -/
theorem tames_step (ht : t.Tame M D) (hσ : σ.Tame M s.next D D') :
    Recheck.Tames (step sig self σ t) s D' := by
  have hform := ht.form
  have hscope := ht.scope
  -- a node that is handed back as it is
  have hkept (hrefs : ∀ x ∈ t.node.refs, D' x) (hsites : t.node.sites D' = []) :
      t.Tame s.next D' := by
    obtain ⟨-, hstamp, hinner, hold, hbinders, -⟩ := ht
    refine ⟨hform, hstamp.trans_le hσ.le,
      fun n hn => (hinner n hn).trans_le hσ.le,
      fun x hx => ⟨hrefs x hx, (hold x hx).2.later hσ.le⟩,
      fun x hx => (hbinders x hx).later hσ.le, ?_⟩
    intro E u hu
    rw [Term.node] at hsites
    rw [hsites] at hu
    cases hu
  obtain ⟨stamp, node⟩ := t
  have hsites := ht.sites
  cases node with
  | letIn | case | unknown | delayed => cases hform
  | ref x =>
    obtain ⟨hx, hold⟩ := hscope x (List.mem_singleton.mpr rfl)
    dsimp only [step, Term.node]
    split
    next u hu => exact .pure (hσ.mapped x u hx hold hu)
    next hnone =>
      have hkind : x.kind ≠ .clause := by
        rcases hold.kind with h | h <;> simp [h]
      rw [if_neg hkind]
      refine .pure (hkept (fun y hy => ?_) rfl)
      obtain rfl := List.mem_singleton.mp hy
      exact hσ.kept y hx hold hnone
  | app fn arg =>
    obtain ⟨hfn, harg⟩ := tameAll_cons.mp hsites
    refine (hself hfn hσ).bind fun fn' s₁ hle₁ hfn' => ?_
    refine (hself (tameAll_cons.mp harg).1 (hσ.later hle₁)).bind fun arg' s₂ hle₂ harg' => ?_
    exact (tames_makeApp hself (hfn'.later hle₂) (by simpa using harg')).lift
  | call f sort args =>
    exact tames_list hself (.call f (sort.subst σ.levels)) (fun _ => rfl) (fun _ => rfl)
      (fun _ => rfl) (by simp) (fun _ => rfl) (tameAll_map.mp hsites) hσ
  | data d =>
    exact tames_list hself (fun us => .data ⟨d.data, d.sortArg.subst σ.levels, us⟩)
      (fun _ => rfl) (fun _ => rfl) (fun _ => rfl) (by simp) (fun _ => rfl)
      (tameAll_map.mp hsites) hσ
  | con c =>
    obtain ⟨hdata, hargs⟩ := tameAll_append.mp hsites
    refine (tames_terms hself hσ (tameAll_map.mp hdata)).bind fun dataArgs s₁ hle₁ hdata' => ?_
    refine (tames_terms hself (hσ.later hle₁) (tameAll_map.mp hargs)).bind
      fun args s₂ hle₂ hargs' => ?_
    refine (tames_plain rfl rfl rfl (by simp) ?_).lift
    exact tameAll_append.mpr ⟨(tameAll_map.mpr hdata').later hle₂, tameAll_map.mpr hargs'⟩
  | field f sort arg =>
    dsimp only [step, Term.node]
    rw [hσ.fields f]
    refine (hself (tameAll_cons.mp hsites).1 hσ).bind fun arg' s₁ _ harg' => ?_
    exact (tames_makeField hself harg').lift
  | record r =>
    refine (tames_recordType hself hsites hσ).bind fun r' s₁ _ hr' => ?_
    refine (tames_build rfl (by simp) (by simp) ?_ hr'.2).lift
    intro x hx
    rw [RecordType.binder_mem_parts.mp hx]
    exact hr'.1
  | lam sort ps body =>
    obtain ⟨hps, hbody⟩ := tameAll_append.mp hsites
    exact advances_inScope (tames_abstraction hself (fun σ' => .lam (sort.subst σ'.levels)) hps
      (tameAll_cons.mp hbody).1 hσ)
  | pi sort ps body =>
    obtain ⟨hps, hbody⟩ := tameAll_append.mp hsites
    exact advances_inScope (tames_abstraction hself (fun σ' => .pi (sort.subst σ'.levels)) hps
      (tameAll_cons.mp hbody).1 hσ)
  | sigma c =>
    refine advances_inScope ((tames_telescope hself hsites hσ).bind fun r s₁ _ hr => ?_)
    refine (tames_build rfl (by simp) (by simp) ?_ hr.1).lift
    exact fun x hx => hr.2.1 x (Telescope.binder_mem_parts.mp hx)
  | tuple fields type =>
    obtain ⟨hfields, htype⟩ := tameAll_append.mp hsites
    refine (tames_terms hself hσ (tameAll_map.mp hfields)).bind fun fields' s₁ hle₁ hfields' => ?_
    refine (advances_inScope (tames_telescope hself htype (hσ.later hle₁))).bind fun r s₂ hle₂ hr => ?_
    refine (Advances.fresh (P := fun k N => k < N) (Nat.lt_succ_self _)).lift.bind
      fun k s₃ hle₃ hk => ?_
    refine (tames_build rfl (by simpa using hk) (by simp) ?_ ?_).lift
    · intro x hx
      simp only [Node.parts, List.mem_append, List.mem_map, reduceCtorEq, and_false, exists_false,
        false_or] at hx
      exact (hr.2.1 x (Telescope.binder_mem_parts.mp hx)).later hle₃
    · refine tameAll_append.mpr ⟨?_, hr.1.later hle₃⟩
      exact (tameAll_map.mpr hfields').later (hle₂.trans hle₃)
  | proj u index =>
    refine (hself (tameAll_cons.mp hsites).1 hσ).bind fun u' s₁ _ hu' => ?_
    exact (tames_makeProj hu').lift
  | univ sort =>
    dsimp only [step, Term.node]
    split
    · exact .pure (hkept (by simp [Term.node]) rfl)
    · exact (tames_plain rfl rfl rfl (by simp) tameAll_nil).lift
  | new renewed type =>
    obtain ⟨hrenewed, hr⟩ := tameAll_append.mp hsites
    refine (tames_recordType hself hr hσ).bind fun r s₁ hle₁ hr' => ?_
    refine (tames_optional hself (hσ.later hle₁) (tameAll_map.mp hrenewed)).bind
      fun renewed' s₂ hle₂ hrenewed' => ?_
    refine (Advances.fresh (P := fun k N => k < N) (Nat.lt_succ_self _)).lift.bind
      fun k s₃ hle₃ hk => ?_
    refine (tames_build rfl (by simpa using hk) (by simp) ?_ ?_).lift
    · intro x hx
      simp only [Node.parts, List.mem_append, List.mem_map, reduceCtorEq, and_false, exists_false,
        false_or] at hx
      rw [RecordType.binder_mem_parts.mp hx]
      exact hr'.1.later (hle₂.trans hle₃)
    · refine tameAll_append.mpr ⟨(tameAll_map.mpr hrenewed'.2).later hle₃, ?_⟩
      exact hr'.2.later (hle₂.trans hle₃)
  | ofType u type =>
    obtain ⟨hu, htype⟩ := tameAll_cons.mp hsites
    refine (hself hu hσ).bind fun u' s₁ hle₁ hu' => ?_
    refine (hself (tameAll_cons.mp htype).1 (hσ.later hle₁)).bind fun type' s₂ hle₂ htype' => ?_
    refine (tames_plain rfl rfl rfl (by simp) ?_).lift
    exact tameAll_cons.mpr ⟨hu'.later hle₂, tameAll_cons.mpr ⟨htype', tameAll_nil⟩⟩
  | int i => exact .pure (hkept (by simp [Term.node]) rfl)
  | hole goal part =>
    cases part with
    | none => exact .pure (hkept (by simp [Term.node]) rfl)
    | some u =>
      refine (hself (tameAll_cons.mp hsites).1 hσ).bind fun u' s₁ _ hu' => ?_
      refine (tames_plain rfl rfl rfl (by simp) ?_).lift
      exact tameAll_cons.mpr ⟨hu', tameAll_nil⟩

end Step

theorem tames_traverse (sig : Signature) (fuel : Nat) : Tames (traverse sig fuel) := by
  induction fuel with
  | zero =>
    intro M σ D D' t s _ _
    exact Yields.throwT
  | succ fuel ih =>
    intro M σ D D' t s ht hσ
    exact tames_step ih ht hσ

end Traversal

end Recheck
