import Recheck.Proofs.Reflexivity.Tame

/-!
# Recheck — reducing tame terms

If the bodies of all functions are tame, so is the weak-head normal form of a tame term. It is
neither a typed term nor stuck on an unknown.
-/

namespace Recheck

open Pairing (nothing)

/-- The bodies of all functions are tame. -/
def Signature.TameBodies (N : Nat) (sig : Signature) : Prop :=
  ∀ f body, (sig.func f).body = some body → ∀ t, .term t ∈ body.parts → t.Tame N (Vars.old N)

/-- The mapping replaces only variables, by tame terms. -/
def Mapping.Tame (N : Nat) (D : Vars) (m : Mapping Term) : Prop :=
  ∀ e ∈ m.entries, (∃ x, e.1 = .local x) ∧ e.2.Tame N D

def Evaluation.Tame (N : Nat) (D : Vars) : Evaluation → Prop
  | .reduced t => t.Tame N D
  | .stuck blocker => ∀ t, blocker = some t → t.Tame N D

section Mappings

variable {N N' : Nat} {D : Vars} {m : Mapping Term}
variable {ts : List Term}

theorem Mapping.tame_empty : (Mapping.empty : Mapping Term).Tame N D :=
  fun _ he => absurd he List.not_mem_nil

theorem Mapping.Tame.later (h : m.Tame N D) (hN : N ≤ N') : m.Tame N' D :=
  fun e he => ⟨(h e he).1, (h e he).2.later hN⟩

theorem Mapping.Tame.insert (h : m.Tame N D) (x : Var) {t : Term} (ht : t.Tame N D) :
    (m.insert (.local x) t).Tame N D := by
  intro e he
  rcases Mapping.mem_place he with rfl | he
  · exact ⟨⟨x, rfl⟩, ht⟩
  · exact h e he

theorem Mapping.Tame.insertVars (h : m.Tame N D) (xs : List Var) (hts : ∀ t ∈ ts, t.Tame N D) :
    (m.insertVars xs ts).Tame N D := by
  induction xs generalizing m ts with
  | nil => exact h
  | cons x xs ih =>
    cases ts with
    | nil => exact h
    | cons t ts =>
      rw [List.forall_mem_cons] at hts
      exact ih (h.insert x hts.1) hts.2

/-- All of the variables are replaced. -/
theorem Mapping.get?_insertVars_ne_none {xs : List Var} {x : Var} (hlength : ts.length = xs.length)
    (hx : x ∈ xs ∨ m.get? (.local x) ≠ none) : (m.insertVars xs ts).get? (.local x) ≠ none := by
  induction xs generalizing m ts with
  | nil => exact hx.resolve_left List.not_mem_nil
  | cons y xs ih =>
    cases ts with
    | nil => cases hlength
    | cons t ts =>
      refine ih (Nat.succ.inj hlength) ?_
      by_cases hxy : x = y
      · subst hxy
        exact .inr (by simp [Mapping.get?_insert_self])
      · rw [Mapping.get?_insert_of_ne _ _ (by simpa using hxy)]
        exact hx.imp_left fun h => (List.mem_cons.mp h).resolve_left hxy

theorem Substitution.tame_of_exprs {M : Nat} {σ : Substitution} {E : Vars}
    (h : σ.exprs.Tame N D) (hM : M ≤ N)
    (hkept : ∀ x, E x → σ.exprs.get? (.local x) = none → D x) : σ.Tame M N E D where
  le := hM
  fields f := by
    cases hf : σ.exprs.get? (.field f) with
    | none => rfl
    | some u =>
      obtain ⟨⟨x, hx⟩, -⟩ := h _ (mem_of_lookup hf)
      cases hx
  mapped _ _ _ _ hu := (h _ (mem_of_lookup hu)).2
  kept x hx _ := hkept x hx

end Mappings

theorem Term.Tame.reads {N : Nat} {D : Vars} {t : Term} {node : Node Term} (h : t.Tame N D)
    (hnode : t.node = node) : TameAll N (node.sites D) := by
  obtain ⟨stamp, node'⟩ := t
  obtain rfl : node' = node := hnode
  exact h.sites

namespace Reduction

variable {sig : Signature} {N : Nat} {D : Vars} (hD : ∀ x, Vars.old N x → D x) {fuel : Nat}
  {self : Term → Core Term}
  (hself : ∀ {t s}, N ≤ s.next → t.Tame s.next D → Tames (self t) s D) {s : Store}
variable {r : RecordType Term} {t : Term}

theorem tames_implementation {this : Term} (f : FieldName) (hr : TameAll s.next (r.sites D))
    (hthis : this.Tame s.next D) :
    Advances (r.implementation sig fuel f this) s fun o N => ∀ u, o = some u → u.Tame N D :=
  Traversal.tames_implementation (Traversal.tames_traverse sig fuel) f hr hthis

include hD in
/-- The instance of a term of the signature. -/
theorem tames_instance {σ : Substitution} (hN : N ≤ s.next) (ht : t.Tame N (Vars.old N))
    (hσ : σ.exprs.Tame s.next D) : Tames (t.subst sig fuel σ) s D :=
  Traversal.tames_applyFrom (Traversal.tames_traverse sig fuel) ht
    (Substitution.tame_of_exprs hσ hN fun x hx _ => hD x hx)

theorem advances_constructor? (ht : t.Tame s.next D) :
    Advances t.constructor? s fun o N => ∀ c args, o = some (c, args) → ∀ u ∈ args, u.Tame N D := by
  unfold Term.constructor?
  split
  next c hnode =>
    refine .pure ?_
    rintro _ _ ⟨rfl, rfl⟩
    exact tameAll_map.mp (tameAll_append.mp (ht.reads hnode)).2
  next n hnode =>
    split
    · refine .pure ?_
      rintro _ _ ⟨rfl, rfl⟩
      simp
    · have hbuild : Tames (Core.build (.int (n - 1))) s D :=
        Traversal.tames_plain rfl rfl rfl (by simp) tameAll_nil
      refine hbuild.bind fun u s' _ hu => .pure ?_
      rintro _ _ ⟨rfl, rfl⟩
      simpa using hu
  next => exact .pure (by simp)

/-- Tameness as a relation of a run to itself. A later moment is one where more numbers have
been handed out. -/
def tameness (fuel : Nat) (levels : LevelSubst) : Coupling sig fuel fuel self self levels where
  Moment := Store
  Later s s' := s.next ≤ s'.next
  vars x x' := x = x'
  bodies t t' := t.Tame N (Vars.old N) ∧ t = t'
  terms s t t' := t.Tame s.next D ∧ t = t'
  records s r r' := TameAll s.next (r.sites D) ∧ r = r'
  maps s m m' := m.Tame s.next D ∧ m = m'
  Runs s x _ Q := N ≤ s.next → Yields x s fun a s' => s.next ≤ s'.next ∧ ∃ a', Q s' a a'
  Ends s x _ := N ≤ s.next → Advances x s fun e N => e.Tame N D
  terms_later hle h := ⟨h.1.later hle, h.2⟩
  records_later hle h := ⟨h.1.later hle, h.2⟩
  maps_later hle h := ⟨h.1.later hle, h.2⟩
  maps_empty _ := ⟨Mapping.tame_empty, rfl⟩
  maps_insert hm hx ht := ⟨hm.1.insert _ ht.1, by rw [hm.2, hx, ht.2]⟩
  pure h _ := .pure ⟨Nat.le_refl _, _, h⟩
  bind hx hf hN := Yields.bind (hx hN) fun a s₁ ha => ha.2.elim fun a' h =>
    (hf s₁ a a' ha.1 h (Nat.le_trans hN ha.1)).mono fun _ _ hb => ⟨Nat.le_trans ha.1 hb.1, hb.2⟩
  ends_bind hx hf hN := Yields.bind (hx hN) fun a s₁ ha => ha.2.elim fun a' h =>
    Yields.mono (hf s₁ a a' ha.1 h (Nat.le_trans hN ha.1)) fun _ _ hb =>
      ⟨Nat.le_trans ha.1 hb.1, hb.2⟩
  stuck h _ := .pure (of_rel_self h)
  resume hb hm hts hN := (tames_instance hD hN hb.1 hm.1).bind fun t s₁ hle ht =>
    (Traversal.tames_makeApp (Traversal.tames_traverse sig fuel) ht fun u hu =>
      (((List.forall₂_and_left _ _).mp hts).1 u hu).later hle).bind fun u s₂ _ hu => .pure hu
  reduces ht hN := Yields.mono (hself hN ht.1) fun u _ hu => ⟨hu.1, u, hu.2, rfl⟩
  node {s t t'} ht := by
    obtain ⟨ht, rfl⟩ := ht
    generalize hnode : t.node = node
    have h := ht.reads hnode
    cases node with
    | tuple => exact .tuple (forall₂_self (tameAll_map.mp (tameAll_append.mp h).1))
    | new => exact .new ⟨(tameAll_append.mp h).2, rfl⟩
    | _ => exact .atom rfl rfl
  constructor {s t t'} ht _ := by
    refine Yields.mono (advances_constructor? ht.1) fun o s' ho => ⟨ho.1, o, ?_⟩
    cases o with
    | none => exact .none
    | some c => exact .some ⟨rfl, forall₂_self (ho.2 c.1 c.2 rfl)⟩
  name h := by rw [h.2]
  implementation f hr ht _ := Yields.mono (tames_implementation f hr.1 ht.1) fun o _ ho =>
    ⟨ho.1, o, rel_self ho.2⟩
  malformed _ _ := .throw

section Evaluating

variable {args : List Term}

include hD hself

/-! ## Evaluating matches and calls -/

theorem advances_elim {e : Elim Term} (levels : LevelSubst) (hN : N ≤ s.next)
    (hargs : ∀ t ∈ args, t.Tame s.next D) (he : ∀ t, .term t ∈ e.parts → t.Tame N (Vars.old N)) :
    Advances (elim sig fuel self levels args e) s fun e N => e.Tame N D :=
  (tameness hD hself fuel levels).ends_elim (w := s)
    ⟨fun t ht => ⟨he t ht, rfl⟩, fun _ _ => rfl⟩ (forall₂_self hargs) hN

theorem advances_call (hsig : sig.TameBodies N) (f : FuncName) (sortArg : USort) (hN : N ≤ s.next)
    (hargs : ∀ t ∈ args, t.Tame s.next D) :
    Advances (call sig fuel self f sortArg args) s fun e N => e.Tame N D := by
  have hbody := hsig f
  rw [call]
  dsimp only
  split
  · exact .pure (by simp [Evaluation.Tame])
  · exact .pure (by simp [Evaluation.Tame])
  next body heq =>
    refine (tames_instance hD hN (hbody _ heq body (by simp [Body.parts])) ?_).bind
      fun t s' _ ht => .pure ht
    exact Mapping.tame_empty.insertVars _ hargs
  next e heq => exact advances_elim hD hself _ hN hargs (hbody _ heq)
  next ps ends e heq =>
    refine advances_elim hD hself _ hN hargs fun t ht => hbody _ heq t ?_
    simp [Body.parts, ht]

end Evaluating

/-! ## Head steps -/

theorem advances_rebuilt {node : Node Term} (old new : Term) (hbuild : Tames (Core.build node) s D) :
    Advances (rebuilt old new node) s fun o N => ∀ t, o = some t → t.Tame N D := by
  rw [rebuilt]
  split
  · exact .pure (by simp)
  · refine hbuild.bind fun t s' _ ht => .pure ?_
    rintro _ ⟨rfl⟩
    exact ht

include hD hself in
/-- One step of reduction; the cases follow the forms of terms. -/
theorem advances_step (hsig : sig.TameBodies N) (hN : N ≤ s.next) (ht : t.Tame s.next D) :
    Advances (step sig fuel self t) s fun o N => ∀ u, o = some u → u.Tame N D := by
  have hform := ht.form
  have hscope := ht.scope
  obtain ⟨stamp, node⟩ := t
  have hsites := ht.sites
  cases node with
  | letIn | case | unknown | delayed => cases hform
  | ref x =>
    obtain ⟨-, hold⟩ := hscope x (List.mem_singleton.mpr rfl)
    have hkind : x.kind ≠ .clause := by
      rcases hold.kind with h | h <;> simp [h]
    dsimp only [step, Term.node]
    rw [if_neg hkind]
    exact .pure (by simp)
  | app fn arg =>
    obtain ⟨hfn, harg⟩ := tameAll_cons.mp hsites
    replace harg := (tameAll_cons.mp harg).1
    refine (hself hN hfn).bind fun head s₁ hle hhead => ?_
    split
    · have hargs : ∀ a ∈ [arg], a.Tame s₁.next D := by simpa using harg.later hle
      have happ := Traversal.tames_makeApp (Traversal.tames_traverse sig fuel) hhead hargs
      refine happ.bind fun u s₂ _ hu => .pure ?_
      rintro _ ⟨rfl⟩
      exact hu
    · refine advances_rebuilt fn head (Traversal.tames_plain rfl rfl rfl (by simp) ?_)
      exact tameAll_cons.mpr ⟨hhead, tameAll_cons.mpr ⟨harg.later hle, tameAll_nil⟩⟩
  | call f sortArg args =>
    refine (advances_call hD hself hsig f sortArg hN (tameAll_map.mp hsites)).bind fun e s₁ _ he => ?_
    refine .pure fun u hu => ?_
    cases e with
    | reduced u' =>
      obtain rfl := Option.some.inj hu
      exact he
    | stuck blocker => cases hu
  | field f sortArg arg =>
    refine (hself hN (tameAll_cons.mp hsites).1).bind fun value s₁ _ hvalue => ?_
    have hrebuilt {s₂ : Store} (hle : s₁.next ≤ s₂.next) :
        Advances (rebuilt arg value (.field f sortArg value)) s₂ fun o N =>
          ∀ u, o = some u → u.Tame N D :=
      advances_rebuilt arg value (Traversal.tames_plain rfl rfl rfl (by simp)
        (tameAll_cons.mpr ⟨hvalue.later hle, tameAll_nil⟩))
    split
    next renewed r hnode =>
      have hr := (tameAll_append.mp (hvalue.reads hnode)).2
      refine (tames_implementation f hr hvalue).bind fun o s₂ hle ho => ?_
      cases o with
      | some u => exact .pure ho
      | none => exact hrebuilt hle
    next =>
      refine Advances.bind (P := fun o _ => o = none) (.pure rfl) fun o s₂ hle ho => ?_
      subst ho
      exact hrebuilt hle
  | proj u index =>
    refine (hself hN (tameAll_cons.mp hsites).1).bind fun value s₁ _ hvalue => ?_
    have hrebuilt {s₂ : Store} (hle : s₁.next ≤ s₂.next) :
        Advances (rebuilt u value (.proj value index)) s₂ fun o N => ∀ u, o = some u → u.Tame N D :=
      advances_rebuilt u value (Traversal.tames_plain rfl rfl rfl (by simp)
        (tameAll_cons.mpr ⟨hvalue.later hle, tameAll_nil⟩))
    split
    next fields type hnode =>
      have hfields := tameAll_map.mp (tameAll_append.mp (hvalue.reads hnode)).1
      refine (Traversal.advances_componentAt fields index).bind fun o s₂ hle ho => ?_
      cases o with
      | some c => exact .pure fun c hc => (hfields c (ho c hc)).later hle
      | none => exact hrebuilt hle
    next =>
      refine Advances.bind (P := fun o _ => o = none) (.pure rfl) fun o s₂ hle ho => ?_
      subst ho
      exact hrebuilt hle
  | ofType u type =>
    refine .pure ?_
    rintro _ ⟨rfl⟩
    exact (tameAll_cons.mp hsites).1
  | con | data | record | lam | pi | sigma | tuple | univ | new | int | hole =>
    exact .pure (by simp)

end Reduction

section Whnf

variable {sig : Signature} {N : Nat} {D : Vars} {s : Store} {t : Term}

theorem tames_whnf (hsig : sig.TameBodies N) (hD : ∀ x, Vars.old N x → D x) (fuel : Nat)
    (hN : N ≤ s.next) (ht : t.Tame s.next D) : Tames (t.whnf sig fuel) s D := by
  induction fuel generalizing t s with
  | zero => exact .throw
  | succ fuel ih =>
    rw [Term.whnf]
    refine (Reduction.advances_step hD (fun hN ht => ih hN ht) hsig hN ht).bind fun o s₁ hle ho => ?_
    cases o with
    | none => exact .pure (ht.later hle)
    | some u => exact ih (hN.trans hle) (ho u rfl)

/-- A typed term reduces. -/
theorem yields_whnf_ne_ofType (fuel : Nat) :
    Yields (t.whnf sig fuel) s fun t' _ => ∀ u type, t'.node ≠ .ofType u type := by
  induction fuel generalizing t s with
  | zero => exact .throw
  | succ fuel ih =>
    have hstep : Yields (Reduction.step sig fuel (Term.whnf sig fuel) t) s fun o _ =>
        o = none → ∀ u type, t.node ≠ .ofType u type := by
      obtain ⟨stamp, node⟩ := t
      cases node with
      | ofType u type => exact .pure (by simp)
      | _ => exact fun _ _ _ _ _ _ h => by cases h
    rw [Term.whnf]
    refine hstep.bind fun o s₁ ho => ?_
    cases o with
    | none => exact .pure (ho rfl)
    | some u => exact ih

end Whnf

end Recheck
