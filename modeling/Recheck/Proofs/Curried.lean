import Recheck.Name
import Mathlib.Logic.Function.Basic

/-!
# Recheck — curried terms

A `Curried` term is what is left of a term of the function fragment without the names of
bound variables, without sorts and without telescopes: functions and function types have
one parameter each, and a list of arguments is a chain of pairs. Data arguments of
constructors are left out as well.

* `Curried.subst` replaces bound and free variables at once.
* `Curried.Rel` is reduction by beta, or equality up to beta and eta, depending on whether
  it is `equational`.
-/

namespace Recheck

namespace Curried

/-- The ends of curried terms, variables apart. -/
inductive Atom where
  | univ
  /-- The end of a list of arguments or parameters. -/
  | nil
  | con (c : ConName)
  | data (d : DataName)
  | sigma

/-- What two parts are put together as. -/
inductive Form where
  | app
  /-- A list of arguments. -/
  | cons
  /-- An atom with its arguments or parameters. -/
  | node

/-- What binds a variable. -/
inductive Binding where
  | lam
  | pi
  /-- A parameter of a tuple type. -/
  | sigma

end Curried

/-- A term without names of bound variables, sorts and telescopes. -/
inductive Curried where
  /-- A bound variable, by its distance from the innermost binder. -/
  | bound (index : Nat)
  | free (x : Var)
  | atom (a : Curried.Atom)
  | pair (form : Curried.Form) (fst snd : Curried)
  /-- The type of a variable, and what is in its scope. -/
  | bind (binding : Curried.Binding) (type body : Curried)

namespace Curried

variable {x y : Var} {P Q : Var → Prop} {n m : Curried} {equational : Bool}

@[match_pattern] abbrev app (f a : Curried) : Curried := .pair .app f a

@[match_pattern] abbrev lam (type body : Curried) : Curried := .bind .lam type body

@[match_pattern] abbrev nil : Curried := .atom .nil

/-! ## Substitution -/

/-- A renaming under one more binder. -/
def liftRename (f : Nat → Nat) : Nat → Nat
  | 0 => 0
  | i + 1 => f i + 1

/-- The term with other bound variables. -/
def rename (f : Nat → Nat) : Curried → Curried
  | .bound i => .bound (f i)
  | .free x => .free x
  | .atom a => .atom a
  | .pair form m n => .pair form (m.rename f) (n.rename f)
  | .bind binding type body => .bind binding (type.rename f) (body.rename (liftRename f))

/-- The term in a scope with one more variable. -/
def shift (n : Curried) : Curried := n.rename Nat.succ

/-- What replaces the bound and the free variables of a term. -/
@[ext] structure Env where
  bound : Nat → Curried
  free : Var → Curried

/-- The environment under one more binder. -/
def Env.lift (e : Env) : Env where
  bound i := match i with
    | 0 => .bound 0
    | i + 1 => (e.bound i).shift
  free x := (e.free x).shift

/-- The term with all of its variables replaced. -/
def subst (e : Env) : Curried → Curried
  | .bound i => e.bound i
  | .free x => e.free x
  | .atom a => .atom a
  | .pair form m n => .pair form (m.subst e) (n.subst e)
  | .bind binding type body => .bind binding (type.subst e) (body.subst e.lift)

/-- Replaces free variables only. -/
def Env.ofFree (θ : Var → Curried) : Env := ⟨.bound, θ⟩

/-- Replaces the innermost bound variable, whose binder is gone. -/
def Env.single (a : Curried) : Env where
  bound i := match i with
    | 0 => a
    | i + 1 => .bound i
  free := .free

/-- Turns a free variable into the innermost bound one. -/
def Env.close (x : Var) : Env := ⟨fun i => .bound (i + 1), fun y => if y = x then .bound 0 else .free y⟩

theorem Env.close_self (x : Var) : (Env.close x).free x = .bound 0 := if_pos rfl

theorem Env.close_of_ne (h : y ≠ x) : (Env.close x).free y = .free y := if_neg h

/-- The term behind a binder, with an argument in place of the variable. -/
def inst (b a : Curried) : Curried := b.subst (.single a)

/-- The term behind a binder of a variable that was free before. -/
def close (x : Var) (n : Curried) : Curried := n.subst (.close x)

theorem liftRename_comp (f g : Nat → Nat) :
    liftRename (fun i => g (f i)) = fun i => liftRename g (liftRename f i) := by
  funext i
  cases i <;> rfl

theorem rename_rename (f g : Nat → Nat) (n : Curried) :
    (n.rename f).rename g = n.rename fun i => g (f i) := by
  induction n generalizing f g with
  | bound | free | atom => rfl
  | pair form m n ihm ihn => simp only [rename, ihm, ihn]
  | bind binding type body iht ihb => simp only [rename, iht, ihb, liftRename_comp]

theorem subst_rename (f : Nat → Nat) (e : Env) (n : Curried) :
    (n.rename f).subst e = n.subst ⟨fun i => e.bound (f i), e.free⟩ := by
  induction n generalizing f e with
  | bound | free | atom => rfl
  | pair form m n ihm ihn => simp only [rename, subst, ihm, ihn]
  | bind binding type body iht ihb =>
    simp only [rename, subst, iht, ihb]
    congr 2
    ext i
    · cases i <;> rfl
    · rfl

theorem rename_subst (f : Nat → Nat) (e : Env) (n : Curried) :
    (n.subst e).rename f = n.subst ⟨fun i => (e.bound i).rename f, fun x => (e.free x).rename f⟩ := by
  induction n generalizing f e with
  | bound | free | atom => rfl
  | pair form m n ihm ihn => simp only [rename, subst, ihm, ihn]
  | bind binding type body iht ihb =>
    simp only [rename, subst, iht, ihb]
    congr 2
    ext i
    · cases i with
      | zero => rfl
      | succ i => simp only [Env.lift, shift, rename_rename, liftRename]
    · simp only [Env.lift, shift, rename_rename, liftRename]

/-- One environment after the other. -/
def Env.andThen (e e' : Env) : Env := ⟨fun i => (e.bound i).subst e', fun x => (e.free x).subst e'⟩

theorem subst_shift (e : Env) (n : Curried) : n.shift.subst e.lift = (n.subst e).shift := by
  rw [shift, subst_rename, shift, rename_subst]
  rfl

theorem Env.lift_andThen (e e' : Env) : (e.andThen e').lift = e.lift.andThen e'.lift := by
  ext i
  · cases i with
    | zero => rfl
    | succ i => exact (subst_shift e' (e.bound i)).symm
  · exact (subst_shift e' (e.free _)).symm

theorem subst_subst (e e' : Env) (n : Curried) : (n.subst e).subst e' = n.subst (e.andThen e') := by
  induction n generalizing e e' with
  | bound | free | atom => rfl
  | pair form m n ihm ihn => simp only [subst, ihm, ihn]
  | bind binding type body iht ihb => simp only [subst, iht, ihb, Env.lift_andThen]

theorem Env.lift_id : (⟨.bound, .free⟩ : Env).lift = ⟨.bound, .free⟩ := by
  ext i
  · cases i <;> rfl
  · rfl

theorem subst_id (n : Curried) : n.subst ⟨.bound, .free⟩ = n := by
  induction n with
  | bound | free | atom => rfl
  | pair form m n ihm ihn => simp only [subst, ihm, ihn]
  | bind binding type body iht ihb => simp only [subst, Env.lift_id, iht, ihb]

theorem inst_shift (n a : Curried) : n.shift.inst a = n := by
  rw [inst, shift, subst_rename]
  exact subst_id n

theorem subst_inst (b a : Curried) (e : Env) :
    (b.inst a).subst e = (b.subst e.lift).inst (a.subst e) := by
  rw [inst, inst, subst_subst, subst_subst]
  congr 1
  ext i
  · cases i with
    | zero => rfl
    | succ i => exact (inst_shift (e.bound i) (a.subst e)).symm
  · exact (inst_shift (e.free _) (a.subst e)).symm

/-- Putting an argument in place of a variable that was just bound. -/
theorem inst_close (x : Var) (n a : Curried) :
    (n.close x).inst a = n.subst (.ofFree (Function.update .free x a)) := by
  rw [close, inst, subst_subst]
  congr 1
  ext y
  · rfl
  · show ((Env.close x).free y).subst (.single a) = Function.update Curried.free x a y
    by_cases hyx : y = x
    · subst hyx
      rw [Env.close_self, Function.update_self]
      rfl
    · rw [Env.close_of_ne hyx, Function.update_of_ne hyx]
      rfl

/-! ## Free variables -/

/-- All free variables have the property. -/
def Over (P : Var → Prop) : Curried → Prop
  | .bound _ | .atom _ => True
  | .free x => P x
  | .pair _ m n | .bind _ m n => m.Over P ∧ n.Over P

theorem Over.mono (hle : ∀ x, P x → Q x) (h : n.Over P) : n.Over Q := by
  induction n with
  | bound | atom => trivial
  | free x => exact hle x h
  | pair _ m n ihm ihn | bind _ m n ihm ihn => exact ⟨ihm h.1, ihn h.2⟩

theorem over_and : (n.Over fun x => P x ∧ Q x) ↔ n.Over P ∧ n.Over Q := by
  induction n with
  | bound | atom => exact ⟨fun h => ⟨h, h⟩, fun h => h.1⟩
  | free x => exact Iff.rfl
  | pair _ m n ihm ihn | bind _ m n ihm ihn =>
    constructor
    · intro h
      exact ⟨⟨(ihm.mp h.1).1, (ihn.mp h.2).1⟩, (ihm.mp h.1).2, (ihn.mp h.2).2⟩
    · intro h
      exact ⟨ihm.mpr ⟨h.1.1, h.2.1⟩, ihn.mpr ⟨h.1.2, h.2.2⟩⟩

theorem over_rename (f : Nat → Nat) : (n.rename f).Over P ↔ n.Over P := by
  induction n generalizing f with
  | bound | atom | free => exact Iff.rfl
  | pair _ m n ihm ihn | bind _ m n ihm ihn => exact and_congr (ihm _) (ihn _)

theorem Over.subst {e : Env} (h : n.Over P) (hbound : ∀ i, (e.bound i).Over Q)
    (hfree : ∀ x, P x → (e.free x).Over Q) : (n.subst e).Over Q := by
  induction n generalizing e with
  | bound i => exact hbound i
  | free x => exact hfree x h
  | atom => trivial
  | pair _ m n ihm ihn => exact ⟨ihm h.1 hbound hfree, ihn h.2 hbound hfree⟩
  | bind _ m n ihm ihn =>
    refine ⟨ihm h.1 hbound hfree, ihn h.2 ?_ fun x hx => (over_rename _).mpr (hfree x hx)⟩
    intro i
    cases i with
    | zero => trivial
    | succ i => exact (over_rename _).mpr (hbound i)

/-- What is free after a substitution comes from what was free before. -/
theorem Over.of_subst {e : Env} (h : (n.subst e).Over Q) (hfree : ∀ x, (e.free x).Over Q → P x) :
    n.Over P := by
  induction n generalizing e with
  | bound | atom => trivial
  | free x => exact hfree x h
  | pair _ m n ihm ihn => exact ⟨ihm h.1 hfree, ihn h.2 hfree⟩
  | bind _ m n ihm ihn =>
    exact ⟨ihm h.1 hfree, ihn h.2 fun x hx => hfree x ((over_rename _).mp hx)⟩

theorem over_close : (n.close x).Over P ↔ n.Over fun y => y = x ∨ P y := by
  constructor
  · intro h
    refine h.of_subst fun y hy => ?_
    by_cases hyx : y = x
    · exact .inl hyx
    · rw [Env.close_of_ne hyx] at hy
      exact .inr hy
  · intro h
    refine h.subst (fun _ => trivial) fun y hy => ?_
    by_cases hyx : y = x
    · subst hyx
      rw [Env.close_self]
      trivial
    · rw [Env.close_of_ne hyx]
      exact hy.resolve_left hyx

/-- Only the variables that are free in a term matter. -/
theorem subst_congr {e e' : Env} (h : n.Over P) (hbound : ∀ i, e.bound i = e'.bound i)
    (hfree : ∀ x, P x → e.free x = e'.free x) : n.subst e = n.subst e' := by
  induction n generalizing e e' with
  | bound i => exact hbound i
  | free x => exact hfree x h
  | atom => rfl
  | pair _ m n ihm ihn => rw [subst, subst, ihm h.1 hbound hfree, ihn h.2 hbound hfree]
  | bind _ m n ihm ihn =>
    have hlift : ∀ i, e.lift.bound i = e'.lift.bound i := by
      intro i
      cases i with
      | zero => rfl
      | succ i => exact congrArg shift (hbound i)
    have hlift' : ∀ x, P x → e.lift.free x = e'.lift.free x := fun x hx =>
      congrArg shift (hfree x hx)
    rw [subst, subst, ihm h.1 hbound hfree, ihn h.2 hlift hlift']

/-- Binding a variable that does not occur. -/
theorem close_eq_shift (h : n.Over P) (hx : ¬ P x) : n.close x = n.shift := by
  have hshift : n.shift = n.subst ⟨fun i => .bound (i + 1), .free⟩ := calc
    n.shift = (n.subst ⟨.bound, .free⟩).shift := by rw [subst_id]
    _ = n.subst ⟨fun i => .bound (i + 1), .free⟩ := rename_subst _ _ _
  rw [hshift, close]
  refine subst_congr h (fun _ => rfl) fun y hy => ?_
  refine Env.close_of_ne ?_
  rintro rfl
  exact hx hy

/-- The environment behind a binder of a variable that was free before. -/
def Env.behind (e : Env) (x : Var) : Env := (Env.close x).andThen e.lift

theorem Env.behind_self (e : Env) (x : Var) : (e.behind x).free x = .bound 0 := by
  show ((Env.close x).free x).subst e.lift = .bound 0
  rw [Env.close_self]
  rfl

theorem Env.behind_of_ne (e : Env) (h : y ≠ x) : (e.behind x).free y = (e.free y).shift := by
  show ((Env.close x).free y).subst e.lift = (e.free y).shift
  rw [Env.close_of_ne h]
  rfl

theorem subst_behind (e : Env) (x : Var) (n : Curried) :
    n.subst (e.behind x) = (n.close x).subst e.lift := (subst_subst _ _ n).symm

/-- The variable that is bound does not occur. -/
theorem subst_behind_eq_shift (e : Env) (h : n.Over P) (hx : ¬ P x) :
    n.subst (e.behind x) = (n.subst e).shift := by
  rw [subst_behind, close_eq_shift h hx, subst_shift]

/-! ## Reduction and equality -/

/-- Reduction by beta anywhere in a term, any number of times; or equality up to beta and
eta. -/
inductive Rel (equational : Bool) : Curried → Curried → Prop where
  | refl (n : Curried) : Rel equational n n
  | trans {l m n : Curried} (h : Rel equational l m) (h' : Rel equational m n) : Rel equational l n
  | symm {m n : Curried} (heq : equational = true) (h : Rel equational m n) : Rel equational n m
  | beta (type b a : Curried) : Rel equational (.app (.lam type b) a) (b.inst a)
  | eta (heq : equational = true) (type f : Curried) :
      Rel equational (.lam type (.app f.shift (.bound 0))) f
  | pair (form : Form) {m m' n n' : Curried} (hm : Rel equational m m') (hn : Rel equational n n') :
      Rel equational (.pair form m n) (.pair form m' n')
  | bind (binding : Binding) {m m' n n' : Curried} (hm : Rel equational m m')
      (hn : Rel equational n n') : Rel equational (.bind binding m n) (.bind binding m' n')

/-- Reduction by beta. -/
abbrev Red : Curried → Curried → Prop := Rel false

/-- Equality up to beta and eta. -/
abbrev Conv : Curried → Curried → Prop := Rel true

theorem Rel.of_eq (h : m = n) : Rel equational m n := by
  rw [h]
  exact .refl n

theorem Red.conv (h : Red m n) : Conv m n := by
  induction h with
  | refl n => exact .refl n
  | trans _ _ ih ih' => exact ih.trans ih'
  | symm heq => cases heq
  | beta type b a => exact .beta type b a
  | eta heq => cases heq
  | pair form _ _ ihm ihn => exact .pair form ihm ihn
  | bind binding _ _ ihm ihn => exact .bind binding ihm ihn

theorem Rel.subst (h : Rel equational m n) (e : Env) : Rel equational (m.subst e) (n.subst e) := by
  induction h generalizing e with
  | refl n => exact .refl _
  | trans _ _ ih ih' => exact (ih e).trans (ih' e)
  | symm heq _ ih => exact .symm heq (ih e)
  | beta type b a =>
    rw [subst_inst]
    exact .beta _ _ _
  | eta heq type f =>
    have heta := Rel.eta heq (type.subst e) (f.subst e)
    rw [← subst_shift] at heta
    exact heta
  | pair form _ _ ihm ihn => exact .pair form (ihm e) (ihn e)
  | bind binding _ _ ihm ihn => exact .bind binding (ihm e) (ihn e.lift)

theorem Red.over (h : Red m n) (hm : m.Over P) : n.Over P := by
  induction h with
  | refl n => exact hm
  | trans _ _ ih ih' => exact ih' (ih hm)
  | symm heq | eta heq => cases heq
  | beta type b a =>
    refine hm.1.2.subst ?_ fun x hx => hx
    intro i
    cases i with
    | zero => exact hm.2
    | succ i => trivial
  | pair _ _ _ ihm ihn | bind _ _ _ ihm ihn => exact ⟨ihm hm.1, ihn hm.2⟩

/-- What a binder reduces to binds as well. -/
theorem Red.of_bind {binding : Binding} {type body : Curried}
    (h : Red (.bind binding type body) n) :
    ∃ type' body', n = .bind binding type' body' ∧ Red type type' ∧ Red body body' := by
  generalize hm : Curried.bind binding type body = m at h
  induction h generalizing type body with
  | refl n => exact ⟨type, body, hm.symm, .refl _, .refl _⟩
  | trans _ _ ih ih' =>
    obtain ⟨type', body', rfl, htype, hbody⟩ := ih hm
    obtain ⟨type'', body'', rfl, htype', hbody'⟩ := ih' rfl
    exact ⟨type'', body'', rfl, htype.trans htype', hbody.trans hbody'⟩
  | symm heq | eta heq => cases heq
  | beta | pair => cases hm
  | bind _ hm' hn' =>
    cases hm
    exact ⟨_, _, rfl, hm', hn'⟩

end Curried

end Recheck
