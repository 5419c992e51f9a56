import Recheck.Proofs.Curried
import Mathlib.Data.Set.Basic

/-!
# Recheck — a model of curried terms

Terms are told apart by their traits. A trait says of a function that for arguments with
certain traits the result has a certain trait, and of anything else nothing. What a term
is equal to up to beta and eta has the same traits (`Conv.traits_eq`), so terms with
different traits are different.

Beta holds because each trait of a term hangs on finitely many traits of its variables. For
eta, what a function does with arguments of many traits it does with arguments of more, and
a function of which nothing is asked is the same as one that returns such a thing.
-/

namespace Recheck

namespace Curried

/-- What can be known of a term. -/
inductive Trait where
  /-- Nothing is asked. -/
  | any
  /-- For arguments with all of these traits the result has the trait. -/
  | fn (args : List Trait) (result : Trait)

namespace Trait

def args : Trait → List Trait
  | any => []
  | fn args _ => args

def result : Trait → Trait
  | any => any
  | fn _ result => result

/-- What has the first trait has the second one. -/
inductive Le : Trait → Trait → Prop where
  | refl (t : Trait) : Le t t
  | trans {t u v : Trait} (h : Le t u) (h' : Le u v) : Le t v
  | of {t u : Trait} (f : Trait → Trait) (hmem : ∀ b ∈ t.args, f b ∈ u.args)
      (hargs : ∀ b ∈ t.args, Le (f b) b) (hresult : Le t.result u.result) : Le t u

/-- The traits that follow from those in the list. -/
def closure (ts : List Trait) : Set Trait := {u | ∃ t ∈ ts, Le t u}

/-- What follows from traits in the set is in the set. -/
def Closed (S : Set Trait) : Prop := ∀ t u, Le t u → t ∈ S → u ∈ S

variable {S : Set Trait} {ts us : List Trait} {t u : Trait}

theorem closed_closure : Closed (closure ts) := by
  rintro t u h ⟨a, ha, hle⟩
  exact ⟨a, ha, hle.trans h⟩

theorem closure_subset (hS : Closed S) (h : ∀ t ∈ ts, t ∈ S) : closure ts ⊆ S := by
  rintro u ⟨t, ht, hle⟩
  exact hS t u hle (h t ht)

theorem mem_closure (h : t ∈ ts) : t ∈ closure ts := ⟨t, h, .refl t⟩

theorem closure_mono (h : ts ⊆ us) : closure ts ⊆ closure us :=
  closure_subset closed_closure fun _ ht => mem_closure (h ht)

theorem Le.results (h : Le t u) : Le t.result u.result ∧ closure t.args ⊆ closure u.args := by
  induction h with
  | refl t => exact ⟨.refl _, fun _ h => h⟩
  | trans _ _ ih ih' => exact ⟨ih.1.trans ih'.1, ih.2.trans ih'.2⟩
  | of f hmem hargs hresult =>
    exact ⟨hresult, closure_subset closed_closure fun b hb => ⟨f b, hmem b hb, hargs b hb⟩⟩

/-- Less is asked of the arguments. -/
theorem le_of_args (hargs : ∀ b ∈ t.args, b ∈ closure u.args) (hresult : Le t.result u.result) :
    Le t u := by
  choose! f hmem hle using hargs
  exact .of f hmem hle hresult

end Trait

open Trait (closure Closed)

/-- The traits of the bound variables. -/
abbrev Assumption := Nat → Set Trait

/-- The assumption under one more binder. -/
def Assumption.cons (S : Set Trait) (ρ : Assumption) : Assumption
  | 0 => S
  | i + 1 => ρ i

/-- The traits of a term. A pair counts as an application and a binder as a function, whatever
they are; of free variables and atoms nothing is known. -/
def traits : Curried → Assumption → Set Trait
  | .bound i, ρ => ρ i
  | .free _, _ | .atom _, _ => ∅
  | .pair _ f a, ρ => {t | ∃ g ∈ f.traits ρ, g.result = t ∧ ∀ b ∈ g.args, b ∈ a.traits ρ}
  | .bind _ _ b, ρ => {t | t.result ∈ b.traits (ρ.cons (closure t.args))}

variable {m n : Curried} {ρ ρ' : Assumption} {S : Set Trait} {t : Trait}

theorem closed_cons (hS : Closed S) (hρ : ∀ i, Closed (ρ i)) (i : Nat) : Closed (ρ.cons S i) := by
  cases i with
  | zero => exact hS
  | succ i => exact hρ i

theorem cons_mono {S' : Set Trait} (hS : S ⊆ S') (hρ : ∀ i, ρ i ⊆ ρ' i) (i : Nat) :
    ρ.cons S i ⊆ ρ'.cons S' i := by
  cases i with
  | zero => exact hS
  | succ i => exact hρ i

theorem traits_mono (hρ : ∀ i, ρ i ⊆ ρ' i) : n.traits ρ ⊆ n.traits ρ' := by
  induction n generalizing ρ ρ' with
  | bound i => exact hρ i
  | free | atom => exact fun _ h => h
  | pair _ f a ihf iha =>
    rintro t ⟨g, hg, hresult, hargs⟩
    exact ⟨g, ihf hρ hg, hresult, fun b hb => iha hρ (hargs b hb)⟩
  | bind _ _ b _ ih => exact fun t ht => ih (cons_mono (fun _ h => h) hρ) ht

theorem closed_traits (hρ : ∀ i, Closed (ρ i)) : Closed (n.traits ρ) := by
  induction n generalizing ρ with
  | bound i => exact hρ i
  | free | atom => exact fun _ _ _ h => h.elim
  | pair _ f a ihf _ =>
    rintro t u hle ⟨g, hg, rfl, hargs⟩
    refine ⟨.fn g.args u, ihf hρ g _ ?_ hg, rfl, hargs⟩
    exact Trait.le_of_args (fun b hb => Trait.mem_closure hb) hle
  | bind _ _ b _ ih =>
    intro t u hle ht
    have hle := hle.results
    refine ih (closed_cons Trait.closed_closure hρ) _ _ hle.1 ?_
    exact traits_mono (cons_mono hle.2 fun _ _ h => h) ht

/-- A trait of a term hangs on finitely many traits of its variables. -/
theorem traits_finite (ht : t ∈ n.traits ρ) : ∃ ts : Nat → List Trait,
    (∀ i, ∀ u ∈ ts i, u ∈ ρ i) ∧ t ∈ n.traits fun i => closure (ts i) := by
  induction n generalizing ρ t with
  | bound i =>
    refine ⟨Function.update (fun _ => []) i [t], fun j u hu => ?_, Trait.mem_closure (by simp)⟩
    by_cases hj : j = i
    · subst hj
      rw [Function.update_self, List.mem_singleton] at hu
      rw [hu]
      exact ht
    · rw [Function.update_of_ne hj] at hu
      cases hu
  | free | atom => exact ht.elim
  | pair _ f a ihf iha =>
    obtain ⟨g, hg, rfl, hargs⟩ := ht
    obtain ⟨ts, hts, hg⟩ := ihf hg
    have hall : ∃ us : Nat → List Trait, (∀ i, ∀ u ∈ us i, u ∈ ρ i) ∧
        ∀ b ∈ g.args, b ∈ a.traits fun i => closure (us i) := by
      choose! us hus hargs using fun b hb => iha (hargs b hb)
      refine ⟨fun i => g.args.flatMap (us · i), fun i u hu => ?_, fun b hb => ?_⟩
      · obtain ⟨b, hb, hu⟩ := List.mem_flatMap.mp hu
        exact hus b hb i u hu
      · refine traits_mono (fun i => Trait.closure_mono fun u hu => ?_) (hargs b hb)
        exact List.mem_flatMap.mpr ⟨b, hb, hu⟩
    obtain ⟨us, hus, hargs⟩ := hall
    refine ⟨fun i => ts i ++ us i, fun i u hu => ?_, g, ?_, rfl, fun b hb => ?_⟩
    · exact (List.mem_append.mp hu).elim (hts i u) (hus i u)
    · exact traits_mono (fun i => Trait.closure_mono (List.subset_append_left _ _)) hg
    · exact traits_mono (fun i => Trait.closure_mono (List.subset_append_right _ _)) (hargs b hb)
  | bind _ _ b _ ih =>
    obtain ⟨ts, hts, hresult⟩ := ih ht
    refine ⟨fun i => ts (i + 1), fun i => hts (i + 1), ?_⟩
    refine traits_mono (n := b) (fun i => ?_) hresult
    cases i with
    | zero => exact Trait.closure_subset Trait.closed_closure (hts 0)
    | succ i => exact fun _ h => h

theorem traits_rename (f : Nat → Nat) : (n.rename f).traits ρ = n.traits fun i => ρ (f i) := by
  induction n generalizing f ρ with
  | bound | free | atom => rfl
  | pair _ _ _ ihm ihn => simp only [rename, traits, ihm, ihn]
  | bind _ _ b _ ih =>
    ext t
    have hcons : (fun i => ρ.cons (closure t.args) (liftRename f i)) =
        Assumption.cons (closure t.args) fun i => ρ (f i) := by
      funext i
      cases i <;> rfl
    show t.result ∈ (b.rename (liftRename f)).traits _ ↔ _
    rw [ih, hcons]
    rfl

theorem traits_subst {e : Env} (he : ∀ x, e.free x = .free x) :
    (n.subst e).traits ρ = n.traits fun i => (e.bound i).traits ρ := by
  induction n generalizing e ρ with
  | bound | atom => rfl
  | free x => rw [subst, he]; rfl
  | pair _ _ _ ihm ihn => simp only [subst, traits, ihm he, ihn he]
  | bind _ _ b _ ih =>
    have hlift : ∀ x, e.lift.free x = .free x := fun x => congrArg shift (he x)
    ext t
    have hcons : (fun i => (e.lift.bound i).traits (ρ.cons (closure t.args))) =
        Assumption.cons (closure t.args) fun i => (e.bound i).traits ρ := by
      funext i
      cases i with
      | zero => rfl
      | succ i => exact traits_rename _
    show t.result ∈ (b.subst e.lift).traits _ ↔ _
    rw [ih hlift, hcons]
    rfl

theorem traits_inst (b a : Curried) : (b.inst a).traits ρ = b.traits (ρ.cons (a.traits ρ)) := by
  rw [inst, traits_subst fun _ => rfl]
  congr 1
  funext i
  cases i <;> rfl

theorem traits_beta (hρ : ∀ i, Closed (ρ i)) (type b a : Curried) :
    (app (lam type b) a).traits ρ = (b.inst a).traits ρ := by
  rw [traits_inst]
  ext t
  constructor
  · rintro ⟨g, hg, rfl, hargs⟩
    exact traits_mono (cons_mono (Trait.closure_subset (closed_traits hρ) hargs) fun _ _ h => h) hg
  · intro ht
    obtain ⟨ts, hts, ht⟩ := traits_finite ht
    refine ⟨.fn (ts 0) t, ?_, rfl, hts 0⟩
    refine traits_mono (n := b) (fun i => ?_) ht
    cases i with
    | zero => exact fun _ h => h
    | succ i => exact Trait.closure_subset (hρ i) (hts (i + 1))

theorem traits_eta (hρ : ∀ i, Closed (ρ i)) (type f : Curried) :
    (lam type (app f.shift (.bound 0))).traits ρ = f.traits ρ := by
  ext t
  have hshift : f.shift.traits (ρ.cons (closure t.args)) = f.traits ρ := traits_rename _
  constructor
  · rintro ⟨g, hg, hresult, hargs⟩
    rw [hshift] at hg
    exact closed_traits hρ g t (Trait.le_of_args hargs (hresult ▸ .refl _)) hg
  · intro ht
    refine ⟨t, ?_, rfl, fun b hb => Trait.mem_closure hb⟩
    rw [hshift]
    exact ht

/-- Terms that are equal up to beta and eta have the same traits. -/
theorem Conv.traits_eq (h : Conv m n) (hρ : ∀ i, Closed (ρ i)) : m.traits ρ = n.traits ρ := by
  induction h generalizing ρ with
  | refl n => rfl
  | trans _ _ ih ih' => rw [ih hρ, ih' hρ]
  | symm _ _ ih => exact (ih hρ).symm
  | beta type b a => exact traits_beta hρ type b a
  | eta _ type f => exact traits_eta hρ type f
  | pair form _ _ ihm ihn => simp only [traits, ihm hρ, ihn hρ]
  | bind binding _ _ _ ih =>
    ext t
    exact Eq.to_iff (congrArg (t.result ∈ ·) (ih (closed_cons Trait.closed_closure hρ)))

end Curried

end Recheck
