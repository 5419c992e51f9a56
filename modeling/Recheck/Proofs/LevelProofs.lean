import Recheck.Proofs.Heads
import Recheck.Typing.Terms

/-!
# Recheck — level proofs

A level proof shows that a type has a bounded homotopy level. Its type is a function type whose
parameters come in pairs: two elements of the type, two elements of their equality, and so on.
Main statement: `Typing.levelProof_ok_iff`, the terms that are accepted and the levels that they
prove. The pairs have to form such a tower, and an equality has to follow them, but it need not
be the one of the last pair.
-/

namespace Recheck

namespace Typing

variable {k : Checker} {fuel : Nat} {self : Scope → Term → Option Term → Check Term}
  {scope : Scope} {proof type : Term} {columns : List (Column Term)} {s s' : CheckState}

/-- The equality of two variables of a type, with the numbers from `i` on. -/
def variableEquality (i : Nat) (type : Term) (x y : Var) : Term :=
  .mk (i + 2) (.call Prelude.equality .prop [type, .mk i (.ref x), .mk (i + 1) (.ref y)])

/-- The columns are pairs of variables. Those of the first pair are of the type, and those of each
later one are of the equality of the pair before. The states are those before and after the
comparisons of the types. -/
inductive Tower (k : Checker) (fuel : Nat) :
    Nat → Term → List (Column Term) → CheckState → CheckState → Prop where
  | nil (type : Term) (s : CheckState) : Tower k fuel 0 type [] s s
  | pair {n i : Nat} {type C D : Term} {c d : Column Term} {rest : List (Column Term)}
      {s s₁ s₂ s' : CheckState} (hc : c.type = some C) (hd : d.type = some D)
      (hC : k.compareTypes fuel .eq C type s = .ok true s₁)
      (hD : k.compareTypes fuel .eq D type s₁ = .ok true s₂)
      (hi : s₂.solver.store.next = i)
      (hrest : Tower k fuel n (variableEquality i type c.var d.var) rest
        { s₂ with solver.store.next := i + 3 } s') :
      Tower k fuel (n + 1) type (c :: d :: rest) s s'

theorem typeM_ok_iff {c : Column Term} {C : Term} :
    (liftM (c.typeM : Core Term) : Check Term) s = .ok C s' ↔ c.type = some C ∧ s' = s := by
  rw [Column.typeM]
  cases c.type with
  | none => constructor <;> rintro ⟨⟩ <;> contradiction
  | some D =>
    constructor
    · rintro ⟨⟩
      exact ⟨rfl, rfl⟩
    · rintro ⟨⟨⟩, rfl⟩
      rfl

/-- A pair is accepted if both of its types are the one expected. -/
theorem levelPairs_cons_ok_iff {c d : Column Term} {rest : List (Column Term)} :
    levelPairs k fuel proof type (c :: d :: rest) s = .ok () s' ↔ ∃ C D s₁ s₂, c.type = some C ∧
      d.type = some D ∧ k.compareTypes fuel .eq C type s = .ok true s₁ ∧
      k.compareTypes fuel .eq D type s₁ = .ok true s₂ ∧
      levelPairs k fuel proof (variableEquality s₂.solver.store.next type c.var d.var) rest
        { s₂ with solver.store.next := s₂.solver.store.next + 3 } = .ok () s' := by
  constructor
  · intro hrun
    obtain ⟨C, s₀, hc', hrun₁⟩ := bind_eq_ok_iff.mp hrun
    obtain ⟨hc, rfl⟩ := typeM_ok_iff.mp hc'
    obtain ⟨accepted, s₁, hC, hrun₂⟩ := bind_eq_ok_iff.mp hrun₁
    cases accepted with
    | false =>
      obtain ⟨_, _, _, hrun₃⟩ := bind_eq_ok_iff.mp ((run_bind rfl).symm.trans hrun₂)
      cases hrun₃
    | true =>
      obtain ⟨D, s₂, hd', hrun₃⟩ := bind_eq_ok_iff.mp hrun₂
      obtain ⟨hd, rfl⟩ := typeM_ok_iff.mp hd'
      obtain ⟨accepted, s₃, hD, hrun₄⟩ := bind_eq_ok_iff.mp hrun₃
      cases accepted with
      | false =>
        obtain ⟨_, _, _, hrun₅⟩ := bind_eq_ok_iff.mp hrun₄
        cases hrun₅
      | true => exact ⟨C, D, _, s₃, hc, hd, hC, hD, hrun₄⟩
  · rintro ⟨C, D, s₁, s₂, hc, hd, hC, hD, h⟩
    rw [levelPairs, run_bind (typeM_ok_iff.mpr ⟨hc, rfl⟩)]
    refine (run_bind hC).trans ?_
    refine (run_bind (typeM_ok_iff.mpr ⟨hd, rfl⟩)).trans ?_
    exact (run_bind hD).trans h

/-- The pairs are checked one after the other, and none is left over. -/
theorem levelPairs_ok_iff {n : Nat} (hlength : columns.length = 2 * n) :
    levelPairs k fuel proof type columns s = .ok () s' ↔ Tower k fuel n type columns s s' := by
  induction n generalizing type columns s with
  | zero =>
    obtain rfl := List.length_eq_zero_iff.mp hlength
    exact ⟨fun h => by cases h; exact .nil type _, fun h => by cases h; rfl⟩
  | succ n ih =>
    obtain ⟨c, tail, rfl⟩ := List.exists_cons_of_length_eq_add_one hlength
    obtain ⟨d, rest, rfl⟩ := List.exists_cons_of_length_eq_add_one (Nat.succ.inj hlength)
    have hrest : rest.length = 2 * n := Nat.succ.inj (Nat.succ.inj hlength)
    rw [levelPairs_cons_ok_iff]
    constructor
    · rintro ⟨C, D, s₁, s₂, hc, hd, hC, hD, h⟩
      exact .pair hc hd hC hD rfl ((ih hrest).mp h)
    · rintro (_ | ⟨hc, hd, hC, hD, rfl, h⟩)
      exact ⟨_, _, _, _, hc, hd, hC, hD, (ih hrest).mpr h⟩

theorem Tower.length {n : Nat} (h : Tower k fuel n type columns s s') : columns.length = 2 * n := by
  induction h with
  | nil => rfl
  | pair _ _ _ _ _ _ ih =>
    rw [List.length_cons, List.length_cons, ih]
    omega

/-- A number of columns that passes: even, and not zero. -/
theorem columns_paired_iff :
    (columns.isEmpty || decide (columns.length % 2 ≠ 0)) = false ↔
      ∃ n, 1 ≤ n ∧ columns.length = 2 * n := by
  rw [Bool.or_eq_false_iff, List.isEmpty_eq_false_iff, decide_eq_false_iff_not,
    Decidable.not_not, ← List.length_pos_iff]
  constructor
  · rintro ⟨hpos, heven⟩
    exact ⟨columns.length / 2, by omega, by omega⟩
  · rintro ⟨n, hn, hlength⟩
    omega

/-- A level proof is accepted exactly if the parameters of its type form a tower of pairs over
the type, one at least, and lead to an equality. Which elements that one is about does not matter.
The level is two less than the number of pairs. -/
theorem levelProof_ok_iff (k : Checker) (fuel : Nat)
    (self : Scope → Term → Option Term → Check Term) (scope : Scope) (proof type : Term)
    (s s' : CheckState) (level : Int) :
    levelProof k fuel self scope proof type s = .ok level s' ↔
      ∃ proofType s₁ columns codomain s₂ n, self scope proof none s = .ok proofType s₁ ∧
        (liftM (piParameters k.sig fuel proofType) : Check _) s₁ = .ok (columns, codomain) s₂ ∧
        (∃ A a b, codomain.asEquality = some (A, a, b)) ∧
        1 ≤ n ∧ Tower k fuel n type columns s₂ s' ∧ level = (n : Int) - 2 := by
  constructor
  · intro hrun
    obtain ⟨proofType, s₁, hproof, hrun₁⟩ := bind_eq_ok_iff.mp hrun
    obtain ⟨⟨columns, codomain⟩, s₂, hparams, hrun₂⟩ := bind_eq_ok_iff.mp hrun₁
    dsimp only at hrun₂
    cases hequality : codomain.asEquality with
    | none =>
      rw [hequality] at hrun₂
      obtain ⟨_, _, _, hrun₃⟩ := bind_eq_ok_iff.mp hrun₂
      cases hrun₃
    | some sides =>
      obtain ⟨A, a, b⟩ := sides
      rw [hequality, if_neg (by simp)] at hrun₂
      split at hrun₂
      next => cases hrun₂
      next hcount =>
        obtain ⟨n, hn, hlength⟩ := columns_paired_iff.mp (eq_false_of_ne_true hcount)
        obtain ⟨_, s₃, hpairs, hrun₃⟩ := bind_eq_ok_iff.mp hrun₂
        cases hrun₃
        refine ⟨proofType, s₁, columns, codomain, s₂, n, hproof, hparams, ⟨A, a, b, hequality⟩, hn,
          (levelPairs_ok_iff hlength).mp hpairs, ?_⟩
        omega
  · rintro ⟨proofType, s₁, columns, codomain, s₂, n, hproof, hparams, ⟨A, a, b, hequality⟩, hn,
      htower, rfl⟩
    have hlength := htower.length
    rw [levelProof, run_bind hproof, run_bind hparams]
    dsimp only
    rw [hequality, columns_paired_iff.mpr ⟨n, hn, hlength⟩]
    refine (run_bind ((levelPairs_ok_iff hlength).mpr htower)).trans ?_
    have hlevel : (columns.length / 2 - 2 : Int) = n - 2 := by omega
    rw [hlevel]
    rfl

end Typing

namespace ConstantProof

open Prelude (checker)

def a : Var := ⟨13, .param, "a"⟩

def b : Var := ⟨14, .param, "b"⟩

def nat : Term := .mk 15 .nat

def zero : Term := .mk 16 .zero

/-- The equality `zero = zero`. -/
def equation : Term := .mk 17 (.call Prelude.equality .prop [nat, zero, zero])

/-- The type `Π (a b : Nat), zero = zero`. -/
def type : Term := .mk 18 (.pi .prop [⟨a, none, true⟩, ⟨b, some nat, true⟩] equation)

def p : Var := ⟨19, .param, "p"⟩

def state : CheckState := .ofStore (.start 21)

/-- That `zero` is `zero` passes for a proof that all numbers are equal. -/
theorem constant_accepted : ∃ s, Typing.levelProof checker 5 (Typing.term checker 5)
    (.ofContext ⟨[⟨p, some type⟩]⟩) (.mk 20 (.ref p)) nat state = .ok (-1) s :=
  ⟨_, rfl⟩

end ConstantProof

end Recheck
