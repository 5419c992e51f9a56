import Recheck.Proofs.Reflexivity.Checking

/-!
# Recheck — the case that is missing

If the clauses of a match are not exhaustive, `Typing.missing` returns the patterns of a case that
none of them covers. There is one pattern for each column, and they are apart from the patterns of
every clause (`Typing.missing_apart`). This is about the splitting of columns and the joining of
rows alone, and `Pattern.rowAgainst` decides it.

What the patterns make of arguments is another question. Matching looks at some arguments and
passes over others, and what it looks at is reduced. That can define a let clause on which other
arguments hang (`SharedScrutinee.clause_undecided`). And what the columns are split at need not be
their types: a column that is split again (`NestedSplit`) and the fields of other values
(`ForeignProjection`) are lost on the way, and behind an interval elimination nothing is asked for
(`IntervalFallback`).
-/

namespace Recheck

/-! ## Patterns against patterns -/

namespace Pattern

mutual

/-- What the second pattern makes of an argument that the first one matches. Between patterns
of different forms, and of records by different fields, this is open; patterns of one type are
of one form. -/
def against : Pattern Term → Pattern Term → Decision
  | _, .bind .. | _, .wild => .yes
  | _, .absurd => .no
  | .con c qs, .con d ps => if c = d then rowAgainst qs ps else .no
  | .tuple qs, .tuple ps => rowAgainst qs ps
  | .record fs qs, .record gs ps => if fs = gs then rowAgainst qs ps else .maybe
  | _, _ => .maybe

/-- What the second row makes of arguments that the first one matches. -/
def rowAgainst : List (Pattern Term) → List (Pattern Term) → Decision
  | [], [] => .yes
  | q :: qs, p :: ps =>
    match q.against p with
    | .yes => rowAgainst qs ps
    | d => d
  | _, _ => .no

end

variable {q p : Pattern Term} {qs ps qs' ps' : List (Pattern Term)}

theorem rowAgainst_cons :
    rowAgainst (q :: qs) (p :: ps) = .yes ↔ q.against p = .yes ∧ rowAgainst qs ps = .yes := by
  rw [rowAgainst]
  cases q.against p <;> simp

theorem length_of_rowAgainst (h : rowAgainst qs ps = .yes) : ps.length = qs.length := by
  induction qs generalizing ps with
  | nil =>
    cases ps with
    | nil => rfl
    | cons p ps => cases h
  | cons q qs ih =>
    cases ps with
    | nil => cases h
    | cons p ps => exact congrArg (· + 1) (ih (rowAgainst_cons.mp h).2)

theorem rowAgainst_append (h : rowAgainst qs ps = .yes) (h' : rowAgainst qs' ps' = .yes) :
    rowAgainst (qs ++ qs') (ps ++ ps') = .yes := by
  induction qs generalizing ps with
  | nil =>
    cases ps with
    | nil => exact h'
    | cons p ps => cases h
  | cons q qs ih =>
    cases ps with
    | nil => cases h
    | cons p ps =>
      obtain ⟨hq, hqs⟩ := rowAgainst_cons.mp h
      exact rowAgainst_cons.mpr ⟨hq, ih hqs⟩

theorem rowAgainst_wild (qs : List (Pattern Term)) :
    rowAgainst qs (List.replicate qs.length .wild) = .yes := by
  induction qs with
  | nil => rfl
  | cons q qs ih => exact rowAgainst_cons.mpr ⟨by cases q <;> rfl, ih⟩

theorem bindingsOf_append (ps qs : List (Pattern Term)) :
    bindingsOf (ps ++ qs) = bindingsOf ps ++ bindingsOf qs := by
  induction ps with
  | nil => rfl
  | cons p ps ih => rw [List.cons_append, bindingsOf, bindingsOf, ih, List.append_assoc]

theorem bindingsOf_wild (n : Nat) :
    bindingsOf (List.replicate n (.wild : Pattern Term)) = [] := by
  induction n with
  | zero => rfl
  | succ n ih => exact ih

end Pattern

theorem Telescope.length_columns (ps : Telescope Term) : (columns ps).length = ps.length := by
  induction ps with
  | nil => rfl
  | cons p ps ih => exact congrArg (· + 1) ih

/-! ## Splitting and joining -/

namespace Typing

open Pattern (rowAgainst bindingsOf)

variable {rows : List (List (Pattern Term))} {qs ps ms : List (Pattern Term)} {p : Pattern Term}
variable {select : Pattern Term → Option (List (Pattern Term))}
variable {build : List (Pattern Term) → Pattern Term} {size : Nat}

/-- The case has a pattern for each column, binds no variables, and is apart from the rows. -/
structure Misses (rows : List (List (Pattern Term))) (size : Nat) (ms : List (Pattern Term)) :
    Prop where
  length : ms.length = size
  bare : bindingsOf ms = []
  apart : ∀ row ∈ rows, row.length = size → rowAgainst ms row ≠ .yes

/-- The selection takes the arguments out of the patterns that a built one may meet. -/
structure Selects (select : Pattern Term → Option (List (Pattern Term)))
    (build : List (Pattern Term) → Pattern Term) : Prop where
  bindings : ∀ qs, (build qs).bindings = bindingsOf qs
  args : ∀ qs p, (build qs).against p = .yes →
    p = .wild ∨ (∃ x t, p = .bind x t) ∨ ∃ args, select p = some args ∧ rowAgainst qs args = .yes

theorem selects_con (c : ConName) : Selects (conArgs c) (.con c) where
  bindings _ := by rw [Pattern.bindings]
  args qs p h := by
    cases p with
    | wild => exact .inl rfl
    | bind x t => exact .inr (.inl ⟨x, t, rfl⟩)
    | con d args =>
      rw [Pattern.against] at h
      split at h
      next hc => exact .inr (.inr ⟨args, if_pos hc.symm, h⟩)
      next => cases h
    | absurd | tuple _ | record _ _ => cases h

theorem selects_tuple : Selects tupleArgs .tuple where
  bindings _ := by rw [Pattern.bindings]
  args qs p h := by
    cases p with
    | wild => exact .inl rfl
    | bind x t => exact .inr (.inl ⟨x, t, rfl⟩)
    | tuple args => exact .inr (.inr ⟨args, rfl, h⟩)
    | absurd | con _ _ | record _ _ => cases h

theorem selects_record (fields : List FieldName) : Selects recordArgs (.record fields) where
  bindings _ := by rw [Pattern.bindings]
  args qs p h := by
    cases p with
    | wild => exact .inl rfl
    | bind x t => exact .inr (.inl ⟨x, t, rfl⟩)
    | record fields' args =>
      rw [Pattern.against] at h
      split at h
      next => exact .inr (.inr ⟨args, rfl, h⟩)
      next => cases h
    | absurd | con _ _ | tuple _ => cases h

theorem splitRows_cons (size : Nat) (row : List (Pattern Term)) :
    ∃ head, splitRows size select (row :: rows) = head ++ splitRows size select rows := by
  cases row with
  | nil => exact ⟨[], rfl⟩
  | cons p ps =>
    cases p with
    | bind _ _ | wild => exact ⟨[_], rfl⟩
    | _ =>
      simp only [splitRows]
      split
      · exact ⟨[_], rfl⟩
      · exact ⟨[], rfl⟩

/-- A row that may meet the built pattern is among the rows after the split. -/
theorem Selects.mem_splitRows (h : Selects select build) (hyes : (build qs).against p = .yes)
    (hmem : p :: ps ∈ rows) :
    ∃ args, args ++ ps ∈ splitRows qs.length select rows ∧ rowAgainst qs args = .yes := by
  induction rows with
  | nil => cases hmem
  | cons row rows ih =>
    rcases List.mem_cons.mp hmem with rfl | hmem
    · -- A pattern that binds is split into wildcards, any other one into its arguments.
      rcases h.args qs p hyes with rfl | ⟨x, t, rfl⟩ | ⟨args, hargs, hagainst⟩
      · exact ⟨_, .head _, Pattern.rowAgainst_wild qs⟩
      · exact ⟨_, .head _, Pattern.rowAgainst_wild qs⟩
      · cases p with
        | bind _ _ | wild => exact ⟨_, .head _, Pattern.rowAgainst_wild qs⟩
        | _ =>
          refine ⟨args, ?_, hagainst⟩
          simp only [splitRows, hargs]
          exact .head _
    · obtain ⟨args, hargs, hagainst⟩ := ih hmem
      obtain ⟨head, heq⟩ : ∃ head, splitRows qs.length select (row :: rows) = head ++ _ :=
        splitRows_cons _ row
      exact ⟨args, heq ▸ List.mem_append_right head hargs, hagainst⟩

/-- Joining the parts of a case that misses the rows after a split. -/
theorem Misses.join {n size : Nat} (h : Selects select build)
    (hms : Misses (splitRows n select rows) (n + size) ms) :
    Misses rows (size + 1) (joinRow n build ms) := by
  obtain ⟨hlength, hbare, hapart⟩ := hms
  have hparts : ms.take n ++ ms.drop n = ms := List.take_append_drop n ms
  have htake : (ms.take n).length = n := by
    rw [List.length_take]
    omega
  refine ⟨?_, ?_, ?_⟩
  · rw [joinRow, List.length_cons, List.length_drop]
    omega
  · rw [joinRow, bindingsOf, h.bindings, ← Pattern.bindingsOf_append, hparts, hbare]
  · -- A row that is not apart from the joined case would leave one in the split matrix that is
    -- not apart from its parts.
    intro row hrow hsize hyes
    cases row with
    | nil => cases hsize
    | cons p ps =>
      obtain ⟨hp, hps⟩ := Pattern.rowAgainst_cons.mp hyes
      obtain ⟨args, hargs, hagainst⟩ := h.mem_splitRows hp hrow
      have hargsLength := Pattern.length_of_rowAgainst hagainst
      rw [htake] at hargs hargsLength
      refine hapart _ hargs ?_ (hparts ▸ Pattern.rowAgainst_append hagainst hps)
      rw [List.length_cons] at hsize
      rw [List.length_append]
      omega

/-- A column that is not split. -/
theorem Misses.skip (h : Misses (rows.map List.tail) size ms) :
    Misses rows (size + 1) (.wild :: ms) where
  length := congrArg (· + 1) h.length
  bare := h.bare
  apart row hrow hsize hyes := by
    cases row with
    | nil => cases hsize
    | cons p ps =>
      exact h.apart ps (List.mem_map.mpr ⟨_, hrow, rfl⟩) (Nat.succ.inj hsize)
        (Pattern.rowAgainst_cons.mp hyes).2

theorem misses_wild (h : rows.isEmpty) : Misses rows size (List.replicate size .wild) where
  length := List.length_replicate
  bare := Pattern.bindingsOf_wild size
  apart row hrow := by
    rw [List.isEmpty_iff.mp h] at hrow
    cases hrow

/-! ## The search -/

/-- Whatever case the search returns misses the rows. -/
abbrev Finds (x : Check (Option (List (Pattern Term)))) (rows : List (List (Pattern Term)))
    (size : Nat) : Prop :=
  ∀ s, Yields x s fun o _ => ∀ ms, o = some ms → Misses rows size ms

theorem finds_none : Finds (pure none) rows size :=
  fun _ => .pure fun _ hms => by cases hms

section Matrix

variable {k : Checker} {fuel : Nat} {x : Var} {columns : List (Column Term)} {m : Mapping Term}
variable {self : List (List (Pattern Term)) → List (Column Term) → Mapping Term →
  Check (Option (List (Pattern Term)))}
variable (hself : ∀ rows columns m, Finds (self rows columns m) rows columns.length)

include hself

theorem finds_splitColumn (h : Selects select build) (value : Term) (params : Telescope Term) :
    Finds (splitColumn self rows x columns m value params select build) rows (columns.length + 1) := by
  intro s
  refine (hself _ _ _ s).bind fun o s₁ ho => .pure ?_
  rintro _ hms
  obtain ⟨ms, rfl, rfl⟩ := Option.map_eq_some_iff.mp hms
  refine .join h ?_
  have hmisses := ho ms rfl
  rwa [List.length_append, Telescope.length_columns] at hmisses

theorem finds_splitData (d : DataType Term) (cons : List (ConName × List Term)) :
    Finds (splitData k fuel self rows x columns m d cons) rows (columns.length + 1) := by
  induction cons with
  | nil => exact finds_none
  | cons e cons ih =>
    intro s
    obtain ⟨c, dataArgs⟩ := e
    rw [splitData]
    refine .after fun r s₁ => .after fun refs s₂ => .after fun value s₃ => ?_
    refine (finds_splitColumn hself (selects_con c) value r.1 s₃).bind fun o s₄ ho => ?_
    cases o with
    | some missing => exact .pure ho
    | none => exact ih s₄

theorem finds_split (type : Term) :
    Finds (split k fuel self rows x columns m type) rows (columns.length + 1) := by
  intro s
  rw [split]
  split
  next d _ => exact .after fun cons s₁ => finds_splitData hself d cons s₁
  next =>
    refine .after fun r s₁ => .after fun refs s₂ => .after fun value s₃ => ?_
    exact finds_splitColumn hself selects_tuple value r.1 s₃
  next =>
    refine .after fun params s₁ => .after fun refs s₂ => .after fun value s₃ => ?_
    exact finds_splitColumn hself (selects_record _) value params s₃
  next => exact .throw

theorem finds_missingStep : Finds (missingStep k fuel self rows columns m) rows columns.length := by
  intro s
  cases columns with
  | nil =>
    refine .pure fun ms hms => ?_
    split at hms
    next h => exact Option.some.inj hms ▸ misses_wild h
    next => cases hms
  | cons c columns =>
    rw [missingStep]
    refine .after fun type s₁ => .after fun type s₂ => .after fun type s₃ => ?_
    have hwild (hempty : rows.isEmpty) : Finds (pure (some _)) rows (columns.length + 1) :=
      fun _ => .pure fun ms hms => Option.some.inj hms ▸ misses_wild hempty
    -- A row that starts with the absurd pattern, no rows at all, or a column to be split or not.
    split
    · exact finds_none s₃
    split
    next hempty =>
      dsimp only
      split
      next d _ =>
        refine .after fun o s₄ => ?_
        split
        · exact finds_none s₄
        · exact hwild hempty s₄
      next => exact hwild hempty s₃
    next =>
      split
      · exact finds_split hself type s₃
      · refine (hself _ _ _ s₃).bind fun o s₄ ho => .pure fun _ hms => ?_
        obtain ⟨ms, rfl, rfl⟩ := Option.map_eq_some_iff.mp hms
        exact (ho ms rfl).skip

omit hself in
/-- The case that is found to be missing is apart from all rows. -/
theorem missing_apart (k : Checker) (fuel : Nat) (rows : List (List (Pattern Term)))
    (columns : List (Column Term)) (m : Mapping Term) :
    Finds (missing k fuel rows columns m) rows columns.length := by
  induction fuel generalizing rows columns m with
  | zero => exact fun _ => .throw
  | succ fuel ih => exact finds_missingStep ih

end Matrix

end Typing

namespace SharedScrutinee

open Prelude (checker)

def x : Var := ⟨14, .param, "x"⟩

/-- The clauses `_, zero => zero` and `zero, suc _ => zero`. -/
def elim : Elim Term :=
  let zero : Term := .mk 15 .zero
  ⟨16, [⟨[.wild, .con Prelude.zero []], some zero⟩,
    ⟨[.con Prelude.zero [], .con Prelude.suc [.wild]], some zero⟩], none⟩

def params : Telescope Term :=
  [⟨⟨17, .param, "a"⟩, none, true⟩, ⟨⟨18, .param, "b"⟩, some (.mk 13 .nat), true⟩]

/-- The arguments `(\lam x => c) 1` and `c`, for the let clause `c`. -/
def args : List Term :=
  let ref : Term := .mk 25 (.ref ⟨24, .clause, "c"⟩)
  [.mk 20 (.app (.mk 19 (.lam .set0 [⟨x, some (.mk 13 .nat), true⟩] ref)) (.mk 21 (.int 1))), ref]

/-- A state in which the let clause `c` is defined by `x`. -/
def state : CheckState :=
  .ofStore { Store.start 26 with clauses := Table.empty.insert 24 ⟨.mk 25 (.ref x), none⟩ }

end SharedScrutinee

/-! ## What the check of a match makes of its columns -/

namespace NestedSplit

def nat : Term := .mk 13 .nat

def zero : Term := .mk 14 .zero

def zeroPattern : Pattern Term := .con Prelude.zero []

def suc (p : Pattern Term) : Pattern Term := .con Prelude.suc [p]

def b : Var := ⟨15, .param, "b"⟩

def x : Var := ⟨16, .param, "x"⟩

def function : FuncName := ⟨17, "f"⟩

/-- The bodies for zero, for one and for the successor of the successor of `b`. -/
def clauses (zero one more : Term) : Elim Term :=
  ⟨18, [⟨[zeroPattern], some zero⟩, ⟨[suc zeroPattern], some one⟩,
    ⟨[suc (suc (.bind b nat))], some more⟩], none⟩

/-- A function of a number `x`. -/
def declare (sig : Signature) (resultType : Term) (elim : Elim Term) : Checker :=
  .untraced (sig.setFunc function ⟨[⟨x, some nat, true⟩], resultType, some (.elim elim)⟩)

def state : CheckState := .ofStore (.start 40)

/-- The function `f : Nat -> \Set` that is `Nat` in each of its clauses. -/
def family : Checker := declare Prelude.signature (.mk 19 (.univ .set0)) (clauses nat nat nat)

/-- The parameters `(x : Nat) (y : f x)`. -/
def params : Telescope Term :=
  [⟨x, some nat, true⟩,
    ⟨⟨20, .param, "y"⟩, some (.mk 21 (.call function .set0 [.mk 22 (.ref x)])), true⟩]

/-- A match that looks at `y` where `x` is one. -/
def elim : Elim Term :=
  let rows := [[zeroPattern, .wild], [suc zeroPattern, zeroPattern],
    [suc zeroPattern, suc .wild], [suc (suc .wild), .wild]]
  ⟨23, rows.map fun row => ⟨row, some zero⟩, none⟩

/-- The type of a column sees only the first split of a column that is split again. The clauses
pass, and `y` is of type `f (suc zero)`, which is `Nat`; but the split of `y` is refused. -/
theorem refined_column_refused :
    (family.checkFunc 20 .empty function).succeeds state ∧
      (Typing.elim family 20 (Typing.term family 20) (.ofContext .empty) params nat elim).succeeds
        state ∧
      (Typing.exhaustive family 20 none params elim).cause state = some .typeMismatch := by
  decide +kernel

/-- A data type `D` over a number, with one constructor. -/
def data : DataName := ⟨24, "D"⟩

def con : ConName := ⟨25, "k"⟩

def value (stamp : Nat) (t : Term) : Term := .mk stamp (.con ⟨con, .set0, [t], []⟩)

def one : Term := value 26 (.mk 27 (.suc zero))

def more : Term := value 28 (.mk 29 (.suc (.mk 30 (.suc (.mk 31 (.ref b))))))

/-- The same bodies in a tree. -/
def tree : Elim Term :=
  let inner : Tree Term :=
    .branch [] [(.con Prelude.zero, .leaf [] one), (.con Prelude.suc, .leaf [⟨b, some nat, true⟩] more)]
  ⟨18, [], some (.branch [] [(.con Prelude.zero, .leaf [] (value 32 zero)), (.con Prelude.suc, inner)])⟩

/-- The function `f (x : Nat) : D x`. -/
def dependent (elim : Elim Term) : Checker :=
  declare ((Prelude.signature.setData data ⟨[⟨⟨33, .param, "n"⟩, some nat, true⟩], .set0, []⟩)
    |>.addConstructor con ⟨data, none, []⟩) (.mk 34 (.data ⟨data, .set0, [.mk 35 (.ref x)]⟩)) elim

/-- A leaf is checked against a type that sees only the first split of `x`. The clauses of the tree
pass, and the tree is refused. -/
theorem tree_of_clauses_refused :
    ((dependent (clauses (value 32 zero) one more)).checkFunc 20 .empty function).succeeds state ∧
      ((dependent tree).checkFunc 20 .empty function).cause state = some .typeMismatch := by
  decide +kernel

end NestedSplit

namespace ForeignProjection

open NestedSplit (nat zero zeroPattern state function data con)

def record : RecordName := ⟨13, "R"⟩

def n : FieldName := ⟨14, "n"⟩

def v : FieldName := ⟨15, "v"⟩

def constant : FuncName := ⟨16, "r"⟩

def type (stamp : Nat) (impls : List (FieldName × Term)) : Stamped (RecordType Term) :=
  ⟨stamp, record, .set0, impls, .set0, .none, ⟨stamp + 1, .given, "this"⟩⟩

/-- The value of `R` with the number and the constructor of `D`. -/
def value (stamp : Nat) (number : Term) : Term :=
  let element : Term := .mk (stamp + 3) (.con ⟨con, .set0, [], []⟩)
  .mk stamp (.new none (type (stamp + 1) [(n, number), (v, element)]))

/-- The data type `D` has its constructor at zero. The record `R` has the fields `n : Nat` and
`v : D r.n`, where `r` is the value of `R` with zero. -/
def declare (elim : Elim Term) : Checker :=
  let params := [⟨⟨18, .param, "m"⟩, some nat, true⟩]
  let zeroth : Term := .mk 19 (.field n .set0 (.mk 20 (.call constant .set0 [])))
  .untraced (Prelude.signature.setData data ⟨params, .set0, []⟩
    |>.addConstructor con ⟨data, some [zeroPattern], []⟩
    |>.setRecord record ⟨[], .set0, ⟨21, .given, "this"⟩, (type 22 []).record, [], .none⟩
    |>.addField n ⟨record, nat, false, .none⟩
    |>.addField v ⟨record, .mk 26 (.data ⟨data, .set0, [zeroth]⟩), false, .none⟩
    |>.setFunc constant ⟨[], (type 22 []).record, some (.expr (value 27 zero))⟩
    |>.setFunc function
      ⟨[⟨⟨38, .param, "x"⟩, some (type 22 []).record, true⟩], nat, some (.elim elim)⟩)

/-- The value with one. -/
def one : Term := value 31 (.mk 39 (.suc zero))

/-- The function at that value. -/
def call : Term := .mk 35 (.call function .set0 [one])

/-- The declarations and the value pass. -/
def passes (k : Checker) : Bool :=
  (k.checkData 20 .empty data).succeeds state && (k.checkFunc 20 .empty constant).succeeds state &&
    (k.checkFunc 20 .empty function).succeeds state &&
    (k.check 20 .empty one (some (type 22 []).record)).succeeds state

/-- A match in which `v` has no case unless `n` is zero. -/
def clauses : Elim Term :=
  ⟨36, [⟨[.record [n, v] [zeroPattern, .wild]], some zero⟩,
    ⟨[.record [n, v] [.con Prelude.suc [.wild], .absurd]], none⟩], none⟩

/-- The column of a field is of the type that is declared, with the columns of the other fields for
all projections, those of other values included. The match passes for exhaustive, and the call is
stuck. -/
theorem call_falls_through :
    passes (declare clauses) ∧ (call.whnf (declare clauses).sig 20).run' (.start 40) = some call :=
  ⟨by decide +kernel, rfl⟩

/-- The same match as a tree. -/
def tree : Elim Term :=
  let children : List (BranchKey × Tree Term) :=
    [(.con Prelude.zero, .branch [] [(.con con, .leaf [] zero)]),
      (.con Prelude.suc, .branch [⟨⟨37, .param, "p"⟩, some nat, true⟩] [])]
  ⟨36, [], some (.branch [] [(.record record .set0 [], .branch [] children)])⟩

theorem call_stuck_in_tree :
    passes (declare tree) ∧ (call.whnf (declare tree).sig 20).run' (.start 40) = some call :=
  ⟨by decide +kernel, rfl⟩

end ForeignProjection

namespace IntervalFallback

open NestedSplit (nat zero state function)

/-- A function from numbers to the empty proposition. -/
def declare (body : Body) : Checker :=
  .untraced (Prelude.signature.setFunc function
    ⟨[⟨⟨15, .param, "n"⟩, some nat, true⟩], .mk 16 (.data ⟨Prelude.empty, .set0, []⟩), some body⟩)

def call : Term := .mk 17 (.call function .set0 [zero])

/-- A match without clauses is refused, but not behind an interval elimination. There the call is
stuck. -/
theorem fallback_not_exhaustive :
    let k := declare (.interval [] [] (some ⟨18, [], none⟩))
    (k.checkFunc 10 .empty function).succeeds state ∧
      (call.whnf k.sig 10).run' (.start 40) = some call ∧
      ((declare (.elim ⟨18, [], none⟩)).checkFunc 10 .empty function).cause state =
        some .nonExhaustive :=
  ⟨by decide +kernel, rfl, by decide +kernel⟩

end IntervalFallback

end Recheck
