import Recheck.Proofs.Keeps.Reduction

/-!
# Recheck — observing terms keeps invariants

The search for occurrences of variables and the printer only read terms, but both look
through delayed substitutions, which are carried out for the purpose. So they do to the
store what substitution does, and keep the same invariants.
-/

variable {t : Term}

namespace Recheck

variable {sig : Signature} {R : Region} {I : SolverState → Prop} (hI : Invariant sig R I)

/-! ## Occurrences -/

/-- The parts of a record type that a search looks at: implementations that are looked up. -/
def RecordType.searched (sig : Signature) (r : RecordType Term) : List (Part Term) :=
  .binder r.this :: (sig.implemented r).flatMap fun f => (r.impl? f).toList.map .term

/-- The parts of a node that a search looks at. -/
@[simp] def Node.searched (sig : Signature) : Node Term → List (Part Term)
  | .record r => r.searched sig
  | .new renewed type => type.val.searched sig ++ renewed.toList.map .term
  | .hole _ _ | .delayed _ _ _ => []
  | n => n.parts

/-- The nodes that lead nowhere but to their parts. -/
def Node.Plain : Node Term → Prop
  | .ref _ | .letIn _ _ _ | .unknown _ | .delayed _ _ _ => False
  | _ => True

theorem Node.within_searched {n : Node Term} (h : R.Holds n.parts)
    (ht : .term t ∈ n.searched sig) : t.Within R := by
  have hrecord {r : RecordType Term} (hr : R.Holds r.parts) (ht : .term t ∈ r.searched sig) :
      t.Within R := by
    simp only [RecordType.searched, List.mem_cons, reduceCtorEq, false_or, List.mem_flatMap,
      List.mem_map, Option.mem_toList, Part.term.injEq] at ht
    obtain ⟨f, -, _, himpl, rfl⟩ := ht
    exact RecordType.within_impl? hr himpl
  cases n with
  | record r => exact hrecord h ht
  | new renewed type =>
    rw [Node.parts, Region.holds_append] at h
    rcases List.mem_append.mp ht with ht | ht
    · exact hrecord h.2 ht
    · exact h.1 _ ht
  | hole | delayed => cases ht
  | _ => exact h _ ht

namespace Search

variable {q : Query} {self : Term → Search (Option Variable)}

/-- The search looks at the parts, through `self` at the terms among them, and at nothing else. -/
inductive Scans (q : Query) (self : Term → Search (Option Variable)) :
    Search (Option Variable) → List (Part Term) → Prop where
  | none : Scans q self (pure none) []
  | noted (x : Var) : Scans q self (do noteBound x; return none) [.binder x]
  | occurrence (v : Variable) : Scans q self (occurrence q v) []
  | term (t : Term) : Scans q self (self t) [.term t]
  | orElse {x y : Search (Option Variable)} {ps qs : List (Part Term)} (hx : Scans q self x ps)
      (hy : Scans q self y qs) : Scans q self (orElse x y) (ps ++ qs)
  | congr {x : Search (Option Variable)} {ps qs : List (Part Term)} (h : Scans q self x ps)
      (heq : ∀ p, p ∈ ps ↔ p ∈ qs) : Scans q self x qs

namespace Scans

/-- A use of a declaration is looked at last. -/
theorem before {x : Search (Option Variable)} {ps : List (Part Term)} (h : Scans q self x ps)
    (v : Variable) : Scans q self (Search.orElse x (Search.occurrence q v)) ps := by
  have hboth := h.orElse (.occurrence v)
  rwa [List.append_nil] at hboth

theorem first {A : Type} {f : A → Search (Option Variable)} {parts : A → List (Part Term)}
    (h : ∀ a, Scans q self (f a) (parts a)) (as : List A) :
    Scans q self (first f as) (as.flatMap parts) := by
  induction as with
  | nil => exact .none
  | cons a as ih => exact (h a).orElse ih

theorem optional (o : Option Term) : Scans q self (optional self o) (o.toList.map .term) := by
  cases o with
  | none => exact .none
  | some t => exact .term t

theorem terms (ts : List Term) : Scans q self (Search.first self ts) (ts.map .term) := by
  rw [List.map_eq_flatMap]
  exact first .term ts

theorem params (ps : Telescope Term) : Scans q self (params self ps) ps.parts := by
  refine (first (fun p => (optional p.type).orElse (.noted p.var)) ps).congr fun part => ?_
  simp only [Telescope.parts, List.mem_flatMap, List.mem_append, List.mem_cons,
    List.not_mem_nil, or_false]
  simp only [or_comm]

theorem clause (c : Clause Term) : Scans q self (clause self c) c.parts := by
  have hbinder (b : Var × Term) := (@Scans.term q self b.2).orElse (.noted b.1)
  refine ((first hbinder _).orElse (optional c.body)).congr fun part => ?_
  simp only [Clause.parts, Pattern.partsOf, List.mem_append, List.mem_flatMap, List.mem_cons,
    List.not_mem_nil, or_false]
  simp only [or_comm]

mutual

theorem tree : ∀ t : Tree Term, Scans q self (tree self t) t.parts
  | .leaf ps body => (params ps).orElse (.term body)
  | .branch ps children => (params ps).orElse (branches children)

theorem branches : ∀ children : List (BranchKey × Tree Term),
    Scans q self (branches self children) (Tree.partsOf children)
  | [] => .none
  | (_, t) :: rest => (tree t).orElse (branches rest)

end

theorem elim (e : Elim Term) : Scans q self (elim self e) e.parts :=
  (first clause e.clauses).orElse (first tree e.tree.toList)

theorem recordType (r : RecordType Term) :
    Scans q self (recordType sig q self r) (r.searched sig) :=
  (noted r.this).orElse ((first (fun f => optional (r.impl? f)) _).before (.record r.record))

/-- The step of a search at a plain node. -/
theorem step {n : Node Term} (fuel stamp : Nat) (hn : n.Plain) :
    Scans q self (step sig fuel q self (.mk stamp n)) (n.searched sig) := by
  cases n with
  | ref | letIn | unknown | delayed => exact hn.elim
  | app fn arg => exact (term fn).orElse (.term arg)
  | call f sortArg args => exact (terms args).before _
  | con c => exact (terms c.dataArgs).orElse ((terms c.args).before _)
  | data d => exact (terms d.args).before _
  | field f sortArg arg => exact (term arg).before _
  | record r => exact recordType r
  | lam sort ps body | pi sort ps body => exact (params ps).orElse (.term body)
  | sigma s => exact params s.params
  | tuple fields type => exact (terms fields).orElse (params type.val.params)
  | proj u index => exact term u
  | univ sort | int i | hole goal part => exact .none
  | new renewed type => exact (recordType type.val).orElse (optional renewed)
  | case c =>
    rw [Node.searched, Node.parts, CaseOf.parts]
    · simp only [List.append_assoc]
      exact (terms c.args).orElse ((params c.params).orElse ((term c.resultType).orElse
        ((optional c.levelProof).orElse (first elim c.elim.toList))))
    all_goals simp
  | ofType u type => exact (term u).orElse (.term type)

end Scans

theorem keeps_orElse {x y : Search (Option Variable)} (hx : Preserves I x)
    (hy : Preserves I y) : Preserves I (orElse x y) := by
  refine hx.bind fun o _ => ?_
  cases o with
  | some v => exact .pure trivial
  | none => exact hy

theorem keeps_noted (x : Var) :
    Preserves I (do noteBound x; return none : Search (Option Variable)) :=
  Keeps.modifyT.then_pure

theorem keeps_occurrence (q : Query) (v : Variable) :
    Preserves I (occurrence q v) := by
  refine Keeps.getT.bind fun bound _ => ?_
  split
  · exact .pure trivial
  · exact .pure trivial

theorem Scans.keeps {x : Search (Option Variable)} {ps : List (Part Term)} (h : Scans q self x ps)
    (hself : ∀ t, .term t ∈ ps → Preserves I (self t)) : Preserves I x := by
  induction h with
  | none => exact .pure trivial
  | noted x => exact keeps_noted x
  | occurrence v => exact keeps_occurrence q v
  | term t => exact hself t (.head _)
  | orElse _ _ ihx ihy =>
    exact keeps_orElse (ihx fun t ht => hself t (List.mem_append_left _ ht))
      (ihy fun t ht => hself t (List.mem_append_right _ ht))
  | congr _ heq ih => exact ih fun t ht => hself t ((heq _).mp ht)

include hI

/-- One step of a search. -/
theorem keeps_step (q : Query) (fuel : Nat)
    (hself : ∀ t, t.Within R → Preserves I (self t)) (ht : t.Within R) :
    Preserves I (step sig fuel q self t) := by
  obtain ⟨stamp, node⟩ := t
  have h := ht.node rfl
  cases node with
  | ref x => exact keeps_occurrence q _
  | letIn strict xs body =>
    have hclause : ∀ x ∈ xs, Preserves I (clauseExpr self x) := fun x hx =>
      (hI.clause (h.1 x hx).2).lift.bind fun _ hc => keeps_orElse (hself _ hc.1.1) (keeps_noted x)
    refine keeps_orElse ?_ (hself body h.2)
    clear h ht
    induction xs with
    | nil => exact .pure trivial
    | cons x xs ih =>
      rw [List.forall_mem_cons] at hclause
      exact keeps_orElse hclause.1 (ih hclause.2)
  | unknown v =>
    refine (hI.solution? _).lift.bind fun o ho => ?_
    cases o with
    | some u => exact hself u (ho u rfl)
    | none => exact keeps_occurrence q _
  | delayed u exprs levels =>
    exact (hI.expandDelayed fuel levels h.1 h.2).lift.bind fun e he => hself e he
  | _ =>
    refine Scans.keeps (.step fuel stamp trivial) fun t hpart => hself t ?_
    exact Node.within_searched (Node.within_iff.mp h) hpart

theorem keeps_run (q : Query) (fuel : Nat) (ht : t.Within R) : Preserves I (run sig q fuel t) := by
  induction fuel generalizing t with
  | zero => exact .throwT
  | succ fuel ih => exact keeps_step hI q fuel (fun u hu => ih hu) ht

end Search

namespace Invariant

variable {t : Term}

include hI

theorem find (fuel : Nat) (vars : List Variable) (ht : t.Within R) :
    Preserves I (t.find sig fuel vars) := by
  rw [Term.find]
  split
  · exact .pure trivial
  · exact (Search.keeps_run hI _ fuel ht).start

theorem findFree (fuel : Nat) (hits : Var → Bool) (ht : t.Within R) :
    Preserves I (t.findFree sig fuel hits) :=
  (Search.keeps_run hI _ fuel ht).start.then_pure

end Invariant

/-! ## Printing -/

theorem Invariant.isAtomic (hI : Invariant sig R I) (fuel : Nat)
    (ht : t.Within R) : Preserves I (t.isAtomic sig fuel) := by
  induction fuel generalizing t with
  | zero => exact .throw
  | succ fuel ih =>
    obtain ⟨stamp, node⟩ := t
    have h := ht.node rfl
    cases node with
    | unknown v =>
      refine (hI.solution? _).bind fun o ho => ?_
      cases o with
      | none => exact .pure trivial
      | some u => exact ih (ho u rfl)
    | delayed u exprs levels =>
      exact (hI.expandDelayed fuel levels h.1 h.2).bind fun e he => ih he
    | ref | tuple | univ | int | hole | ofType | proj | field | sigma | call | con | data
    | record | app | lam | pi | new | letIn | case => exact .pure trivial

namespace Printer

variable {ts : List Term} {t : Term}

/-- The two sides of an equality are among its arguments. -/
theorem mem_of_asEquality {stamp : Nat} {f : FuncName} {sortArg : USort} {type a b : Term}
    (h : (Term.mk stamp (.call f sortArg ts)).asEquality = some (type, a, b)) :
    a ∈ ts ∧ b ∈ ts := by
  simp only [Term.asEquality, Term.node] at h
  split at h
  next heq =>
    obtain ⟨-, -, rfl⟩ := Node.call.inj heq
    split at h
    · obtain ⟨rfl, rfl, rfl⟩ : _ = type ∧ _ = a ∧ _ = b := by simpa using h
      simp
    · cases h
  next => cases h

variable {self : Term → Core String}
variable (hself : ∀ t, t.Within R → Keeps I (self t) fun _ => True)

include hself

theorem keeps_params {ps : Telescope Term} (group : Option Bool)
    (hps : R.Holds ps.parts) : Preserves I (params self group ps) := by
  induction ps generalizing group with
  | nil =>
    rw [params]
    split
    · exact .throw
    · exact .pure trivial
  | cons p ps ih =>
    obtain ⟨-, htype, hps⟩ := Telescope.holds_cons.mp hps
    rw [params]
    dsimp only
    split
    · exact (ih _ hps).then_pure
    next type heq =>
      refine (hself type (htype type heq)).bind fun _ _ => ?_
      exact (ih _ hps).then_pure

theorem keeps_commas (hts : ∀ t ∈ ts, t.Within R) : Preserves I (commas self ts) :=
  (Keeps.mapM fun t ht => hself t (hts t ht)).then_pure

theorem keeps_recordType {r : RecordType Term} (hr : R.Holds r.parts) :
    Preserves I (recordType sig self r) := by
  refine Keeps.bind (P := fun _ => True) ?_ fun _ _ => .pure trivial
  refine (Keeps.filterMapM (Q := fun _ => True) fun f _ => ?_).bind fun texts _ => ?_
  · refine (Keeps.optionMapM (Q := fun _ => True) fun impl himpl => ?_).mono fun _ _ _ _ => trivial
    exact (hself impl (RecordType.within_impl? hr himpl)).then_pure
  · split
    · exact .pure trivial
    · exact .pure trivial

theorem keeps_scrutinees (ps : Telescope Term) (hts : ∀ t ∈ ts, t.Within R) :
    Preserves I (scrutinees self ts ps) := by
  induction ts generalizing ps with
  | nil => exact .pure trivial
  | cons t ts ih =>
    rw [List.forall_mem_cons] at hts
    cases ps with
    | nil =>
      rw [scrutinees]
      exact (hself t hts.1).bind fun _ _ => (ih [] hts.2).then_pure
    | cons p ps =>
      rw [scrutinees]
      exact (hself t hts.1).bind fun _ _ => (ih ps hts.2).then_pure

theorem keeps_clause {c : Clause Term} (hc : R.Holds c.parts) :
    Preserves I (clause self c) := by
  simp only [Clause.parts, Region.holds_append, Region.holds_map, Option.mem_toList] at hc
  rw [clause]
  split
  · exact .pure trivial
  next body heq => exact (hself body (hc.2 body heq)).then_pure

theorem keeps_caseOf {c : CaseOf Term} (hc : R.Holds c.parts) :
    Preserves I (caseOf self c) := by
  simp only [CaseOf.parts, Elim.parts, Region.holds_append, Region.holds_cons,
    Region.holds_map, Region.holds_flatMap, Option.mem_toList, Part.within_term] at hc
  obtain ⟨⟨⟨⟨hargs, -⟩, hresult, -⟩, -⟩, helim⟩ := hc
  refine (keeps_scrutinees hself c.params hargs).bind fun _ _ => ?_
  refine (hself _ hresult).bind fun _ _ => ?_
  refine (Keeps.mapM (Q := fun _ => True) fun cl hcl => ?_).then_pure
  cases he : c.elim with
  | none =>
    rw [he] at hcl
    cases hcl
  | some e =>
    rw [he] at hcl
    exact keeps_clause hself ((helim e he).1 cl hcl)

include hI

theorem keeps_arg (fuel : Nat) (ht : t.Within R) : Preserves I (arg sig fuel self t) := by
  refine (hI.isAtomic fuel ht).bind fun b _ => ?_
  split
  · exact hself t ht
  · exact (hself t ht).then_pure

theorem keeps_args (fuel : Nat) (hts : ∀ t ∈ ts, t.Within R) :
    Preserves I (args sig fuel self ts) := by
  induction ts with
  | nil => exact .pure trivial
  | cons t ts ih =>
    rw [List.forall_mem_cons] at hts
    exact (keeps_arg hI hself fuel hts.1).bind fun _ _ => (ih hts.2).then_pure

theorem keeps_clauses {xs : List Var} (hxs : ∀ x ∈ xs, R.refers x.serial) :
    Preserves I (clauses self xs) := by
  refine (Keeps.mapM (Q := fun _ => True) fun x hx => ?_).then_pure
  exact (hI.clause (hxs x hx)).bind fun _ hc => (hself _ hc.1.1).then_pure

/-- One step of printing; the cases follow the forms of terms. -/
theorem keeps_step (fuel : Nat) (ht : t.Within R) :
    Preserves I (step sig fuel self t) := by
  obtain ⟨stamp, node⟩ := t
  have h := ht.node rfl
  cases node with
  | ref x => exact .pure trivial
  | app fn a =>
    have hrest : ∀ text : String, Keeps I (do
        let a ← arg sig fuel self a
        return text ++ " " ++ a) fun _ => True :=
      fun _ => (keeps_arg hI hself fuel h.2).then_pure
    unfold step
    dsimp only [Term.node]
    split
    · exact (hself fn h.1).bind fun text _ => hrest text
    · exact (keeps_arg hI hself fuel h.1).bind fun text _ => hrest text
  | call f sortArg ts =>
    unfold step
    dsimp only [Term.node]
    split
    next type a b heq =>
      obtain ⟨ha, hb⟩ := mem_of_asEquality heq
      refine (keeps_arg hI hself fuel (h a ha)).bind fun _ _ => ?_
      exact (keeps_arg hI hself fuel (h b hb)).then_pure
    · exact (keeps_args hI hself fuel h).then_pure
  | con c =>
    exact (keeps_args hI hself fuel h.2).then_pure
  | data d =>
    exact (keeps_args hI hself fuel h).then_pure
  | field f sortArg a =>
    exact (keeps_arg hI hself fuel h).then_pure
  | record r => exact keeps_recordType hself h
  | lam sort ps body | pi sort ps body =>
    refine (keeps_params hself none h.1).bind fun _ _ => ?_
    exact (hself body h.2).then_pure
  | sigma s =>
    show Keeps I (if s.params.isEmpty then _ else _) _
    split
    · exact .pure trivial
    · exact (keeps_params hself none h).then_pure
  | tuple fields type =>
    exact (keeps_commas hself h.1).then_pure
  | proj u index =>
    exact (keeps_arg hI hself fuel h).then_pure
  | univ _ | int _ => exact .pure trivial
  | new renewed type =>
    cases renewed with
    | none => exact (keeps_recordType hself h.2).then_pure
    | some u =>
      refine (keeps_arg hI hself fuel (h.1 u rfl)).bind fun _ _ => ?_
      exact (keeps_recordType hself h.2).then_pure
  | letIn strict xs body =>
    refine (keeps_clauses hI hself fun x hx => (h.1 x hx).2).bind fun _ _ => ?_
    exact (hself body h.2).then_pure
  | case c => exact keeps_caseOf hself h
  | ofType u type =>
    exact (hself u h.1).bind fun _ _ => (hself type h.2).then_pure
  | hole goal part =>
    cases goal with
    | true => exact .pure trivial
    | false =>
      cases part with
      | none => exact .pure trivial
      | some u =>
        exact (hself u (h u rfl)).then_pure
  | unknown v =>
    refine (hI.solution? _).bind fun o ho => ?_
    cases o with
    | some u => exact hself u (ho u rfl)
    | none => exact .pure trivial
  | delayed u exprs levels =>
    refine (hI.expandDelayed fuel levels h.1 h.2).bind fun e he => ?_
    split
    · exact hself e he
    · refine (hself u h.1).bind fun _ _ => ?_
      refine (hI.readMapping h.2).bind fun m hm => ?_
      refine (Keeps.mapM (Q := fun _ => True) fun e he => ?_).then_pure
      rw [Mapping.holds_iff] at hm
      have he : e ∈ m.entries := List.mem_mergeSort.mp he
      exact (hself _ (hm e he).2).then_pure

end Printer

namespace Invariant

variable {t : Term}

include hI

theorem print (fuel : Nat) (ht : t.Within R) : Preserves I (t.print sig fuel) := by
  induction fuel generalizing t with
  | zero => exact .throw
  | succ fuel ih => exact Printer.keeps_step hI (fun u hu => ih hu) fuel ht

theorem quote (fuel : Nat) (ht : t.Within R) : Preserves I (t.quote sig fuel) := by
  intro frame s hs
  have h := hI.print fuel ht frame s hs
  simp only [Term.quote]
  cases hr : t.print sig fuel s with
  | ok text s' =>
    rw [hr] at h
    exact h
  | error f s' =>
    rw [hr] at h
    cases f with
    | outOfFuel => exact h
    | _ => exact ⟨h, trivial⟩

end Invariant

end Recheck
