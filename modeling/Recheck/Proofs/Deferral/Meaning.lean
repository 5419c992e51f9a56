import Recheck.Proofs.Plans
import Recheck.Proofs.Contraction

/-!
# Recheck — the meaning of terms with unknowns

`Means` relates terms to indexed terms, like `Reads`, but it looks through everything that
waits. A solved unknown means what its solution means. A delayed substitution means the
instance of what is beneath it. An unsolved unknown is a node of its own, with what stands
for each of its bounds as parts; the level substitution that has come across it is part
of the node. If substitutions are not delayed at the unknown, its parts are what the reader
keeps for its solution.

Levels are read under a level substitution. A reader may read them as they are or in
canonical form; then two terms of the same meaning are equal up to the names of bound
variables and up to equality of levels.

What a reader puts up with is a parameter: the sorts that may occur under a level
substitution, and the occurrences of unknowns that may be unsolved. So is how much a
reader tells of the level substitution at an unsolved unknown, and whether it tells the
occurrences of an unknown apart.
-/

namespace Recheck

variable {T : Type} {u : Unknown} {closed : Bool} {x y : Var} {n : Indexed} {xs ys : List Var}
  {t : Term} {stamp : Nat} {scope : List Var} {V : Vista}

/-! ## Canonical levels -/

/-- The level with its bound at least at its constant. -/
def Level.canonical : Level → Level
  | .var v c m => .var v c (bound c m)
  | l => l

/-- Levels are equal exactly if their canonical forms are the same. -/
theorem Level.equal_iff_canonical (a b : Level) : a.equal b ↔ a.canonical = b.canonical := by
  cases a <;> cases b <;> simp [equal, canonical, and_assoc]

def USort.canonical (s : USort) : USort := ⟨s.p.canonical, s.h.canonical⟩

theorem USort.equal_iff_canonical (s t : USort) : s.equal t ↔ s.canonical = t.canonical := by
  simp only [equal, canonical, Bool.and_eq_true, Level.equal_iff_canonical, mk.injEq]

/-- The substitution with canonical levels. -/
def LevelSubst.canonical (levels : LevelSubst) : LevelSubst :=
  ⟨levels.entries.map (Prod.map id Level.canonical)⟩

/-! ## Meanings -/

/-- What a reader puts up with. -/
structure Reader where
  sig : Signature
  /-- The sorts that may occur under a level substitution. -/
  fits : LevelSubst → USort → Prop
  /-- The level substitutions that may be delayed under another one. -/
  defers : LevelSubst → LevelSubst → Prop
  /-- The occurrences of unknowns, by their stamps, that may be unsolved under a level
  substitution. -/
  waits : LevelSubst → Nat → Var → Prop
  /-- How a sort shows. -/
  shows : USort → USort
  /-- How an occurrence of an unknown, by its stamp, shows while it is unsolved. -/
  marks : Nat → Var → Var
  /-- What is told of the level substitution that an unsolved unknown is under. -/
  tells : LevelSubst → LevelSubst
  /-- The variables that are kept for the solution of an occurrence of an unknown at which
  nothing is delayed. -/
  reserves : Nat → List Var
  /-- A sort that occurs under a level substitution may occur with the levels put in. -/
  copies : ∀ levels s, fits levels s → fits .empty (s.subst levels)
  /-- What waits under a level substitution may wait under none. -/
  settles : ∀ levels stamp v, waits levels stamp v → waits .empty stamp v

/-- The node as it shows under a level substitution. -/
def Reader.shape {T : Type} (R : Reader) (levels : LevelSubst) (n : Node T) : Node T :=
  n.mapSorts fun s => R.shows (s.subst levels)

/-- Substituting levels and then reading is reading under the substitution. -/
theorem Reader.shape_atLevels (R : Reader) (levels : LevelSubst) (n : Node T) :
    R.shape .empty (n.atLevels levels) = R.shape levels n := by
  rw [shape, shape]
  refine Node.mapSorts_trans fun s _ => ?_
  rw [USort.subst_of_isEmpty rfl]

/-- The bounds of an unknown at which substitutions are delayed. At other unknowns nothing is
left of a substitution. -/
def Unknown.delays (u : Unknown) : Option (List Var) := if u.delaying then some u.bounds else none

theorem Unknown.delays_eq_some {bounds : List Var} :
    u.delays = some bounds ↔ u.delaying = true ∧ u.bounds = bounds := by
  unfold delays
  split <;> simp_all

theorem Unknown.delays_eq_none : u.delays = none ↔ u.delaying = false := by
  simp [delays]

/-- The part of a store that a traversal leaves as it is. -/
structure Known where
  unknowns : Nat → Option (Option (List Var))
  solutions : Table Term
  mappings : Table Shared

def Store.known (s : Store) : Known :=
  ⟨fun i => (s.unknowns.get? i).map Unknown.delays, s.solutions, s.mappings⟩

/-- Bounds are struck from an unknown at which nothing is delayed. -/
theorem Store.known_narrow {s : Store} {i : Nat} (hget : s.unknowns.get? i = some u)
    (hdelaying : u.delaying = false) (bounds : List Var) :
    Store.known { s with unknowns := s.unknowns.insert i { u with bounds } } = s.known := by
  refine congrArg (Known.mk · _ _) (funext fun j => ?_)
  by_cases hj : j = i
  · subst hj
    have hnone (bounds : List Var) : Unknown.delays { u with bounds } = none :=
      Unknown.delays_eq_none.mpr hdelaying
    rw [Table.get?_insert_self, hget]
    exact congrArg some ((hnone bounds).trans (hnone u.bounds).symm)
  · rw [Table.get?_insert_of_ne _ _ hj]

/-- The entries of a mapping. -/
def Known.mapping? (known : Known) : MappingRef Term → Option (Mapping Term)
  | .own m => some m
  | .shared number => (known.mappings.get? number).map Shared.mapping

/-- What is around a term that is read. -/
structure Vista where
  /-- The let clauses that are looked up. -/
  clauses : Nat → Option LetClause
  known : Known
  /-- Free variables are older than this. -/
  age : Nat
  /-- The outer part of the scope, the innermost variable first. -/
  outer : List Var

/-- How a term is read. -/
structure Mode where
  /-- The level substitution that the term is under. -/
  levels : LevelSubst
  /-- Whether let clauses of the outer part of the scope are out of reach. -/
  closed : Bool

/-- Terms are read on their own. -/
def Mode.start : Mode := ⟨.empty, false⟩

/-- The mode beneath a delayed substitution. -/
def Mode.beneath (M : Mode) (levels : LevelSubst) : Mode := ⟨levels.compose M.levels, true⟩

/-- What a variable shows as, by its place in the scope. -/
inductive Vista.Locates (V : Vista) (closed : Bool) (scope : List Var) : Var → Indexed → Prop where
  | bound {x : Var} {i : Nat} (hx : (scope ++ V.outer).idxOf? x = some i)
      (hclause : x.kind = .clause → x ∉ scope →
        closed = false ∧ ∀ z ∈ scope, x.serial < z.serial) :
      Locates V closed scope x (.bound i)
  | free {x : Var} (hx : x ∉ scope ++ V.outer) (hkind : x.kind ≠ .clause)
      (hage : x.serial < V.age) : Locates V closed scope x (.free x)

/-- The place of a variable in the scope. -/
def Vista.place (V : Vista) (scope : List Var) (x : Var) : Indexed :=
  ((scope ++ V.outer).idxOf? x).elim (.free x) .bound

theorem Vista.Locates.eq_place (h : V.Locates closed scope x n) : n = V.place scope x := by
  cases h with
  | bound hx => rw [place, hx, Option.elim_some]
  | free hx => rw [place, List.idxOf?_eq_none_iff.mpr hx, Option.elim_none]

theorem Vista.Locates.places {ns : List Indexed} (h : List.Forall₂ (V.Locates closed scope) xs ns) :
    ns = xs.map (V.place scope) ∧ ∀ x ∈ xs, V.Locates closed scope x (V.place scope x) := by
  induction h with
  | nil => exact ⟨rfl, by simp⟩
  | cons hx _ ih =>
    rw [List.map_cons, ← hx.eq_place, ← ih.1]
    exact ⟨rfl, List.forall_mem_cons.mpr ⟨hx.eq_place ▸ hx, ih.2⟩⟩

/-- A let clause that shows is in scope. -/
theorem Vista.Locates.mem_of_clause (h : V.Locates closed scope x n)
    (hkind : x.kind = .clause) : x ∈ scope ++ V.outer := by
  cases h with
  | bound hx =>
    by_contra hnot
    rw [List.idxOf?_eq_none_iff.mpr hnot] at hx
    cases hx
  | free _ hkind' => exact absurd hkind hkind'

theorem Vista.Locates.of_clause (h : V.Locates closed scope x n)
    (hkind : x.kind = .clause) (hnot : x ∉ scope) :
    closed = false ∧ ∀ z ∈ scope, x.serial < z.serial := by
  cases h with
  | bound _ hclause => exact hclause hkind hnot
  | free _ hkind' => exact absurd hkind hkind'

theorem Vista.Locates.of_not_clause {closed' : Bool}
    (h : V.Locates closed scope x n) (hkind : x.kind ≠ .clause) : V.Locates closed' scope x n := by
  cases h with
  | bound hx _ => exact .bound hx fun h => absurd h hkind
  | free hx _ hage => exact .free hx hkind hage

/-- A variable that can be free shows where the scope has it. -/
theorem Vista.locates_place (closed : Bool) (hkind : x.kind ≠ .clause) (hage : x.serial < V.age) :
    V.Locates closed scope x (V.place scope x) := by
  cases hx : (scope ++ V.outer).idxOf? x with
  | some i =>
    rw [place, hx]
    exact .bound hx fun hclause => absurd hclause hkind
  | none =>
    rw [place, hx]
    exact .free (List.idxOf?_eq_none_iff.mp hx) hkind hage

/-- What can be read: a term, what is left of a let expression from a clause on, or the parts
of a node. -/
inductive Item where
  | term (t : Term)
  | tail (xs : List Var) (body : Term)
  | plan (p : Plan)

/-- The node of an unsolved unknown under a level substitution. -/
def Indexed.Head.deferred (v : Var) (levels : LevelSubst) : Indexed.Head :=
  .form (.delayed () (.own (.single (.local v) ())) levels)

/-- Whether the node is made of its parts. -/
def Node.hasParts {T : Type} : Node T → Bool
  | .ref _ | .letIn _ _ _ | .unknown _ | .delayed _ _ _ => false
  | _ => true

theorem Node.hasParts_sorted_erase (sig : Signature) (n : Node Term) :
    (n.sorted sig).erase.hasParts = n.hasParts := by cases n <;> rfl

theorem Node.hasParts_atLevels (levels : LevelSubst) (n : Node T) :
    (n.atLevels levels).hasParts = n.hasParts := by cases n <;> rfl

theorem Reader.not_isDeferred (R : Reader) {n : Shape} (h : n.hasParts) (levels : LevelSubst) :
    (Indexed.Head.form (R.shape levels n)).isDeferred = false := by
  cases n with
  | unknown | delayed => cases h
  | _ => rfl

/-- An item in a scope means a list of indexed terms, which is a single one if the item is a
term. -/
inductive Means (R : Reader) (V : Vista) :
    Mode → List Var → Item → List Indexed → Prop where
  | ref {M : Mode} {scope : List Var} {stamp : Nat} {x : Var} {n : Indexed}
      (h : V.Locates M.closed scope x n) : Means R V M scope (.term (.mk stamp (.ref x))) [n]
  | node {M : Mode} {scope : List Var} {stamp : Nat} {node : Node Term} {parts : List Indexed}
      (hparts : node.hasParts) (hnode : node.Readable R.sig)
      (hfits : ∀ s ∈ (node.sorted R.sig).erase.sorts, R.fits M.levels s)
      (h : Means R V M scope (.plan (node.sorted R.sig).plan) parts) :
      Means R V M scope (.term (.mk stamp node))
        [.node (.form (R.shape M.levels (node.sorted R.sig).erase)) parts]
  | letIn {M : Mode} {scope : List Var} {stamp : Nat} {strict : Bool} {xs : List Var}
      {body : Term} {parts : List Indexed} (h : Means R V M scope (.tail xs body) parts) :
      Means R V M scope (.term (.mk stamp (.letIn strict xs body)))
        [.node (.form (.letIn strict (xs.map fun _ => default) ())) parts]
  | solved {M : Mode} {scope : List Var} {stamp : Nat} {v : Var} {u : Term} {ns : List Indexed}
      (hsolution : V.known.solutions.get? stamp = some u) (h : Means R V M scope (.term u) ns) :
      Means R V M scope (.term (.mk stamp (.unknown v))) ns
  | unsolved {M : Mode} {scope bounds : List Var} {stamp : Nat} {v : Var} {args : List Indexed}
      (hkind : v.kind = .unknown) (hsolution : V.known.solutions.get? stamp = none)
      (hu : V.known.unknowns v.serial = some (some bounds)) (hwaits : R.waits M.levels stamp v)
      (hdefers : R.defers .empty M.levels)
      (hargs : List.Forall₂ (V.Locates true scope) bounds args) :
      Means R V M scope (.term (.mk stamp (.unknown v)))
        [.node (.deferred (R.marks stamp v) (R.tells M.levels)) args]
  | held {M : Mode} {scope : List Var} {stamp : Nat} {v : Var} (hkind : v.kind = .unknown)
      (hsolution : V.known.solutions.get? stamp = none) (hu : V.known.unknowns v.serial = some none)
      (hwaits : R.waits M.levels stamp v)
      (hreserves : ∀ x ∈ R.reserves stamp, x.kind ≠ .clause ∧ x.serial < V.age) :
      Means R V M scope (.term (.mk stamp (.unknown v)))
        [.node (.form (.unknown (R.marks stamp v))) ((R.reserves stamp).map (V.place scope))]
  | delayed {M : Mode} {scope xs : List Var} {stamp : Nat} {u : Term} {r : MappingRef Term}
      {m : Mapping Term} {levels : LevelSubst} {values : List Indexed} {n : Indexed}
      (hmapping : V.known.mapping? r = some m) (hkeys : m.entries.map Prod.fst = xs.map .local)
      (hnodup : xs.Nodup) (hkinds : ∀ x ∈ xs, x.kind ≠ .unknown) (hdefers : R.defers M.levels levels)
      (hvalues : Means R V M scope (.plan (.terms (m.entries.map Prod.snd))) values)
      (h : Means R V (M.beneath levels) (xs ++ scope) (.term u) [n]) :
      Means R V M scope (.term (.mk stamp (.delayed u r levels))) [n.inst (.front values)]
  | body {M : Mode} {scope : List Var} {t : Term} {ns : List Indexed}
      (h : Means R V M scope (.term t) ns) : Means R V M scope (.tail [] t) ns
  | clause {M : Mode} {scope : List Var} {x : Var} {xs : List Var} {t : Term} {c : LetClause}
      {ds : List Indexed} {n : Indexed} (hkind : x.kind ≠ .unknown)
      (hc : V.clauses x.serial = some c)
      (hdefinition : Means R V M scope (.plan (.terms (c.expr :: c.type.toList))) ds)
      (h : Means R V M (x :: scope) (.tail xs t) [n]) :
      Means R V M scope (.tail (x :: xs) t) [.node (.clause c.type.isSome) (ds ++ [.abs n])]
  | done {M : Mode} {scope : List Var} : Means R V M scope (.plan .done) []
  | term {M : Mode} {scope : List Var} {t : Term} {rest : Plan} {n : Indexed} {ns : List Indexed}
      (ht : Means R V M scope (.term t) [n]) (hrest : Means R V M scope (.plan rest) ns) :
      Means R V M scope (.plan (.term t rest)) (n :: ns)
  | under {M : Mode} {scope : List Var} {x : Var} {inner rest : Plan} {ms ns : List Indexed}
      (hkind : x.kind ≠ .unknown) (hinner : Means R V M (x :: scope) (.plan inner) ms)
      (hrest : Means R V M scope (.plan rest) ns) :
      Means R V M scope (.plan (.under x inner rest)) (ms.map .abs ++ ns)

variable {R : Reader} {V V' : Vista} {M : Mode} {scope : List Var} {item : Item}
variable {ns : List Indexed}

/-- A term means a single indexed term. -/
theorem Means.single (h : Means R V M scope (.term t) ns) : ∃ n, ns = [n] := by
  generalize hitem : Item.term t = item at h
  induction h generalizing t with
  | ref | node | letIn | unsolved | held | delayed => exact ⟨_, rfl⟩
  | solved _ _ ih => exact ih rfl
  | body | clause | done | term | under => cases hitem

theorem Means.tail_single (h : Means R V M scope (.tail xs t) ns) : ∃ n, ns = [n] := by
  cases h with
  | body h => exact h.single
  | clause => exact ⟨_, rfl⟩

theorem means_ref_iff :
    Means R V M scope (.term (.mk stamp (.ref x))) [n] ↔ V.Locates M.closed scope x n := by
  constructor
  · intro h
    cases h with
    | ref h => exact h
    | node hparts => cases hparts
  · exact .ref

/-- A node that is made of its parts means what they mean, put together. -/
theorem means_node_iff {node : Node Term} (hparts : node.hasParts) :
    Means R V M scope (.term (.mk stamp node)) [n] ↔ node.Readable R.sig ∧
      (∀ s ∈ (node.sorted R.sig).erase.sorts, R.fits M.levels s) ∧ ∃ parts,
        n = .node (.form (R.shape M.levels (node.sorted R.sig).erase)) parts ∧
        Means R V M scope (.plan (node.sorted R.sig).plan) parts := by
  constructor
  · intro h
    cases h with
    | ref | letIn | solved | unsolved | held | delayed => cases hparts
    | node _ hnode hfits h => exact ⟨hnode, hfits, _, rfl, h⟩
  · rintro ⟨hnode, hfits, parts, rfl, h⟩
    exact .node hparts hnode hfits h

/-! ## The parts of a node -/

theorem means_done_iff : Means R V M scope (.plan .done) ns ↔ ns = [] := by
  constructor
  · intro h
    cases h with
    | done => rfl
  · rintro rfl
    exact .done

theorem means_append_iff {p q : Plan} : Means R V M scope (.plan (p.append q)) ns ↔
    ∃ ms ms', ns = ms ++ ms' ∧ Means R V M scope (.plan p) ms ∧ Means R V M scope (.plan q) ms' := by
  constructor
  · intro h
    induction p generalizing ns with
    | done => exact ⟨[], ns, rfl, .done, h⟩
    | term t p ih =>
      cases h with
      | term ht hrest =>
        obtain ⟨ms, ms', rfl, hp, hq⟩ := ih hrest
        exact ⟨_, ms', rfl, .term ht hp, hq⟩
    | under x inner p _ ih =>
      cases h with
      | under hkind hinner hrest =>
        obtain ⟨ms, ms', rfl, hp, hq⟩ := ih hrest
        exact ⟨_, ms', by rw [List.append_assoc], .under hkind hinner hp, hq⟩
  · rintro ⟨ms, ms', rfl, hp, hq⟩
    induction p generalizing ms with
    | done => exact means_done_iff.mp hp ▸ hq
    | term t p ih =>
      cases hp with
      | term ht hrest => exact .term ht (ih _ hrest)
    | under x inner p _ ih =>
      cases hp with
      | under hkind hinner hrest =>
        rw [List.append_assoc]
        exact .under hkind hinner (ih _ hrest)

theorem means_terms_iff {ts : List Term} : Means R V M scope (.plan (.terms ts)) ns ↔
    List.Forall₂ (fun t n => Means R V M scope (.term t) [n]) ts ns := by
  induction ts generalizing ns with
  | nil => rw [List.forall₂_nil_left_iff]; exact means_done_iff
  | cons t ts ih =>
    rw [List.forall₂_cons_left_iff]
    constructor
    · intro h
      cases h with
      | term ht hrest => exact ⟨_, _, ht, ih.mp hrest, rfl⟩
    · rintro ⟨n, ns, ht, hrest, rfl⟩
      exact .term ht (ih.mpr hrest)

theorem means_under_iff {inner : Plan} :
    Means R V M scope (.plan (.under x inner .done)) ns ↔
      x.kind ≠ .unknown ∧ ∃ ms, ns = ms.map .abs ∧ Means R V M (x :: scope) (.plan inner) ms := by
  constructor
  · intro h
    cases h with
    | under hkind hinner hrest =>
      rw [means_done_iff.mp hrest, List.append_nil]
      exact ⟨hkind, _, rfl, hinner⟩
  · rintro ⟨hkind, ms, rfl, hinner⟩
    rw [← List.append_nil (ms.map _)]
    exact .under hkind hinner .done

/-! ## Other vistas -/

/-- The second vista shows at least what the first one shows. -/
structure Vista.Le (V V' : Vista) : Prop where
  clauses : ∀ i c, V.clauses i = some c → V'.clauses i = some c
  known : V'.known = V.known
  age : V.age ≤ V'.age
  outer : V'.outer = V.outer

theorem Vista.Locates.mono (h : V.Locates closed scope x n) (hage : V.age ≤ V'.age)
    (houter : V'.outer = V.outer) : V'.Locates closed scope x n := by
  cases h with
  | bound hx hclause => exact .bound (houter ▸ hx) hclause
  | free hx hkind hage' => exact .free (houter ▸ hx) hkind (hage'.trans_le hage)

/-- The second vista shows in scopes on `base'` what the first one shows in scopes on `base`,
with values in place of the variables. If it is loose, then whether let clauses are out of
reach does not matter. -/
structure Vista.Carries (V V' : Vista) (loose : Prop) (base base' : List Var) (ρ : Indexed.Values) :
    Prop where
  clauses : ∀ i c, V.clauses i = some c → V'.clauses i = some c
  known : V'.known = V.known
  age : V.age ≤ V'.age
  locates : ∀ inner closed closed' x n, loose ∨ closed' = closed →
    V.Locates closed (inner ++ base) x n →
      V'.Locates closed' (inner ++ base') x (n.inst (ρ.under inner.length))

theorem length_values {m : Mapping Term} {values : List Indexed}
    (hkeys : m.entries.map Prod.fst = xs.map .local)
    (hvalues : Means R V M scope (.plan (.terms (m.entries.map Prod.snd))) values) :
    values.length = xs.length := by
  have hvalues := (means_terms_iff.mp hvalues).length_eq
  have hkeys := congrArg List.length hkeys
  simp only [List.length_map] at hvalues hkeys
  omega

/-- Binders are passed by what goes on beneath them. -/
theorem Indexed.map_abs {f g : Indexed → Indexed} (h : ∀ n : Indexed, f n.abs = (g n).abs)
    (ms : List Indexed) : (ms.map abs).map f = (ms.map g).map abs := by
  rw [List.map_map, List.map_map]
  exact List.map_congr_left fun n _ => h n

theorem Means.carry {loose : Prop} {base base' : List Var} {ρ : Indexed.Values} {closed' : Bool}
    (hV : V.Carries V' loose base base' ρ) (inner : List Var)
    (h : Means R V M (inner ++ base) item ns) (hclosed : loose ∨ closed' = M.closed) :
    Means R V' ⟨M.levels, closed'⟩ (inner ++ base') item
      (ns.map (Indexed.inst (ρ.under inner.length))) := by
  generalize hscope : inner ++ base = scope at h
  induction h generalizing inner closed' with
  | ref h =>
    subst hscope
    exact .ref (hV.locates _ _ _ _ _ hclosed h)
  | node hparts hnode hfits _ ih =>
    rw [List.map_singleton, Indexed.inst_node]
    exact .node hparts hnode hfits (ih _ hclosed hscope)
  | letIn _ ih =>
    rw [List.map_singleton, Indexed.inst_node]
    exact .letIn (ih _ hclosed hscope)
  | solved hsolution _ ih => exact .solved (hV.known ▸ hsolution) (ih _ hclosed hscope)
  | unsolved hkind hsolution hu hwaits hdefers hargs =>
    subst hscope
    rw [List.map_singleton, Indexed.inst_node]
    refine .unsolved hkind (hV.known ▸ hsolution) (hV.known ▸ hu) hwaits hdefers ?_
    rw [List.forall₂_map_right_iff]
    exact hargs.imp fun _ _ => hV.locates _ _ _ _ _ (.inr rfl)
  | @held M scope stamp v hkind hsolution hu hwaits hreserves =>
    subst hscope
    have hplaces : ((R.reserves stamp).map (V.place (inner ++ base))).map
        (Indexed.inst (ρ.under inner.length)) =
          (R.reserves stamp).map (V'.place (inner ++ base')) := by
      rw [List.map_map]
      refine List.map_congr_left fun x hx => ?_
      obtain ⟨hclause, hold⟩ := hreserves x hx
      exact (hV.locates _ _ _ _ _ (.inr rfl) (Vista.locates_place false hclause hold)).eq_place
    rw [List.map_singleton, Indexed.inst_node, hplaces]
    exact .held hkind (hV.known ▸ hsolution) (hV.known ▸ hu) hwaits fun x hx =>
      ⟨(hreserves x hx).1, (hreserves x hx).2.trans_le hV.age⟩
  | delayed hmapping hkeys hnodup hkinds hdefers hvalues _ ih ih' =>
    rw [List.map_singleton, Indexed.inst_front_under, length_values hkeys hvalues,
      ← List.length_append]
    refine .delayed (hV.known ▸ hmapping) hkeys hnodup hkinds hdefers (ih _ hclosed hscope) ?_
    rw [← List.append_assoc]
    exact ih' _ (.inr rfl) (by rw [← hscope, List.append_assoc])
  | body _ ih => exact .body (ih _ hclosed hscope)
  | @clause _ _ x _ _ _ _ _ hkind hc _ _ ih ih' =>
    rw [List.map_singleton, Indexed.inst_node, List.map_append, List.map_singleton,
      Indexed.inst, Indexed.Values.lift_under]
    exact .clause hkind (hV.clauses _ _ hc) (ih _ hclosed hscope)
      (ih' (x :: inner) hclosed (congrArg (x :: ·) hscope))
  | done => exact .done
  | term _ _ ih ih' => exact .term (ih _ hclosed hscope) (ih' _ hclosed hscope)
  | @under _ _ x _ _ ms _ hkind _ _ ih ih' =>
    have hbeneath (n : Indexed) : n.abs.inst (ρ.under inner.length) =
        (n.inst (ρ.under (inner.length + 1))).abs := by
      rw [Indexed.inst, Indexed.Values.lift_under]
    rw [List.map_append, Indexed.map_abs hbeneath]
    exact .under hkind (ih (x :: inner) hclosed (congrArg (x :: ·) hscope)) (ih' _ hclosed hscope)

theorem Indexed.Values.id_under (k : Nat) : Values.id.under k = .id := by
  refine congrArg (Values.mk · _) (funext fun i => ?_)
  show (if i < k then Indexed.bound i else .bound (i - k + k)) = .bound i
  split
  · rfl
  · rw [Nat.sub_add_cancel (by omega)]

/-- Variables can show the same in another scope. -/
theorem Means.moved {scope' : List Var} (h : Means R V M scope item ns)
    (hclauses : ∀ i c, V.clauses i = some c → V'.clauses i = some c)
    (hknown : V'.known = V.known) (hage : V.age ≤ V'.age)
    (hlocates : ∀ inner closed x n, V.Locates closed (inner ++ scope) x n →
      V'.Locates closed (inner ++ scope') x n) : Means R V' M scope' item ns := by
  have hcarries : V.Carries V' False scope scope' .id := by
    refine ⟨hclauses, hknown, hage, fun inner closed closed' x n hclosed hn => ?_⟩
    obtain rfl := hclosed.resolve_left fun h => h
    rw [Indexed.Values.id_under, Indexed.inst_id]
    exact hlocates _ _ _ _ hn
  have hcarried := h.carry hcarries [] (.inr rfl)
  rwa [Indexed.Values.id_under, List.map_congr_left fun n _ => n.inst_id, List.map_id'] at hcarried

theorem Means.mono (h : Means R V M scope item ns) (hle : V.Le V') :
    Means R V' M scope item ns :=
  h.moved hle.clauses hle.known hle.age fun _ _ _ _ hn => hn.mono hle.age hle.outer

/-- A new variable in the outer part of the scope makes room for itself. -/
theorem Means.weaken (h : Means R V M [] item ns) (hy : y ∉ V.outer) (hage : V.age ≤ y.serial) :
    Means R { V with outer := y :: V.outer } M [] item (ns.map (Indexed.rename Nat.succ)) := by
  have hcarries : V.Carries { V with outer := y :: V.outer } False [] []
      (Indexed.Values.id.renamed Nat.succ) := by
    refine ⟨fun _ _ hc => hc, rfl, le_rfl, fun inner closed closed' x n hclosed hn => ?_⟩
    obtain rfl := hclosed.resolve_left fun h => h
    rw [List.append_nil] at hn ⊢
    cases hn with
    | @bound i hx hclause =>
      have hne : x ∈ V.outer → x ≠ y := fun hmem heq => hy (heq ▸ hmem)
      have hbound : ((Indexed.Values.id.renamed Nat.succ).under inner.length).bound i =
          .bound (if i < inner.length then i else i + 1) := by
        show (if i < inner.length then Indexed.bound i else .bound (i - inner.length + 1 +
          inner.length)) = _
        split
        · rfl
        · congr 1
          omega
      rw [Indexed.inst, hbound]
      exact .bound (idxOf?_insert hne hx) hclause
    | free hx hkind hage' =>
      refine .free ?_ hkind hage'
      have hne : x ≠ y := by
        rintro rfl
        exact absurd hage' (Nat.not_lt.mpr hage)
      simp only [List.mem_append, List.mem_cons, not_or] at hx ⊢
      exact ⟨hx.1, hne, hx.2⟩
  have hcarried := h.carry hcarries [] (.inr rfl)
  rwa [List.length_nil, Indexed.Values.under_zero,
    List.map_congr_left fun n _ => (Indexed.rename_eq_inst Nat.succ n).symm] at hcarried

theorem Vista.Locates.shrink (h : V.Locates closed scope x n) (houter : V.outer = y :: ys)
    (hy : ∀ z ∈ ys, z.serial < y.serial) :
    { V with outer := ys }.Locates closed (scope ++ [y]) x n := by
  cases h with
  | bound hx hclause =>
    rw [houter] at hx
    refine .bound (by simpa using hx) fun hkind hnot => ?_
    obtain ⟨hopen, hnewer⟩ := hclause hkind fun hmem => hnot (List.mem_append_left _ hmem)
    exact ⟨hopen, newer_append hx hy hnot hnewer⟩
  | free hx hkind hage =>
    rw [houter] at hx
    exact .free (by simpa using hx) hkind hage

/-- The innermost variable of the outer part can be counted as bound by the item. -/
theorem Means.shrink (h : Means R V M scope item ns) (houter : V.outer = y :: ys)
    (hy : ∀ z ∈ ys, z.serial < y.serial) :
    Means R { V with outer := ys } M (scope ++ [y]) item ns :=
  h.moved (fun _ _ hc => hc) rfl le_rfl fun inner _ _ _ hn => by
    rw [← List.append_assoc]
    exact hn.shrink houter hy

end Recheck
