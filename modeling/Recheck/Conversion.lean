import Recheck.Inference
import Recheck.Occurrence

/-!
# Recheck — comparing terms

Two terms are compared by reducing both to weak-head normal form and comparing heads and
arguments, up to the names of bound variables. Functions, tuples and record values are
compared up to eta. A hole is equal to everything.

A comparison that meets an unsolved unknown assigns it, if the other side stays in its
bounds, and is put off otherwise. A term that mentions a variable which is bound on the
way to it cannot be assigned and is put off as well.
-/

namespace Recheck

/-- A correspondence between the bound variables of the left-hand term and those of the
right-hand term, each variable on the left at most once. -/
structure Renaming where
  pairs : List (Var × Var)

namespace Renaming

def empty : Renaming := ⟨[]⟩

/-- Lets two variables correspond, in place of an earlier correspondence. -/
def bind (ρ : Renaming) (x y : Var) : Renaming :=
  ⟨(x, y) :: ρ.pairs.filter fun e => e.1 ≠ x⟩

def isEmpty (ρ : Renaming) : Bool := ρ.pairs.isEmpty

/-- Whether a variable on the left corresponds to one on the right. -/
def relates (ρ : Renaming) (x y : Var) : Bool := ρ.pairs.lookup x == some y

/-- All variables of the correspondence. -/
def vars (ρ : Renaming) : List Var := ρ.pairs.flatMap fun e => [e.1, e.2]

end Renaming

/-- The outcome of trying to assign a term to an unknown. -/
inductive Assignment where
  | assigned
  /-- The term mentions the unknown itself or a variable outside of its bounds. -/
  | refused
  /-- The term mentions a variable that is bound on the way to it. -/
  | postponed
deriving DecidableEq, Repr

/-- The constructor form of a literal. -/
def literalCon (n : Int) : Core (ConApp Term) := do
  if n = 0 then return ⟨Prelude.zero, .set0, [], []⟩
  else return ⟨Prelude.suc, .set0, [], [← Core.build (.int (n - 1))]⟩

namespace Conversion

section Step

variable (sig : Signature) (fuel : Nat) (span : Span)
variable (self : Renaming → Relation → Term → Term → Option Term → Solver Bool)

/-- Conjunction from left to right. -/
def both (x y : Solver Bool) : Solver Bool := do
  if ← x then y else return false

/-- The unsolved unknown that a term is a bare occurrence of. -/
def bareUnknown (t : Term) : Solver (Option Var) := do
  match t.node, ← Core.solution? t with
  | .unknown v, none => return some v
  | _, _ => return none

/-- Tries to assign a term to an occurrence of the unknown `v`. -/
def assign (ρ : Renaming) (ref : Term) (v : Var) (t : Term) : Solver Assignment := do
  if (← t.find sig fuel [.local v]).isSome then return .refused
  if (← t.find sig fuel (ρ.vars.map .local)).isSome then return .postponed
  let u ← Core.unknown v
  if (← t.findFree sig fuel fun x => x ∉ u.bounds).isSome then return .refused
  Core.solve ref t
  return .assigned

/-- Tries to assign a term to another one, if that is a bare unknown. There is no answer
if it is not, or if the assignment has to wait. -/
def assignBare (ρ : Renaming) (ref t : Term) : Solver (Option Bool) := do
  match ← bareUnknown ref with
  | none => return none
  | some v =>
    match ← assign sig fuel ρ ref v t with
    | .assigned => return some true
    | .refused => return some false
    | .postponed => return none

/-- Comparisons that involve unsolved unknowns; there is no answer if none is involved. -/
def unknowns (ρ : Renaming) (r : Relation) (a b : Term) (type : Option Term) :
    Solver (Option Bool) := do
  let da ← a.isWhnf sig fuel
  let db ← b.isWhnf sig fuel
  if da ≠ .maybe && db ≠ .maybe then return none
  let va ← bareUnknown a
  let vb ← bareUnknown b
  if va.isSome && va == vb then return some true
  if !(← Solver.acceptsTerms) then return some false
  if let some answer ← assignBare sig fuel ρ a b then return some answer
  if let some answer ← assignBare sig fuel ρ b a then return some answer
  let lhs ← a.stuckUnknown sig fuel
  let rhs ← b.stuckUnknown sig fuel
  return some (← Solver.addEquation ⟨a, b, type, r, span, lhs, rhs⟩)

/-- Terms pair by pair, as far as both lists go. -/
def pairs (ρ : Renaming) : List Term → List Term → Solver Bool
  | a :: as, b :: bs => both (self ρ .eq a b none) (pairs ρ as bs)
  | _, _ => return true

/-- Argument lists, which have to be of one length. -/
def args (ρ : Renaming) (as bs : List Term) : Solver Bool :=
  if as.length = bs.length then pairs self ρ as bs else return false

/-- Telescopes, parameter by parameter. -/
def params (r : Relation) : Renaming → Telescope Term → Telescope Term → Solver Bool
  | _, [], [] => return true
  | ρ, p :: ps, q :: qs => do
    let a ← Telescope.headTypeM (p :: ps)
    let b ← Telescope.headTypeM (q :: qs)
    both (self ρ r a b none) (params r (ρ.bind p.var q.var) ps qs)
  | _, _, _ => return false

/-- The types of the first parameters, and then what `rest` says with these bound. -/
def firstParam (ρ : Renaming) (ps qs : Telescope Term)
    (rest : Renaming → Telescope Term → Telescope Term → Solver Bool) : Solver Bool := do
  match ps, qs with
  | p :: ps', q :: qs' =>
    let a ← Telescope.headTypeM ps
    let b ← Telescope.headTypeM qs
    both (self ρ .eq a b none) (rest (ρ.bind p.var q.var) ps' qs')
  | _, _ => throw .malformed

/-- A function against a term that is none: the term is applied to the parameter. -/
def eta (ρ : Renaming) (sort : USort) (ps : Telescope Term) (body t : Term) :
    Solver Bool := do
  match ps with
  | [] => throw .malformed
  | p :: ps =>
    let ref ← Core.build (.ref p.var)
    let app ← makeApp sig fuel t [ref]
    let rest ← makeLam sort ps body
    self ρ .eq rest app none

/-- A tuple against a term that is none: the components against the projections. -/
def tupleEta (ρ : Renaming) (t : Term) : Nat → List Term → Solver Bool
  | _, [] => return true
  | index, u :: us => do
    let proj ← makeProj t (.ofNat index)
    both (self ρ .eq u proj none) (tupleEta ρ t (index + 1) us)

/-- A record value against a term that is none: the fields against the projections. -/
def recordEta (ρ : Renaming) (value : Term) (r : RecordType Term) (t : Term) :
    List FieldName → Solver Bool
  | [] => return true
  | f :: fs => do
    match ← r.implementation sig fuel f value with
    | none => return false
    | some impl =>
      let proj ← makeField sig fuel f r.sortArg t
      both (self ρ .eq impl proj none) (recordEta ρ value r t fs)

/-- The implementations of two record types. One that implements more is the smaller
type. -/
def impls (ρ : Renaming) (r : Relation) (a b : RecordType Term) :
    List FieldName → Solver Bool
  | [] => return true
  | f :: fs =>
    match a.impl? f, b.impl? f with
    | some ia, some ib => both (self ρ .eq ia ib none) (impls ρ r a b fs)
    | some _, none => if r = .le then impls ρ r a b fs else return false
    | none, some _ => if r = .ge then impls ρ r a b fs else return false
    | none, none => impls ρ r a b fs

/-- Two record types. -/
def recordTypes (ρ : Renaming) (r : Relation) (a b : RecordType Term) : Solver Bool :=
  if a.record = b.record then
    impls self (ρ.bind a.this b.this) r a b (sig.record a.record).fields
  else return false

/-- Two different terms in weak-head normal form. -/
def heads (ρ : Renaming) (r : Relation) (a b : Term) (type : Option Term) :
    Solver Bool := do
  match a.node, b.node with
  | .lam s ps body, .lam s' ps' body' =>
    firstParam self ρ ps ps' fun ρ ps ps' => do
      let x ← makeLam s ps body
      let y ← makeLam s' ps' body'
      self ρ .eq x y none
  | .lam s ps body, _ => eta sig fuel self ρ s ps body b
  | _, .lam s ps body => eta sig fuel self ρ s ps body a
  | .tuple us _, .tuple us' _ => args self ρ us us'
  | _, .tuple us _ => tupleEta self ρ a 0 us
  | .new _ n, .new _ n' => recordTypes sig self ρ .eq n.val n'.val
  | _, .new _ n => recordEta sig fuel self ρ b n.val a (sig.record n.val.record).fields
  | .tuple us _, _ => tupleEta self ρ b 0 us
  | .new _ n, _ => recordEta sig fuel self ρ a n.val b (sig.record n.val.record).fields
  | .ref x, .ref y => return x == y || ρ.relates x y
  | .app f u, .app g v => both (self ρ .eq f g none) (self ρ .eq u v none)
  | .call f _ us, .call g _ vs => if f = g then args self ρ us vs else return false
  | .con c, .con d => if c.con = d.con then args self ρ c.args d.args else return false
  | .con c, .int n =>
    let d ← literalCon n
    if c.con = d.con then args self ρ c.args d.args else return false
  | .data c, .data d => if c.data = d.data then args self ρ c.args d.args else return false
  | .field f _ u, .field g _ v => if f = g then self ρ .eq u v none else return false
  | .record c, .record d => recordTypes sig self ρ r c d
  | .pi s ps codomain, .pi s' ps' codomain' =>
    firstParam self ρ ps ps' fun ρ ps ps' => do
      let x ← makePi s ps codomain
      let y ← makePi s' ps' codomain'
      self ρ r x y none
  | .sigma c, .sigma d => params self r ρ c.params d.params
  | .proj u i, .proj v j => if i = j then self ρ .eq u v none else return false
  | .univ s, .univ s' =>
    if s'.isOmega && r = .le then return true else Solver.compareSorts span r s s'
  | .int m, .int n => return m == n
  | .int n, .con _ =>
    let c ← literalCon n
    let a ← Core.build (.con c)
    self ρ r a b type
  | .case c, .case d =>
    if c.elim.map Elim.stamp = d.elim.map Elim.stamp then args self ρ c.args d.args
    else return false
  | _, _ => return false

/-- Whether a term is a hole. -/
def isHole (t : Term) : Bool :=
  match t.node with
  | .hole .. => true
  | _ => false

/-- Compares two terms, the comparison of subterms being left to `self`. -/
def step (ρ : Renaming) (r : Relation) (a b : Term) (type : Option Term) :
    Solver Bool := do
  if a.same b then return true
  let a ← a.whnf sig fuel
  let b ← b.whnf sig fuel
  if a.same b || isHole a || isHole b then return true
  match ← unknowns sig fuel span ρ r a b type with
  | some answer => return answer
  | none => heads sig fuel span self ρ r a b type

end Step

/-- Compares two terms down to a bounded depth. -/
def run (sig : Signature) (span : Span) :
    Nat → Renaming → Relation → Term → Term → Option Term → Solver Bool
  | 0, _, _, _, _, _ => throw Fault.outOfFuel
  | fuel + 1, ρ, r, a, b, type => step sig fuel span (run sig span fuel) ρ r a b type

end Conversion

/-- Whether `a` and `b`, of the given type, are related. Comparisons that are put off
count as true. -/
def Solver.compare (sig : Signature) (fuel : Nat) (span : Span) (r : Relation) (a b : Term)
    (type : Option Term) : Solver Bool :=
  Conversion.run sig span fuel .empty r a b type

end Recheck
