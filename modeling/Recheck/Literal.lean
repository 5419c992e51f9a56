/-!
# Recheck — integer literals

An integer on the command line is written with an optional sign and an optional base
prefix: `0b`, `0o` or just `0`, and `0x`, in either case. Digits may be divided by single
underscores, also after the prefix. It has to fit a machine word.
-/

namespace Recheck

namespace Literal

/-- The value of a digit, letters counting from ten. -/
def digit? (c : Char) : Option Nat :=
  if c.isDigit then some (c.toNat - '0'.toNat)
  else if c.isLower then some (c.toNat - 'a'.toNat + 10)
  else if c.isUpper then some (c.toNat - 'A'.toNat + 10)
  else none

/-- Reads digits of a base from left to right, passing over underscores. -/
def digits? (base : Nat) : Nat → List Char → Option Nat
  | n, [] => some n
  | n, c :: cs =>
    if c = '_' then digits? base n cs
    else do
      let d ← digit? c
      if d < base then digits? base (n * base + d) cs else none

/-- Whether every underscore stands between two digits; `afterDigit` says whether the
previous character was a digit or the end of a prefix. -/
def separated (afterDigit : Bool) : List Char → Bool
  | [] => true
  | ['_'] => false
  | '_' :: c :: cs => afterDigit && c ≠ '_' && separated true (c :: cs)
  | _ :: cs => separated true cs
termination_by cs => cs.length

/-- Splits off a base prefix: the base, whether a prefix was there, and the digits. A sole
zero is a digit, and so is a leading one that stands for base eight. -/
def base (cs : List Char) : Nat × Bool × List Char :=
  match cs with
  | '0' :: p :: c :: rest =>
    match p.toLower with
    | 'b' => (2, true, c :: rest)
    | 'o' => (8, true, c :: rest)
    | 'x' => (16, true, c :: rest)
    | _ => (8, false, cs)
  | '0' :: _ => (8, false, cs)
  | _ => (10, false, cs)

/-- An unsigned literal. -/
def nat? (cs : List Char) : Option Nat :=
  if cs.isEmpty then none
  else
    let (b, prefixed, ds) := base cs
    if separated prefixed ds then digits? b 0 ds else none

/-- A literal that fits a machine word. -/
def int64? (text : String) : Option Int64 := do
  let (negative, cs) := match text.toList with
    | '-' :: cs => (true, cs)
    | '+' :: cs => (false, cs)
    | cs => (false, cs)
  let n ← nat? cs
  if negative then
    if n ≤ 1 <<< 63 then some (Int64.ofInt (-n)) else none
  else
    if n < 1 <<< 63 then some (Int64.ofInt n) else none

end Literal

end Recheck
