import Recheck.Fault

/-!
# Recheck — source spans

Terms, obligations and failures are attributed to a `Span`, a range of byte offsets
into the concatenation of the source files. Offsets count from one and the span
`⟨0, 0⟩` stands for "nowhere", which is what synthesized terms carry.

`Span.locate` turns a span into a readable `Location`: the path of the file and, for
each end, a line and a column. The offsets are machine words and their arithmetic
wraps around.
-/

namespace Recheck

/-- A range of byte offsets, both ends counted from one. -/
structure Span where
  first : Int64
  last : Int64
deriving DecidableEq, Repr, Inhabited

namespace Span

/-- The span of things that come from no source text. -/
def nowhere : Span := ⟨0, 0⟩

/-- Whether the span is `nowhere`. -/
def isNowhere (s : Span) : Bool := s == nowhere

/-- The smallest span that covers both; `nowhere` is the neutral element. -/
def join (s t : Span) : Span :=
  if s.isNowhere then t
  else if t.isNowhere then s
  else ⟨if t.first < s.first then t.first else s.first,
        if s.last < t.last then t.last else s.last⟩

end Span

/-- A line and a column, both counted from one. -/
structure Position where
  line : Int64
  column : Int64
deriving DecidableEq, Repr, Inhabited

/-- A readable span. All fields are blank in the location of `Span.nowhere`. -/
structure Location where
  path : String
  first : Position
  last : Position
deriving DecidableEq, Repr, Inhabited

namespace Location

/-- The location of `Span.nowhere`. -/
def nowhere : Location := ⟨"", ⟨0, 0⟩, ⟨0, 0⟩⟩

/-- One position is written `path:line.column`, a range as two of them. -/
def text (l : Location) : String :=
  if l = nowhere then "<no location>"
  else if l.first = l.last then s!"{l.path}:{l.first.line}.{l.first.column}"
  else s!"{l.path}:{l.first.line}.{l.first.column}-{l.last.line}.{l.last.column}"

end Location

/-- A source file: its path, its length and the offsets of its line ends. -/
structure SourceFile where
  path : String
  length : Int64
  newlines : List Int64
deriving DecidableEq, Repr, Inhabited

namespace SourceFile

/-- The position of an offset in a file that begins at offset `start`. Each line end
before the offset opens a new line; the search stops at the first one that is not. -/
def position (start off : Int64) (newlines : List Int64) : Position :=
  go 1 (start - 1) newlines
where
  /-- `lineStart` is the offset of the line end before the current line. -/
  go (line lineStart : Int64) : List Int64 → Position
    | [] => ⟨line, off - lineStart⟩
    | nl :: rest =>
      if start + nl < off then go (line + 1) (start + nl) rest
      else ⟨line, off - lineStart⟩

/-- The file that an offset belongs to and the offset at which that file begins: the
first file that ends beyond the offset, or else the last one. -/
def containing (off start : Int64) : List SourceFile → Option (SourceFile × Int64)
  | [] => none
  | [f] => some (f, start)
  | f :: rest =>
    if off < start + f.length then some (f, start)
    else containing off (start + f.length) rest

/-- The total length of files that follow one another. -/
def totalLength (files : List SourceFile) : Int64 :=
  files.foldl (fun n f => n + f.length) 0

end SourceFile

namespace Span

/-- The path and the position of one end of a span. -/
def endpoint (files : List SourceFile) (off : Int64) : Except Fault (String × Position) :=
  match SourceFile.containing (off - 1) 0 files with
  | none => .error .noFiles
  | some (f, start) => .ok (f.path, SourceFile.position start (off - 1) f.newlines)

/-- The location of a span in a list of files that follow one another. -/
def locate (files : List SourceFile) (s : Span) : Except Fault Location :=
  if s.isNowhere then .ok Location.nowhere
  else if files.isEmpty then .error .noFiles
  else if s.first < 1 ∨ SourceFile.totalLength files < s.last - 1 then .error .spanOutOfRange
  else if s.last < s.first then .error .reversedSpan
  else do
    let (path, first) ← endpoint files s.first
    let (path', last) ← endpoint files s.last
    if path ≠ path' then .error .severalFiles
    else .ok ⟨path, first, last⟩

end Span

end Recheck
