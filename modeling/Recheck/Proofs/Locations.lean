import Mathlib.Algebra.Group.Int.Defs
import Mathlib.Data.Int.Order.Basic
import Mathlib.Data.List.Basic
import Mathlib.Order.Bounds.Basic
import Recheck.Span

/-!
# Recheck — locations are exact

A span counts offsets from one, over all files as if they were one text. Locating it decides
which file each end is in, on which line and in which column. What it should find is said here
without the search, over the integers:

* `SourceFile.Owns`: an offset belongs to the first file that ends beyond it, or to the last one.
* `Position.Marks`: the line of an offset counts the line ends before it, and the column is the
  distance from the last of them. A line end just in front of the file stands for the first line.

`Span.locate_exact` is the result. Offsets are machine words, so it takes files that are not
longer, all together, than the largest of them.
-/

namespace Recheck

/-! ## Layouts -/

namespace SourceFile

/-- The lengths of the files, added up. -/
def extent : List SourceFile → Int
  | [] => 0
  | f :: files => f.length.toInt + extent files

/-- The offset at which the file with the given index begins, where the one before it ends. -/
def startOf (files : List SourceFile) (i : Nat) : Int := extent (files.take i)

/-- The offset belongs to the file with the given index. -/
structure Owns (files : List SourceFile) (off : Int) (i : Nat) : Prop where
  exists_file : i < files.length
  /-- The files before it end at the offset or in front of it. -/
  beyond : ∀ j < i, startOf files (j + 1) ≤ off
  within : off < startOf files (i + 1) ∨ i + 1 = files.length

/-- The line ends of the file are in order and inside of it. -/
structure Sound (f : SourceFile) : Prop where
  length : 0 ≤ f.length
  ascending : f.newlines.Pairwise (· < ·)
  inside : ∀ nl ∈ f.newlines, 0 ≤ nl ∧ nl < f.length

/-- Files that follow one another: they can be told apart, and offsets reach all of them. -/
structure Layout (files : List SourceFile) : Prop where
  paths : (files.map path).Nodup
  sound : ∀ f ∈ files, f.Sound
  fits : extent files < 2 ^ 63

variable {files : List SourceFile} {f g : SourceFile} {off : Int} {i j : Nat}

theorem startOf_succ : startOf (f :: files) (i + 1) = f.length.toInt + startOf files i := rfl

theorem Owns.unique (h : Owns files off i) (h' : Owns files off j) : i = j := by
  have hle : ∀ {i j}, Owns files off i → Owns files off j → ¬ i < j := by
    intro i j h h' hlt
    have hbeyond := h'.beyond i hlt
    have hj := h'.exists_file
    rcases h.within with hin | hlast <;> omega
  exact Nat.le_antisymm (Nat.not_lt.mp (hle h' h)) (Nat.not_lt.mp (hle h h'))

theorem Owns.head (h : off < f.length.toInt ∨ files = []) : Owns (f :: files) off 0 := by
  refine ⟨Nat.succ_pos _, fun j hj => absurd hj (Nat.not_lt_zero j), ?_⟩
  simpa [startOf, extent] using h

theorem Owns.tail (h : Owns files (off - f.length.toInt) i) (hoff : f.length.toInt ≤ off) :
    Owns (f :: files) off (i + 1) := by
  refine ⟨Nat.succ_lt_succ h.exists_file, fun j hj => ?_, ?_⟩
  · cases j with
    | zero => simpa [startOf, extent] using hoff
    | succ j =>
      have hbeyond := h.beyond j (Nat.lt_of_succ_lt_succ hj)
      rw [startOf_succ]
      omega
  · rw [startOf_succ, List.length_cons]
    refine h.within.imp (fun hin => ?_) (congrArg (· + 1))
    omega

theorem Layout.file_unique (h : Layout files) (hf : files[i]? = some f) (hg : files[j]? = some g)
    (hpath : f.path = g.path) : i = j := by
  have hi : i < (files.map path).length := by
    rw [List.length_map]
    exact (List.getElem?_eq_some_iff.mp hf).1
  refine (List.getElem?_inj hi h.paths).mp ?_
  rw [List.getElem?_map, List.getElem?_map, hf, hg, Option.map_some, Option.map_some, hpath]

/-! ## The search for the file -/

theorem toInt_add_of_fits {a b : Int64} (h : 0 ≤ a.toInt + b.toInt)
    (h' : a.toInt + b.toInt < 2 ^ 63) : (a + b).toInt = a.toInt + b.toInt := by
  rw [Int64.toInt_add]
  exact Int.bmod_eq_of_le (by omega) (by omega)

theorem toInt_sub_of_fits {a b : Int64} (h : -2 ^ 63 ≤ a.toInt - b.toInt)
    (h' : a.toInt - b.toInt < 2 ^ 63) : (a - b).toInt = a.toInt - b.toInt := by
  rw [Int64.toInt_sub]
  exact Int.bmod_eq_of_le (by omega) (by omega)

theorem extent_nonneg (h : ∀ f ∈ files, f.Sound) : 0 ≤ extent files := by
  induction files with
  | nil => exact Int.le_refl 0
  | cons f files ih =>
    obtain ⟨hf, hfiles⟩ := List.forall_mem_cons.mp h
    exact Int.add_nonneg (Int64.le_iff_toInt_le.mp hf.length) (ih hfiles)

/-- The next file begins where the lengths up to there have not wrapped around. -/
theorem toInt_next {start : Int64} (hstart : 0 ≤ start.toInt) (h : ∀ g ∈ f :: files, g.Sound)
    (hfits : start.toInt + extent (f :: files) < 2 ^ 63) :
    (start + f.length).toInt = start.toInt + f.length.toInt ∧ 0 ≤ f.length.toInt ∧
      (start + f.length).toInt + extent files < 2 ^ 63 := by
  obtain ⟨hf, h⟩ := List.forall_mem_cons.mp h
  have hrest := extent_nonneg h
  have hlength : 0 ≤ f.length.toInt := Int64.le_iff_toInt_le.mp hf.length
  rw [extent] at hfits
  have hsum : (start + f.length).toInt = start.toInt + f.length.toInt :=
    toInt_add_of_fits (by omega) (by omega)
  exact ⟨hsum, hlength, by omega⟩

/-- The search comes to the file that the offset belongs to, and to where that file begins. -/
theorem containing_owns (off : Int64) {start : Int64} (h : ∀ f ∈ files, f.Sound) (hne : files ≠ [])
    (hstart : 0 ≤ start.toInt) (hoff : start.toInt ≤ off.toInt)
    (hfits : start.toInt + extent files < 2 ^ 63) :
    ∃ i f start', containing off start files = some (f, start') ∧ files[i]? = some f ∧
      Owns files (off.toInt - start.toInt) i ∧ start'.toInt = start.toInt + startOf files i ∧
      0 ≤ start'.toInt ∧ start'.toInt ≤ off.toInt ∧ start'.toInt + f.length.toInt < 2 ^ 63 := by
  induction files generalizing start with
  | nil => exact absurd rfl hne
  | cons f files ih =>
    obtain ⟨hsum, hlength, hfits⟩ := toInt_next hstart h hfits
    have hrest := (List.forall_mem_cons.mp h).2
    have hend := extent_nonneg hrest
    have hbounds : 0 ≤ start.toInt ∧ start.toInt ≤ off.toInt ∧
        start.toInt + f.length.toInt < 2 ^ 63 := ⟨hstart, hoff, by omega⟩
    -- the last file takes every offset, so it is a case of its own
    cases files with
    | nil => exact ⟨0, f, start, rfl, rfl, .head (.inr rfl), (Int.add_zero _).symm, hbounds⟩
    | cons g files =>
      by_cases hlt : off < start + f.length
      · have hlt' := Int64.lt_iff_toInt_lt.mp hlt
        exact ⟨0, f, start, if_pos hlt, rfl, .head (.inl (by omega)), (Int.add_zero _).symm, hbounds⟩
      · have hle := Int64.le_iff_toInt_le.mp (Int64.not_lt.mp hlt)
        obtain ⟨i, f', start', hget, hi, howns, heq, hbounds⟩ :=
          ih hrest (List.cons_ne_nil _ _) (by omega) hle hfits
        rw [hsum, ← Int.sub_sub] at howns
        refine ⟨i + 1, f', start', (if_neg hlt).trans hget, hi, howns.tail (by omega), ?_, hbounds⟩
        rw [heq, hsum, startOf_succ, Int.add_assoc]

end SourceFile

/-! ## The search for the line -/

variable {f : SourceFile} {p q : Position} {start off off' : Int}

/-- The line ends of a file that begins at the given offset, and the one in front of it. -/
def SourceFile.lineEnds (f : SourceFile) (start : Int) : List Int :=
  (start - 1) :: f.newlines.map (start + ·.toInt)

/-- The position is that of an offset, for a file that begins at `start`. -/
structure Position.Marks (p : Position) (f : SourceFile) (start off : Int) : Prop where
  line : p.line.toInt = 1 + f.newlines.countP fun nl => start + nl.toInt < off
  column : IsGreatest {b | b ∈ f.lineEnds start ∧ b < off} (off - p.column.toInt)

/-- One position is in front of another. -/
def Position.Before (p q : Position) : Prop :=
  p.line < q.line ∨ p.line = q.line ∧ p.column < q.column

theorem Position.Marks.unique (hp : p.Marks f start off) (hq : q.Marks f start off) : p = q := by
  have hline : p.line = q.line := Int64.toInt_inj.mp (hp.line.trans hq.line.symm)
  have hcolumn := IsGreatest.unique hp.column hq.column
  have hcolumn : p.column = q.column := Int64.toInt_inj.mp (by omega)
  exact (Position.mk.injEq ..).mpr ⟨hline, hcolumn⟩

theorem countP_lt_countP {A : Type} {p q : A → Bool} {as : List A} {a : A}
    (hpq : ∀ a ∈ as, p a → q a) (ha : a ∈ as) (hp : ¬ p a) (hq : q a) :
    as.countP p < as.countP q := by
  obtain ⟨front, back, rfl⟩ := List.append_of_mem ha
  rw [List.forall_mem_append, List.forall_mem_cons] at hpq
  have hfront := List.countP_mono_left hpq.1
  have hback := List.countP_mono_left hpq.2.2
  rw [List.countP_append, List.countP_append, List.countP_cons_of_neg hp, List.countP_cons_of_pos hq]
  omega

/-- A later offset has a later position: it is on a later line if there is a line end between the
two, and otherwise in a later column. -/
theorem Position.Marks.before (hf : f.Sound) (hp : p.Marks f start off) (hq : q.Marks f start off')
    (h : off < off') : p.Before q := by
  obtain ⟨⟨hmem, hbelow⟩, hgreatest⟩ := hp.column
  obtain ⟨⟨hmem', hbelow'⟩, hgreatest'⟩ := hq.column
  have hline := hp.line
  have hline' := hq.line
  have hsub : ∀ nl ∈ f.newlines, decide (start + nl.toInt < off) = true →
      decide (start + nl.toInt < off') = true := fun nl _ hnl =>
    decide_eq_true (Int.lt_trans (of_decide_eq_true hnl) h)
  unfold Before
  rw [Int64.lt_iff_toInt_lt, Int64.lt_iff_toInt_lt, ← Int64.toInt_inj]
  by_cases hbetween : off' - q.column.toInt < off
  · -- The last line end before the later offset is also the last before the earlier one.
    have hcount := List.countP_mono_left hsub
    have hle : off' - q.column.toInt ≤ off - p.column.toInt := hgreatest ⟨hmem', hbetween⟩
    have hle' : off - p.column.toInt ≤ off' - q.column.toInt := hgreatest' ⟨hmem, by omega⟩
    omega
  have hstart : start - 1 ≤ off - p.column.toInt := by
    rcases List.mem_cons.mp hmem with heq | hmem
    · exact heq.ge
    obtain ⟨nl, hnl, heq⟩ := List.mem_map.mp hmem
    have hnonneg : 0 ≤ nl.toInt := Int64.le_iff_toInt_le.mp (hf.inside nl hnl).1
    omega
  rcases List.mem_cons.mp hmem' with heq | hmem'
  · omega
  obtain ⟨nl, hnl, heq⟩ := List.mem_map.mp hmem'
  have hmore := countP_lt_countP hsub hnl (by simp only [decide_eq_true_eq]; omega)
    (decide_eq_true (by omega))
  omega

namespace SourceFile

/-- The search stops at the last line end before the offset. The number of lines up to there is
bounded by the distance from the beginning of the file, so it does not wrap around. -/
theorem marks_go {start off : Int64} (line lineStart : Int64) {newlines : List Int64}
    (hstart : 0 ≤ start.toInt) (hoff : off.toInt < 2 ^ 63 - 1)
    (hlow : start.toInt - 1 ≤ lineStart.toInt) (hbefore : lineStart.toInt < off.toInt)
    (hline : 0 < line.toInt) (hlines : line.toInt ≤ lineStart.toInt - start.toInt + 2)
    (hascending : newlines.Pairwise (· < ·))
    (hends : ∀ nl ∈ newlines, lineStart.toInt < start.toInt + nl.toInt ∧
      start.toInt + nl.toInt < 2 ^ 63) :
    (position.go start off line lineStart newlines).line.toInt =
        line.toInt + newlines.countP (fun nl => start.toInt + nl.toInt < off.toInt) ∧
      IsGreatest {b | b ∈ lineStart.toInt :: newlines.map (start.toInt + ·.toInt) ∧ b < off.toInt}
        (off.toInt - (position.go start off line lineStart newlines).column.toInt) := by
  have hcolumn : (off - lineStart).toInt = off.toInt - lineStart.toInt :=
    toInt_sub_of_fits (by omega) (by omega)
  induction newlines generalizing line lineStart with
  | nil =>
    refine ⟨(Int.add_zero _).symm, ?_⟩
    rw [position.go, hcolumn, Int.sub_sub_self]
    exact ⟨⟨.head _, hbefore⟩, fun b hb => (List.mem_singleton.mp hb.1).le⟩
  | cons nl newlines ih =>
    obtain ⟨⟨hend, hfits⟩, hends⟩ := List.forall_mem_cons.mp hends
    obtain ⟨hlater, hascending⟩ := List.pairwise_cons.mp hascending
    have hsum : (start + nl).toInt = start.toInt + nl.toInt := toInt_add_of_fits (by omega) hfits
    have hlater : ∀ nl' ∈ newlines, nl.toInt < nl'.toInt := fun nl' h =>
      Int64.lt_iff_toInt_lt.mp (hlater nl' h)
    rw [position.go]
    by_cases hlt : start + nl < off
    · have hlt' := Int64.lt_iff_toInt_lt.mp hlt
      have hone : (line + 1).toInt = line.toInt + 1 :=
        toInt_add_of_fits (b := 1) (by rw [Int64.toInt_one]; omega) (by rw [Int64.toInt_one]; omega)
      obtain ⟨hcount, ⟨hmem, hbelow⟩, hgreatest⟩ := ih (line + 1) (start + nl)
        (by omega) hlt' (by omega) (by omega) hascending
        (fun nl' h => ⟨by have := hlater nl' h; omega, (hends nl' h).2⟩)
        (toInt_sub_of_fits (by omega) (by omega))
      rw [if_pos hlt, List.countP_cons, if_pos (decide_eq_true (hsum ▸ hlt')), List.map_cons, ← hsum]
      refine ⟨by omega, ⟨⟨.tail _ hmem, hbelow⟩, ?_⟩⟩
      rintro b ⟨hb, hlow⟩
      rcases List.mem_cons.mp hb with rfl | hb
      · exact (hend.le.trans hsum.ge).trans (hgreatest ⟨.head _, hlt'⟩)
      · exact hgreatest ⟨hb, hlow⟩
    · have hle := Int64.le_iff_toInt_le.mp (Int64.not_lt.mp hlt)
      have hnone : ∀ nl' ∈ nl :: newlines, off.toInt ≤ start.toInt + nl'.toInt := by
        refine List.forall_mem_cons.mpr ⟨by omega, fun nl' h => ?_⟩
        have := hlater nl' h
        omega
      rw [if_neg hlt, List.countP_eq_zero.mpr fun nl' h => by
        simpa only [decide_eq_true_eq, Int.not_lt] using hnone nl' h]
      refine ⟨(Int.add_zero _).symm, ?_⟩
      rw [hcolumn, Int.sub_sub_self]
      refine ⟨⟨.head _, hbefore⟩, fun b hb => ?_⟩
      rcases List.mem_cons.mp hb.1 with rfl | hmem
      · exact le_rfl
      obtain ⟨nl', h, rfl⟩ := List.mem_map.mp hmem
      exact absurd hb.2 (Int.not_lt.mpr (hnone nl' h))

theorem marks_position {start off : Int64} (hf : f.Sound) (hstart : 0 ≤ start.toInt)
    (hoff : start.toInt ≤ off.toInt) (hfits : start.toInt + f.length.toInt < 2 ^ 63)
    (hlast : off.toInt < 2 ^ 63 - 1) :
    (position start off f.newlines).Marks f start.toInt off.toInt := by
  have hpre : (start - 1).toInt = start.toInt - 1 :=
    toInt_sub_of_fits (b := 1) (by rw [Int64.toInt_one]; omega) (by rw [Int64.toInt_one]; omega)
  have hone : (1 : Int64).toInt = 1 := Int64.toInt_one
  obtain ⟨hline, hcolumn⟩ := marks_go 1 (start - 1) hstart hlast (by omega)
    (by omega) (by omega) (by omega) hf.ascending fun nl hnl => by
      have hlow : 0 ≤ nl.toInt := Int64.le_iff_toInt_le.mp (hf.inside nl hnl).1
      have hhigh := Int64.lt_iff_toInt_lt.mp (hf.inside nl hnl).2
      omega
  exact ⟨hline, by rw [lineEnds, ← hpre]; exact hcolumn⟩

end SourceFile

/-! ## Spans -/

namespace Span

open SourceFile (startOf Owns Layout totalLength)

variable {files : List SourceFile} {s : Span} {o o' : Int64}

/-- The offset, counted from one, is in the files or at their end. -/
def InRange (files : List SourceFile) (o : Int64) : Prop :=
  1 ≤ o ∧ o.toInt ≤ (totalLength files).toInt + 1

instance : Decidable (InRange files o) := inferInstanceAs (Decidable (_ ∧ _))

theorem InRange.toInt_pred (ho : InRange files o) :
    1 ≤ o.toInt ∧ (o - 1).toInt = o.toInt - 1 := by
  have hfirst : 1 ≤ o.toInt := Int64.le_iff_toInt_le.mp ho.1
  have hlt : o.toInt < 2 ^ 63 := o.toInt_lt
  exact ⟨hfirst, SourceFile.toInt_sub_of_fits (b := 1) (by rw [Int64.toInt_one]; omega)
    (by rw [Int64.toInt_one]; omega)⟩

/-- Each end of a span is looked up in the file that it belongs to. -/
theorem endpoint_marks (h : Layout files) (hne : files ≠ []) (ho : InRange files o) :
    ∃ i f p, Owns files (o.toInt - 1) i ∧ files[i]? = some f ∧ endpoint files o = .ok (f.path, p) ∧
      p.Marks f (startOf files i) (o.toInt - 1) := by
  obtain ⟨hfirst, hoff⟩ := ho.toInt_pred
  have hlt : o.toInt < 2 ^ 63 := o.toInt_lt
  have hzero : (0 : Int64).toInt = 0 := Int64.toInt_zero
  have hfits := h.fits
  obtain ⟨i, f, start, hget, hi, howns, heq, hstart, hlow, hend⟩ :=
    SourceFile.containing_owns (o - 1) h.sound hne hzero.ge (by omega) (by omega)
  rw [hzero, Int.sub_zero, hoff] at howns
  refine ⟨i, f, _, howns, hi, by rw [endpoint, hget], ?_⟩
  rw [← hoff, ← Int.zero_add (startOf files i), ← hzero, ← heq]
  exact SourceFile.marks_position (h.sound f (List.mem_of_getElem? hi)) hstart hlow hend (by omega)

/-- A span in range is located by its ends. -/
theorem locate_of_marks (h : Layout files) (hne : files ≠ []) (hfirst : InRange files s.first)
    (hspan : s.first ≤ s.last) (hlast : InRange files s.last) :
    ∃ i j f g p q, Owns files (s.first.toInt - 1) i ∧ Owns files (s.last.toInt - 1) j ∧
      files[i]? = some f ∧ files[j]? = some g ∧ p.Marks f (startOf files i) (s.first.toInt - 1) ∧
      q.Marks g (startOf files j) (s.last.toInt - 1) ∧
      locate files s = if i = j then .ok ⟨f.path, p, q⟩ else .error .severalFiles := by
  have hnowhere : ¬ s.isNowhere := fun h => by
    rw [isNowhere, beq_iff_eq] at h
    exact absurd (h ▸ hfirst.1) (by decide)
  have hrange : ¬ (s.first < 1 ∨ totalLength files < s.last - 1) := by
    rw [Int64.lt_iff_toInt_lt, Int64.lt_iff_toInt_lt, hlast.toInt_pred.2]
    have hone := Int64.le_iff_toInt_le.mp hfirst.1
    have hend := hlast.2
    omega
  obtain ⟨i, f, p, hi, hf, hp, hpos⟩ := endpoint_marks h hne hfirst
  obtain ⟨j, g, q, hj, hg, hq, hpos'⟩ := endpoint_marks h hne hlast
  refine ⟨i, j, f, g, p, q, hi, hj, hf, hg, hpos, hpos', ?_⟩
  rw [locate, if_neg hnowhere, if_neg (by simpa using hne), if_neg hrange,
    if_neg (Int64.not_lt.mpr hspan), hp, hq]
  show (if f.path ≠ g.path then _ else _) = _
  by_cases hij : i = j
  · subst hij
    cases hf.symm.trans hg
    rw [if_neg (not_not.mpr rfl), if_pos rfl]
  · rw [if_neg hij, if_pos fun hpath => hij (h.file_unique hf hg hpath)]

/-- Different offsets are located differently. -/
theorem locate_ne_of_lt (h : Layout files) (ho : InRange files o) (ho' : InRange files o')
    (hlt : o < o') : locate files ⟨o, o⟩ ≠ locate files ⟨o', o'⟩ := by
  have hlt := Int64.lt_iff_toInt_lt.mp hlt
  have hne : files ≠ [] := by
    rintro rfl
    have hlow := ho.toInt_pred.1
    have hhigh : o'.toInt ≤ 0 + 1 := ho'.2
    omega
  obtain ⟨i, j, f, -, p, q, hi, hj, hf, -, hp, -, hlocate⟩ :=
    locate_of_marks (s := ⟨o, o⟩) h hne ho (Int64.le_refl o) ho
  obtain ⟨i', j', f', -, p', q', hi', hj', hf', -, hp', -, hlocate'⟩ :=
    locate_of_marks (s := ⟨o', o'⟩) h hne ho' (Int64.le_refl o') ho'
  obtain rfl := hi.unique hj
  obtain rfl := hi'.unique hj'
  rw [hlocate, hlocate', if_pos rfl, if_pos rfl]
  intro heq
  obtain ⟨hpath, rfl, -⟩ := Location.mk.inj (Except.ok.inj heq)
  obtain rfl := h.file_unique hf hf' hpath
  cases hf.symm.trans hf'
  have hbefore := hp.before (h.sound f (List.mem_of_getElem? hf)) hp' (by simp only; omega)
  rcases hbefore with hline | ⟨-, hcolumn⟩
  · exact Int64.lt_irrefl hline
  · exact Int64.lt_irrefl hcolumn

/-- The ends of a span are decoded exactly: the span is refused if they belong to different files,
and otherwise they are located by the line ends of the file, in order. Different offsets have
different locations. -/
theorem locate_exact (h : Layout files) (hfirst : InRange files s.first) (hspan : s.first ≤ s.last)
    (hlast : InRange files s.last) :
    (locate files s = .error .severalFiles ↔
      ∃ i j, Owns files (s.first.toInt - 1) i ∧ Owns files (s.last.toInt - 1) j ∧ i ≠ j) ∧
    (files ≠ [] → ∃ i j, Owns files (s.first.toInt - 1) i ∧ Owns files (s.last.toInt - 1) j) ∧
    (∀ i f, Owns files (s.first.toInt - 1) i → Owns files (s.last.toInt - 1) i →
      files[i]? = some f → ∃ p q, locate files s = .ok ⟨f.path, p, q⟩ ∧
        p.Marks f (startOf files i) (s.first.toInt - 1) ∧
        q.Marks f (startOf files i) (s.last.toInt - 1) ∧ (p = q ∨ p.Before q)) ∧
    (∀ o o', InRange files o → InRange files o' → o ≠ o' →
      locate files ⟨o, o⟩ ≠ locate files ⟨o', o'⟩) := by
  have hlocated := fun hne => locate_of_marks h hne hfirst hspan hlast
  have hfiles : ∀ {off i}, Owns files off i → files ≠ [] := fun hi => by
    rintro rfl
    cases hi.exists_file
  refine ⟨⟨fun hfault => ?_, ?_⟩, fun hne => ?_, fun i f hi hj hf => ?_, fun o o' ho ho' hoo => ?_⟩
  · have hne : files ≠ [] := by
      rintro rfl
      rw [locate] at hfault
      split at hfault <;> simp at hfault
    obtain ⟨i, j, f, g, p, q, hi, hj, -, -, -, -, hlocate⟩ := hlocated hne
    refine ⟨i, j, hi, hj, fun hij => ?_⟩
    rw [hlocate, if_pos hij] at hfault
    cases hfault
  · rintro ⟨i, j, hi, hj, hij⟩
    obtain ⟨i', j', f, g, p, q, hi', hj', -, -, -, -, hlocate⟩ := hlocated (hfiles hi)
    rw [hlocate, if_neg]
    rwa [hi'.unique hi, hj'.unique hj]
  · obtain ⟨i, j, f, g, p, q, hi, hj, -⟩ := hlocated hne
    exact ⟨i, j, hi, hj⟩
  · obtain ⟨i', j', f', g, p, q, hi', hj', hf', hg, hp, hq, hlocate⟩ := hlocated (hfiles hi)
    obtain rfl := hi'.unique hi
    obtain rfl := hj'.unique hj
    cases hf.symm.trans hf'
    cases hf.symm.trans hg
    refine ⟨p, q, hlocate.trans (if_pos rfl), hp, hq, ?_⟩
    rcases Int.lt_or_eq_of_le (Int64.le_iff_toInt_le.mp hspan) with hlt | heq
    · exact .inr (hp.before (h.sound f (List.mem_of_getElem? hf)) hq (by omega))
    · exact .inl (hp.unique (heq ▸ hq))
  · rcases Int64.lt_or_lt_of_ne hoo with hlt | hlt
    · exact locate_ne_of_lt h ho ho' hlt
    · exact (locate_ne_of_lt h ho' ho hlt).symm

end Span

namespace Layouts

open SourceFile (Owns Layout)

/-- Two lines, an empty file and one line more. -/
def short : List SourceFile := [⟨"a", 5, [2]⟩, ⟨"b", 0, []⟩, ⟨"c", 2, []⟩]

/-- A span in the last file, up to the end of the input. -/
theorem locate_exact_short :
    Span.locate short ⟨6, 8⟩ = .ok ⟨"c", ⟨1, 1⟩, ⟨1, 3⟩⟩ ∧
      (Span.locate short ⟨6, 8⟩ = .error .severalFiles ↔
        ∃ i j, Owns short 5 i ∧ Owns short 7 j ∧ i ≠ j) := by
  have h : Layout short := by
    refine ⟨by decide, fun f hf => ?_, by decide⟩
    simp only [short, List.mem_cons, List.not_mem_nil, or_false] at hf
    rcases hf with rfl | rfl | rfl <;>
      exact ⟨by decide, by decide, List.forall_iff_forall_mem.mp (by decide)⟩
  exact ⟨by decide, (Span.locate_exact (s := ⟨6, 8⟩) h (by decide) (by decide) (by decide)).1⟩

end Layouts

end Recheck
