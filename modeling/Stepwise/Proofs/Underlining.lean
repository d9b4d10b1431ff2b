import Mathlib.Data.List.DropRight
import Stepwise.Failure
import Stepwise.Proofs.Excerpts

/-! What a diagnostic underlines. A place is counted while the text is scanned, and shown by a splitting
of the text into lines; the two meet, so the carets stand under the bytes of the place. -/

namespace Stepwise

/-- The line that an offset of a text is on, between the text before it and the text after it. -/
structure LineOf (source : Bytes) (offset : Nat) (before line after : Bytes) : Prop where
  parts : source = before ++ (line ++ after)
  unbroken : 10 ∉ line
  opens : before = [] ∨ ∃ sooner, before = sooner ++ [10]
  closes : after = [] ∨ ∃ later, after = 10 :: later
  start_le : before.length ≤ offset
  le_stop : offset ≤ before.length + line.length

theorem exists_line_before (text : Bytes) : ∃ before seen : Bytes, text = before ++ seen ∧ 10 ∉ seen ∧
    (before = [] ∨ ∃ sooner, before = sooner ++ [10]) := by
  induction text using List.reverseRecOn with
  | nil => exact ⟨[], [], rfl, List.not_mem_nil, .inl rfl⟩
  | append_singleton text b ih =>
    by_cases hb : b = 10
    · exact ⟨text ++ [b], [], (List.append_nil _).symm, List.not_mem_nil, .inr ⟨text, by rw [hb]⟩⟩
    · obtain ⟨before, seen, rfl, hseen, hbefore⟩ := ih
      refine ⟨before, seen ++ [b], List.append_assoc _ _ _, ?_, hbefore⟩
      rw [List.mem_append, List.mem_singleton, not_or]
      exact ⟨hseen, Ne.symm hb⟩

theorem exists_line_after (text : Bytes) : ∃ unseen after : Bytes, text = unseen ++ after ∧ 10 ∉ unseen ∧
    (after = [] ∨ ∃ later, after = 10 :: later) := by
  induction text with
  | nil => exact ⟨[], [], rfl, List.not_mem_nil, .inl rfl⟩
  | cons b text ih =>
    by_cases hb : b = 10
    · exact ⟨[], b :: text, rfl, List.not_mem_nil, .inr ⟨text, by rw [hb]⟩⟩
    · obtain ⟨unseen, after, rfl, hunseen, hafter⟩ := ih
      refine ⟨b :: unseen, after, rfl, ?_, hafter⟩
      rw [List.mem_cons, not_or]
      exact ⟨Ne.symm hb, hunseen⟩

theorem exists_lineOf {source : Bytes} {offset : Nat} (h : offset ≤ source.length) :
    ∃ before line after, LineOf source offset before line after := by
  obtain ⟨before, seen, htake, hseen, hbefore⟩ := exists_line_before (source.take offset)
  obtain ⟨unseen, after, hdrop, hunseen, hafter⟩ := exists_line_after (source.drop offset)
  have hlength : before.length + seen.length = offset := by
    rw [← List.length_append, ← htake, List.length_take, Nat.min_eq_left h]
  -- the line is what is seen of it before the offset and what is not yet
  refine ⟨before, seen ++ unseen, after, ?_, ?_, hbefore, hafter, by omega, ?_⟩
  · rw [← List.take_append_drop offset source, htake, hdrop, List.append_assoc, List.append_assoc]
  · rw [List.mem_append, not_or]
    exact ⟨hseen, hunseen⟩
  · rw [List.length_append]
    omega

theorem Bytes.splitAt_of_notMem {mark : UInt8} {line after : Bytes} (hline : mark ∉ line)
    (hafter : after = [] ∨ ∃ later, after = mark :: later) :
    (splitAt mark (line ++ after))[0]? = some line := by
  induction line with
  | nil =>
    obtain rfl | ⟨later, rfl⟩ := hafter
    · rfl
    · simp [splitAt]
  | cons b line ih =>
    rw [List.mem_cons, not_or] at hline
    have htail := ih hline.2
    rw [List.cons_append, splitAt, if_neg (Ne.symm hline.1)]
    cases hpieces : splitAt mark (line ++ after) with
    | nil => exact absurd hpieces (splitAt_ne_nil mark _)
    | cons piece pieces =>
      rw [hpieces, List.getElem?_cons_zero, Option.some_inj] at htail
      rw [htail]
      rfl

/-- As many pieces of a text end before some part of it as there are marks before that part. -/
theorem Bytes.splitAt_append_cons (mark : UInt8) (before rest : Bytes) (i : Nat) :
    (splitAt mark (before ++ mark :: rest))[before.count mark + 1 + i]? = (splitAt mark rest)[i]? := by
  induction before with
  | nil =>
    rw [List.nil_append, splitAt, if_pos rfl, List.count_nil, Nat.zero_add, Nat.add_comm,
      List.getElem?_cons_succ]
  | cons b before ih =>
    rw [List.cons_append, splitAt]
    by_cases hb : b = mark
    · have hindex : (b :: before).count mark + 1 + i = before.count mark + 1 + i + 1 := by
        rw [hb, List.count_cons_self]
        omega
      rw [if_pos hb, hindex, List.getElem?_cons_succ, ih]
    · rw [if_neg hb, List.count_cons_of_ne hb]
      cases hpieces : splitAt mark (before ++ mark :: rest) with
      | nil => exact absurd hpieces (splitAt_ne_nil mark _)
      | cons piece pieces =>
        have hindex : before.count mark + 1 + i = before.count mark + i + 1 := by omega
        rw [hpieces, hindex, List.getElem?_cons_succ] at ih
        rw [hindex, List.getElem?_cons_succ, ih]

namespace LineOf

variable {source before line after : Bytes} {offset : Nat}

theorem line_isPiece (h : LineOf source offset before line after) :
    (Bytes.splitAt 10 source)[before.count 10]? = some line := by
  rw [h.parts]
  obtain rfl | ⟨sooner, rfl⟩ := h.opens
  · exact Bytes.splitAt_of_notMem h.unbroken h.closes
  · rw [List.count_append, List.append_assoc]
    exact (Bytes.splitAt_append_cons 10 sooner (line ++ after) 0).trans
      (Bytes.splitAt_of_notMem h.unbroken h.closes)

theorem take_eq (h : LineOf source offset before line after) :
    source.take offset = before ++ line.take (offset - before.length) := by
  have hle := h.start_le
  have hstop := h.le_stop
  rw [h.parts, List.take_append, List.take_of_length_le hle, List.take_append_of_le_length (by omega)]

theorem notMem_take (h : LineOf source offset before line after) (n : Nat) : 10 ∉ line.take n :=
  fun hmem => h.unbroken (List.mem_of_mem_take hmem)

theorem lineAt_eq (h : LineOf source offset before line after) :
    lineAt source offset = before.count 10 + 1 := by
  rw [lineAt, h.take_eq, List.count_append, List.count_eq_zero.mpr (h.notMem_take _), Nat.add_zero]

theorem columnAt_eq (h : LineOf source offset before line after) :
    columnAt source offset = offset - before.length + 1 := by
  have hstop := h.le_stop
  have hfirst : columnAt before before.length = 1 := by
    obtain rfl | ⟨sooner, rfl⟩ := h.opens
    · rfl
    · simp [columnAt]
  have hgoes := columnAt_append_of_notMem before (h.notMem_take (offset - before.length))
  rw [columnAt, List.take_length] at hgoes
  rw [columnAt, h.take_eq, hgoes, hfirst, List.length_take, Nat.min_eq_left (by omega)]

theorem sourceLine?_eq (h : LineOf source offset before line after) :
    Diagnostic.sourceLine? source (lineAt source offset) = some (Bytes.trimEnd 13 line) := by
  have hindex : ((before.count 10 + 1 : Nat) : Int).toNat - 1 = before.count 10 := by omega
  rw [h.lineAt_eq, Diagnostic.sourceLine?, if_neg (by omega), hindex, h.line_isPiece]
  rfl

theorem getElem?_row (h : LineOf source offset before line after) (margin : Bytes) :
    (margin ++ (line ++ after))[margin.length + (offset - before.length)]? = source[offset]? := by
  have hle := h.start_le
  rw [List.getElem?_append_right (Nat.le_add_right _ _), Nat.add_sub_cancel_left, h.parts,
    List.getElem?_append_right hle]

end LineOf

theorem Bytes.trimEnd_append (mark : UInt8) (text : Bytes) :
    ∃ n, trimEnd mark text ++ List.replicate n mark = text ∧ (trimEnd mark text).getLast? ≠ some mark := by
  have hmarks : text.rtakeWhile (· == mark) =
      List.replicate (text.rtakeWhile (· == mark)).length mark := by
    refine List.eq_replicate_iff.mpr ⟨rfl, fun b hb => ?_⟩
    exact beq_iff_eq.mp (List.mem_rtakeWhile_imp (p := (· == mark)) hb)
  refine ⟨(text.rtakeWhile (· == mark)).length, ?_, ?_⟩
  · rw [← hmarks]
    exact List.rdropWhile_append_rtakeWhile
  · intro hlast
    have hne : text.rdropWhile (· == mark) ≠ [] := by
      intro hnil
      rw [trimEnd, ← List.rdropWhile, hnil] at hlast
      cases hlast
    have hmark : (text.rdropWhile (· == mark)).getLast hne = mark := by
      rw [← Option.some_inj, ← List.getLast?_eq_some_getLast]
      exact hlast
    exact List.rdropWhile_last_not (· == mark) text hne (beq_iff_eq.mpr hmark)

namespace Diagnostic

theorem gutter_length (line : Int) : 2 ≤ (gutter line).length := by
  have hbar : (utf8 " | ").length = 3 := rfl
  rw [gutter, List.length_append, hbar]
  omega

/-- The gutter of the row of carets: without a number. -/
def blankGutter (line : Int) : Bytes := spaces ((gutter line).length - 2) ++ utf8 "| "

theorem blankGutter_length (line : Int) : (blankGutter line).length = (gutter line).length := by
  have hwide := gutter_length line
  have hbar : (utf8 "| ").length = 2 := rfl
  rw [blankGutter, List.length_append, hbar, spaces, List.length_replicate]
  omega

/-- How many bytes of a stretch of the text lie in a place. -/
def overlap (span : Span) (start length : Nat) : Nat :=
  (List.range length).countP fun i => span.start ≤ (start + i : Nat) ∧ (start + i : Nat) < span.stop

theorem overlap_eq {span : Span} {start : Nat} (h : (start : Int) ≤ span.start) (length : Nat) :
    (overlap span start length : Int) =
      max 0 (min ((start + length : Nat) : Int) span.stop - span.start) := by
  induction length with
  | zero =>
    rw [overlap, List.range_zero, List.countP_nil]
    omega
  | succ n ih =>
    have hstep : overlap span start (n + 1) = overlap span start n +
        if span.start ≤ (start + n : Nat) ∧ (start + n : Nat) < span.stop then 1 else 0 := by
      simp only [overlap, List.range_succ, List.countP_append, List.countP_singleton, decide_eq_true_eq]
    rw [hstep]
    split <;> omega

theorem width_eq {source : Bytes} {span : Span} (h : span.IsIn source) (hsource : source.length < 2 ^ 63) :
    width span = span.stop - span.start := by
  have hstart := h.start
  have hordered := h.ordered
  have hstop := h.stop
  exact Int64.toInt_ofInt_of_le (by omega) (by omega)

theorem caretCount_eq {source shown : Bytes} {span : Span} {start : Nat} (h : span.IsIn source)
    (hsource : source.length < 2 ^ 63) (hstart : (start : Int) ≤ span.start)
    (hcolumn : span.column = span.start - start + 1) :
    caretCount span span.column shown = max 1 (overlap span start shown.length) := by
  have hoverlap := overlap_eq hstart shown.length
  rw [caretCount, width_eq h hsource, hcolumn]
  omega

end Diagnostic

/-- A place that comes out of the reading of a text: an error's, or that of a node of the tree. -/
def Span.FromReading (span : Span) (source : Bytes) : Prop :=
  (∃ d, Program.read source = .error d ∧ d.span = span) ∨
    ∃ p, Program.read source = .ok p ∧
      ∃ visit ∈ (Node.program p).walk fun _ => true, visit.node.span = span

theorem Span.FromReading.isIn {span : Span} {source : Bytes} (h : span.FromReading source) :
    span.IsIn source := by
  obtain ⟨d, hread, rfl⟩ | ⟨p, hread, visit, hvisit, rfl⟩ := h
  · exact read_error_place hread
  · obtain ⟨ts, -, hfaithful⟩ := read_is_faithful hread
    exact (hfaithful visit hvisit).place

theorem Span.IsIn.isNowhere_eq_false {span : Span} {source : Bytes} (h : span.IsIn source) :
    span.isNowhere = false := by
  refine beq_eq_false_iff_ne.mpr ?_
  rintro rfl
  have hline : (0 : Int) = lineAt source 0 := h.line
  rw [lineAt] at hline
  omega

theorem Diagnostic.format_of_lineOf {source before line after : Bytes} {d : Diagnostic}
    (h : d.span.IsIn source) (hsource : source.length < 2 ^ 63)
    (hline : LineOf source d.span.start.toNat before line after) (file : Bytes) :
    d.format file source = named file [58] d.text ++
      10 :: (gutter d.span.line ++ Bytes.trimEnd 13 line) ++
      10 :: (blankGutter d.span.line ++ spaces (d.span.start.toNat - before.length) ++
        List.replicate (max 1 (overlap d.span before.length (Bytes.trimEnd 13 line).length)) 94) := by
  have hstart := h.start
  have hle := hline.start_le
  have hcolumn : d.span.column = d.span.start - before.length + 1 := by
    rw [h.column, hline.columnAt_eq]
    omega
  have hindent : (d.span.column - 1).toNat = d.span.start.toNat - before.length := by omega
  have hcarets : caretCount d.span d.span.column (Bytes.trimEnd 13 line) =
      max 1 (overlap d.span before.length (Bytes.trimEnd 13 line).length) :=
    caretCount_eq h hsource (by omega) hcolumn
  rw [format, h.line, hline.sourceLine?_eq, ← h.line]
  simp only [excerpt, max_eq_right (show 1 ≤ d.span.column by omega), hindent, hcarets, blankGutter,
    List.append_assoc, List.cons_append]

/-- The piece at an index; none if the index is out of range. -/
def pieceAt? (pieces : List Bytes) (i : Int) : Option Bytes := if i < 0 then none else pieces[i.toNat]?

/-- A byte so many times; none if that is less than no times. -/
def repeated? (b : UInt8) (count : Int) : Option Bytes :=
  if count < 0 then none else some (List.replicate count.toNat b)

theorem repeated?_eq {b : UInt8} {count : Int} (h : 0 ≤ count) :
    repeated? b count = some (List.replicate count.toNat b) := if_neg (by omega)

/-- A diagnostic is laid out with each index and each count just as it comes out. -/
def Diagnostic.layOut? (file source : Bytes) (d : Diagnostic) : Option Bytes :=
  let head := named file [58] d.text
  let lines := Bytes.splitAt 10 source
  if d.span.line < 1 ∨ lines.length < d.span.line then some head
  else do
    let line ← pieceAt? lines (d.span.line - 1)
    let shown := Bytes.trimEnd 13 line
    let margin := gutter d.span.line
    let column := if d.span.column < 1 then 1 else d.span.column
    let blank ← repeated? 32 (margin.length - 2)
    let indent ← repeated? 32 (column - 1)
    let carets ← repeated? 94 (max 1 (min (width d.span) (shown.length - (column - 1))))
    some (head ++ 10 :: (margin ++ shown) ++ 10 :: (blank ++ utf8 "| " ++ indent ++ carets))

def Failure.layOut? (file source : Bytes) (f : Failure) : Option Bytes :=
  match f.diagnostic? with
  | some d =>
    if d.span.isNowhere then some (Diagnostic.named file (utf8 ": ") f.text) else d.layOut? file source
  | none => some (Diagnostic.named file (utf8 ": ") f.text)

/-- No index and no count in the layout of a diagnostic is ever out of range. -/
theorem Diagnostic.layOut?_eq (file source : Bytes) (d : Diagnostic) :
    d.layOut? file source = some (d.format file source) := by
  rw [layOut?, format, sourceLine?]
  by_cases hline : d.span.line < 1
  · rw [if_pos (.inl hline), if_pos hline, List.append_nil]
  rw [if_neg hline]
  by_cases hlines : (Bytes.splitAt 10 source).length < d.span.line
  · have hnone : (Bytes.splitAt 10 source)[d.span.line.toNat - 1]? = none :=
      List.getElem?_eq_none (by omega)
    rw [if_pos (.inr hlines), hnone, Option.map_none, List.append_nil]
  · have hlt : d.span.line.toNat - 1 < (Bytes.splitAt 10 source).length := by omega
    have hindex : (d.span.line - 1).toNat = d.span.line.toNat - 1 := by omega
    have hpiece : pieceAt? (Bytes.splitAt 10 source) (d.span.line - 1) =
        some (Bytes.splitAt 10 source)[d.span.line.toNat - 1] := by
      rw [pieceAt?, if_neg (by omega), hindex, List.getElem?_eq_getElem hlt]
    have hcolumn : (if d.span.column < 1 then 1 else d.span.column) = max 1 d.span.column := by
      split <;> omega
    have hwide := gutter_length d.span.line
    have hblank : ((gutter d.span.line).length - 2 : Int).toNat = (gutter d.span.line).length - 2 := by omega
    rw [if_neg (by omega), List.getElem?_eq_getElem hlt, hpiece]
    simp only [Option.bind_eq_bind, Option.bind_some, Option.map_some, hcolumn,
      repeated?_eq (show 0 ≤ ((gutter d.span.line).length - 2 : Int) by omega), hblank,
      repeated?_eq (show 0 ≤ max 1 d.span.column - 1 by omega),
      repeated?_eq (Int.le_trans (by decide : (0 : Int) ≤ 1) (le_max_left 1 _)), excerpt, caretCount, spaces,
      List.append_assoc, List.cons_append]

theorem Failure.layOut?_eq (file source : Bytes) (f : Failure) :
    f.layOut? file source = some (f.format file source) := by
  rw [layOut?, format]
  cases f.diagnostic? with
  | none => rfl
  | some d =>
    simp only [Diagnostic.layOut?_eq]
    split <;> rfl

/-- Below its message a failure shows the line of the first byte of a place, less the returns it ends in,
and a row of carets after a margin that is as wide. The first caret stands under that byte, and there are as
many as there are bytes of the place on the line shown, or one if there are none. -/
def Failure.Underlines (f : Failure) (d : Diagnostic) (file source : Bytes) : Prop :=
  let offset := d.span.start.toNat
  let margin := Diagnostic.gutter (lineAt source offset)
  ∃ before line after shown n blank, LineOf source offset before line after ∧
    line = shown ++ List.replicate n 13 ∧ shown.getLast? ≠ some 13 ∧
    blank.length = margin.length ∧ 94 ∉ blank ∧
    (margin ++ (line ++ after))[(blank ++ spaces (offset - before.length)).length]? = source[offset]? ∧
    f.format file source = Diagnostic.named file [58] d.text ++ 10 :: (margin ++ shown) ++
      10 :: (blank ++ spaces (offset - before.length) ++
        List.replicate (max 1 (Diagnostic.overlap d.span before.length shown.length)) 94)

/-- A failure at a place that was read is shown with the line of its first byte, and that byte has the
first of the carets below it. There is a caret for each byte of the place on the line, or one if none is.
Any failure whatsoever can be laid out over any text. -/
theorem failures_underline_their_places (file source : Bytes) :
    (∀ f : Failure, f.layOut? file source = some (f.format file source)) ∧
    (source.length < 2 ^ 63 → ∀ (f : Failure) (d : Diagnostic), f.diagnostic? = some d →
      d.span.FromReading source → f.Underlines d file source) := by
  refine ⟨Failure.layOut?_eq file source, fun hsource f d hd hreading => ?_⟩
  have hplace := hreading.isIn
  have hstop : d.span.start.toNat ≤ source.length := by
    have hordered := hplace.ordered
    have hstop := hplace.stop
    omega
  obtain ⟨before, line, after, hline⟩ := exists_lineOf hstop
  obtain ⟨n, hshown, hlast⟩ := Bytes.trimEnd_append 13 line
  have hblank := Diagnostic.blankGutter_length d.span.line
  refine ⟨before, line, after, Bytes.trimEnd 13 line, n, Diagnostic.blankGutter d.span.line, hline,
    hshown.symm, hlast, ?_, ?_, ?_, ?_⟩
  · rw [← hplace.line, hblank]
  · rw [Diagnostic.blankGutter, List.mem_append, not_or]
    refine ⟨fun hmem => ?_, by decide⟩
    cases List.eq_of_mem_replicate hmem
  · rw [← hplace.line, List.length_append, hblank, spaces, List.length_replicate]
    exact hline.getElem?_row _
  · rw [Failure.format, hd, ← hplace.line]
    simp only [hplace.isNowhere_eq_false, Bool.false_eq_true, if_false]
    exact Diagnostic.format_of_lineOf hplace hsource hline file

/-- A string that is not closed, after a tab and before a carriage return. -/
theorem failures_underline_their_places_twice :
    let source := utf8 "f\n\t\"ab\r\n"
    let d : Diagnostic := ⟨.unterminatedString, ⟨3, 8, 2, 2⟩⟩
    let f : Failure := .wrapped (utf8 "cannot load") (.diagnostic d)
    source.length < 2 ^ 63 ∧ f.diagnostic? = some d ∧ d.span.FromReading source ∧
      f.Underlines d (utf8 "p.ce") source := by
  intro source d f
  have hread : Program.read source = .error d := by
    dsimp only [source, d]
    cbv
  have hreading : d.span.FromReading source := .inl ⟨d, hread, rfl⟩
  have hlength : source.length < 2 ^ 63 := by decide
  exact ⟨hlength, rfl, hreading, (failures_underline_their_places _ source).2 hlength f d rfl hreading⟩

end Stepwise
