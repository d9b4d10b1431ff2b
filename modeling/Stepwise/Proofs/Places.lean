import Mathlib.Data.List.Infix
import Stepwise.Proofs.Lexical

/-! Where things stand in a source text. Tokens are found from left to right, each at the line and column
that the bytes before it come to; so whatever is wrong with a text is wrong in a place of the text. -/

namespace Stepwise

/-- The line of an offset: one, and one more for every line break before it. -/
def lineAt (source : Bytes) (offset : Nat) : Nat := (source.take offset).count 10 + 1

/-- The column of an offset: one, and one more for every byte since the last line break. -/
def columnAt (source : Bytes) (offset : Nat) : Nat :=
  ((source.take offset).reverse.takeWhile (· != 10)).length + 1

/-- A range of bytes of the source, with the line and column of its start. -/
structure Span.IsIn (s : Span) (source : Bytes) : Prop where
  start : 0 ≤ s.start
  ordered : s.start ≤ s.stop
  stop : s.stop ≤ source.length
  line : s.line = lineAt source s.start.toNat
  column : s.column = columnAt source s.start.toNat

theorem Span.IsIn.through {source : Bytes} {s s' : Span} (h : s.IsIn source) (h' : s'.IsIn source)
    (hle : s.start ≤ s'.stop) : (s.through s').IsIn source :=
  ⟨h.start, hle, h'.stop, h.line, h.column⟩

namespace Cursor

/-- The place that the bytes before it come to. -/
def past (before : Bytes) : Cursor :=
  ⟨before.length, lineAt before before.length, columnAt before before.length⟩

theorem past_eq (before : Bytes) : past before =
    ⟨before.length, before.count 10 + 1, (before.reverse.takeWhile (· != 10)).length + 1⟩ := by
  simp only [past, lineAt, columnAt, List.take_length]

theorem next_past (before : Bytes) (b : UInt8) : (past before).next b = past (before ++ [b]) := by
  rw [past_eq, past_eq, next]
  by_cases hb : b = 10
  · simp [hb]
  · simp [hb]

theorem advance_past (before bytes : Bytes) : (past before).advance bytes = past (before ++ bytes) := by
  induction bytes generalizing before with
  | nil => rw [List.append_nil]; rfl
  | cons b bytes ih =>
    have hfold : (past before).advance (b :: bytes) = ((past before).next b).advance bytes := rfl
    rw [hfold, next_past, ih, List.append_assoc, List.singleton_append]

theorem isIn_span {source : Bytes} (before covered : Bytes) (h : before ++ covered <+: source) :
    ((past before).span (past (before ++ covered))).IsIn source := by
  have hbefore : before <+: source := (List.prefix_append before covered).trans h
  have htake : source.take before.length = before := (List.prefix_iff_eq_take.mp hbefore).symm
  have hstop : (before ++ covered).length ≤ source.length := h.length_le
  rw [List.length_append] at hstop
  constructor
  case start => exact Int.natCast_nonneg _
  case ordered =>
    simp only [span, past, List.length_append]
    omega
  case stop =>
    simp only [span, past, List.length_append]
    omega
  case line => simp only [span, past, lineAt, Int.toNat_natCast, htake, List.take_length]
  case column => simp only [span, past, columnAt, Int.toNat_natCast, htake, List.take_length]

end Cursor

theorem trivia_isPrefix (inComment : Bool) (text : Bytes) : trivia inComment text <+: text := by
  fun_induction trivia inComment text with
  | case1 | case5 => exact List.nil_prefix
  | case2 | case3 =>
    rename_i ih
    exact List.cons_prefix_cons.mpr ⟨rfl, ih⟩
  | case4 =>
    rename_i ih
    exact List.cons_prefix_cons.mpr ⟨rfl, List.cons_prefix_cons.mpr ⟨rfl, ih⟩⟩

theorem skipped_append (text : Bytes) :
    trivia false text ++ text.drop (trivia false text).length = text :=
  List.prefix_iff_eq_append.mp (trivia_isPrefix false text)

section Scan

variable {source : Bytes}

/-- From a place in the source on, tokens stand in the source and one after another, and so does
whatever is none. -/
theorem scanFrom_places (before text : Bytes) (hsource : before ++ text = source) :
    (∀ d, scanFrom (.past before) text = .error d → d.span.IsIn source) ∧
    ∀ ts, scanFrom (.past before) text = .ok ts →
      (∀ t ∈ ts.toList, t.span.IsIn source ∧ (before.length : Int) ≤ t.span.start) ∧
      ts.toList.Pairwise fun t t' => t.span.start ≤ t'.span.stop := by
  -- on the tokens that are left; the text before the cursor grows by each of them
  generalize hc : Cursor.past before = c
  fun_induction scanFrom c text generalizing before with
  | case1 c text skipped here hdrop =>
    have hhere : here = .past (before ++ skipped) := by rw [← Cursor.advance_past, hc]
    have hplace : (here.span here).IsIn source := by
      have hcovered : before ++ skipped ++ [] <+: source := by
        rw [List.append_nil, ← hsource, ← skipped_append text, ← List.append_assoc]
        exact List.prefix_append _ _
      simpa only [hhere, List.append_nil] using Cursor.isIn_span (before ++ skipped) [] hcovered
    have hstart : (before.length : Int) ≤ (here.span here).start := by
      simp only [hhere, Cursor.span, Cursor.past, List.length_append]
      omega
    refine ⟨by rintro _ ⟨⟩, ?_⟩
    rintro _ ⟨⟩
    refine ⟨fun t ht => ?_, List.pairwise_singleton _ _⟩
    obtain rfl := List.mem_singleton.mp ht
    exact ⟨hplace, hstart⟩
  | case2 c text skipped here b rest hdrop hlt cause raw hlex =>
    have hhere : here = .past (before ++ skipped) := by rw [← Cursor.advance_past, hc]
    have hraw : raw <+: b :: rest := by
      have hlexeme := lexeme_isPrefix b rest
      rwa [hlex] at hlexeme
    have hcovered : before ++ skipped ++ raw <+: source := by
      obtain ⟨more, hmore⟩ := hraw
      refine ⟨more, ?_⟩
      rw [List.append_assoc, hmore, ← hdrop, List.append_assoc, skipped_append, hsource]
    have hplace := Cursor.isIn_span (before ++ skipped) raw hcovered
    rw [← Cursor.advance_past (before ++ skipped), ← hhere] at hplace
    refine ⟨?_, by rintro _ ⟨⟩⟩
    rintro _ ⟨⟩
    exact hplace
  | case3 c text skipped here b rest hdrop hlt kind raw hlex past ih =>
    have hhere : here = .past (before ++ skipped) := by rw [← Cursor.advance_past, hc]
    have hpast : past = .past (before ++ skipped ++ raw) := by
      rw [← Cursor.advance_past (before ++ skipped), ← hhere]
    have hcovered : before ++ skipped ++ raw ++ rest.drop (raw.length - 1) = source := by
      rw [List.append_assoc, lexeme_append hlex, ← hdrop, List.append_assoc, skipped_append, hsource]
    have hplace := Cursor.isIn_span (before ++ skipped) raw ⟨_, hcovered⟩
    rw [← hpast, ← hhere] at hplace
    obtain ⟨herror, hok⟩ := ih _ hcovered hpast.symm
    refine ⟨fun d hd => ?_, fun ts hts => ?_⟩
    · obtain hd | ⟨ts, -, hd⟩ := except_bind_eq_error hd
      · exact herror d hd
      · cases hd
    · obtain ⟨ts', hts', hts⟩ := except_bind_eq_ok hts
      cases hts
      obtain ⟨hplaced, hsorted⟩ := hok ts' hts'
      have hstart : (here.span past).start = before.length + skipped.length := by
        simp only [hhere, Cursor.span, Cursor.past, List.length_append, Nat.cast_add]
      have hlater (t : Token) (ht : t ∈ ts'.toList) : (here.span past).start ≤ t.span.start := by
        have hle := (hplaced t ht).2
        rw [List.length_append, List.length_append] at hle
        omega
      refine ⟨fun t ht => ?_, List.pairwise_cons.mpr ⟨fun t ht => ?_, hsorted⟩⟩
      · have hbefore : (before.length : Int) ≤ (here.span past).start := by omega
        obtain rfl | ht := List.mem_cons.mp ht
        · exact ⟨hplace, hbefore⟩
        · have hle := hlater t ht
          exact ⟨(hplaced t ht).1, hbefore.trans hle⟩
      · exact (hlater t ht).trans (hplaced t ht).1.ordered

theorem scan_places {ts : Tokens} (h : scan source = .ok ts) :
    Lexed (·.IsIn source) ts.eof ts.items := by
  obtain ⟨hplaced, hsorted⟩ := (scanFrom_places [] source rfl).2 ts h
  refine ⟨scanFrom_symbols .origin source h, fun t ht => (hplaced t ht).1, ?_⟩
  refine hsorted.imp_of_mem fun ht ht' hle => ?_
  exact (hplaced _ ht).1.through (hplaced _ ht').1 hle

/-- What is wrong with a text is wrong in a place of it. -/
theorem read_error_place {d : Diagnostic} (h : Program.read source = .error d) :
    d.span.IsIn source := by
  obtain hscan | ⟨-, hplace⟩ := read_error (fun _ => scan_places) h
  · exact (scanFrom_places [] source rfl).1 d hscan
  · exact hplace

end Scan

end Stepwise
