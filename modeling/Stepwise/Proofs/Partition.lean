import Stepwise.Proofs.Places
import Stepwise.Proofs.Writing

/-! A scan parts a text into tokens and what stands between them, and loses nothing of it. Where there is
no such partition, the scan stops in front of something that starts none. -/

namespace Stepwise

theorem ClosingTrivia.blank {b : UInt8} {rest : Bytes} (hb : isTriviaByte b) (h : ClosingTrivia rest) :
    ClosingTrivia (b :: rest) := by
  obtain h | ⟨before, comment, hbefore, hcomment, rfl⟩ := h
  · exact .inl (.blank hb h)
  · exact .inr ⟨b :: before, comment, .blank hb hbefore, hcomment, rfl⟩

theorem ClosingTrivia.comment {text rest : Bytes} (htext : 10 ∉ text) (h : ClosingTrivia rest) :
    ClosingTrivia (47 :: 47 :: (text ++ 10 :: rest)) := by
  obtain h | ⟨before, comment, hbefore, hcomment, rfl⟩ := h
  · exact .inl (.comment htext h)
  · exact .inr ⟨47 :: 47 :: (text ++ 10 :: before), comment, .comment htext hbefore, hcomment, by simp⟩

/-- What is skipped is blanks and comments. -/
theorem closingTrivia_trivia (text : Bytes) : ClosingTrivia (trivia false text) := by
  match text with
  | [] => exact .inl .nil
  | [b] =>
    by_cases hb : isTriviaByte b
    · rw [trivia_blank hb]
      exact (closingTrivia_trivia []).blank hb
    · rw [trivia.eq_def]
      simp only [Bool.false_eq_true, if_false, hb]
      exact .inl .nil
  | b :: b' :: rest =>
    by_cases hb : isTriviaByte b
    · rw [trivia_blank hb]
      exact (closingTrivia_trivia (b' :: rest)).blank hb
    by_cases hslashes : b = 47 ∧ b' = 47
    · obtain ⟨rfl, rfl⟩ := hslashes
      rw [trivia_slashes]
      by_cases hline : 10 ∈ rest
      · obtain ⟨comment, more, rfl, hcomment⟩ := List.eq_append_cons_of_mem hline
        rw [trivia_comment hcomment]
        have : more.length < (comment ++ 10 :: more).length := by
          rw [List.length_append, List.length_cons]
          omega
        exact (closingTrivia_trivia more).comment hcomment
      · rw [trivia_open_comment hline]
        exact .inr ⟨[], rest, .nil, hline, rfl⟩
    · rw [trivia.eq_def]
      simp only [Bool.false_eq_true, if_false, hb]
      split
      · next heq =>
        cases heq
        exact absurd ⟨rfl, rfl⟩ hslashes
      · exact .inl .nil
termination_by text.length

theorem length_trivia_true (text : Bytes) (b : UInt8) {comment : Bytes} (h : 10 ∉ comment) :
    comment.length < (trivia true (comment ++ b :: text)).length := by
  induction comment with
  | nil =>
    rw [List.nil_append, trivia_inside]
    exact Nat.succ_pos _
  | cons c comment ih =>
    have hc : (c != 10) = true := bne_iff_ne.mpr fun hc => h (by simp [hc])
    have hlt := ih fun hmem => h (List.mem_cons_of_mem c hmem)
    rw [List.cons_append, trivia_inside, hc, List.length_cons, List.length_cons]
    omega

/-- What is skipped in front of something has all its comments closed. -/
theorem trivia_trivia {text : Bytes} {b : UInt8} {rest : Bytes}
    (h : text.drop (trivia false text).length = b :: rest) : Trivia (trivia false text) := by
  have hsplit : trivia false text ++ b :: rest = text := by
    rw [← h]
    exact List.prefix_iff_eq_append.mp (trivia_isPrefix false text)
  obtain hclosed | ⟨before, comment, hbefore, hcomment, hskipped⟩ := closingTrivia_trivia text
  · exact hclosed
  -- a comment left open would have gone on
  · have hgoes : trivia false text = before ++ 47 :: 47 :: trivia true (comment ++ b :: rest) := by
      conv_lhs => rw [← hsplit, hskipped]
      rw [List.append_assoc, hbefore.append, List.cons_append, List.cons_append, trivia_slashes]
    have hlt := length_trivia_true rest b hcomment
    have hlength := congrArg List.length (hskipped.symm.trans hgoes)
    simp only [List.length_append, List.length_cons] at hlength
    omega

theorem Bounded.of_append {front back : Bytes} (h : Bounded (front ++ back)) : Bounded front := by
  cases front with
  | nil => rfl
  | cons b front => exact h

/-- The token that a text is when it stands after other text. -/
def Token.following (before : Bytes) (kind : TokenKind) (raw : Bytes) : Token :=
  ⟨kind, raw, (Cursor.past before).span (.past (before ++ raw))⟩

/-- Tokens as they lie in a text that stands after other text: trivia and a lexeme by turns, and trivia
at the end. A lexeme is as long as it can be. -/
inductive Laid : Bytes → Bytes → List Token → Prop
  | ending {before gap : Bytes} : ClosingTrivia gap → Laid before gap []
  | token {before gap raw rest : Bytes} {kind : TokenKind} {ts : List Token} :
      Trivia gap → kind ≠ .eof → kind.Spells raw → (kind.isOpenEnded → Bounded rest) →
      Laid (before ++ gap ++ raw) rest ts →
      Laid before (gap ++ (raw ++ rest)) (.following (before ++ gap) kind raw :: ts)

theorem Laid.scan {before text : Bytes} {ts : List Token} (h : Laid before text ts) :
    scanFrom (.past before) text = .ok ⟨ts, .following (before ++ text) .eof []⟩ := by
  induction h with
  | @ending before gap hgap =>
    rw [scanFrom_closing _ hgap, Cursor.advance_past]
    simp only [Tokens.endAt, Token.following, List.append_nil]
  | token hgap hkind hspells hrest _ ih =>
    rw [scanFrom_token _ hgap hkind hspells hrest, Cursor.advance_past, Cursor.advance_past, ih]
    simp only [Except.map, Tokens.push, Token.following, List.append_assoc]

/-- A scan finds the tokens that lie in the text, and the end of input after them. -/
theorem scanFrom_laid (before : Bytes) {text : Bytes} {ts : Tokens}
    (h : scanFrom (.past before) text = .ok ts) :
    Laid before text ts.items ∧ ts.eof = .following (before ++ text) .eof [] := by
  suffices hlaid : Laid before text ts.items by
    have hscan := hlaid.scan
    have hts := Except.ok.inj (h.symm.trans hscan)
    exact ⟨hlaid, by rw [hts]⟩
  generalize hc : Cursor.past before = c at h
  fun_induction scanFrom c text generalizing before ts with
  | case1 c text skipped =>
    rename_i hdrop
    cases h
    have hall : skipped = text := by
      have hsplit := skipped_append text
      rwa [hdrop, List.append_nil] at hsplit
    rw [← hall]
    exact .ending (closingTrivia_trivia text)
  | case2 => cases h
  | case3 c text skipped here b rest hdrop hlt kind raw hlex =>
    rename_i past ih
    obtain ⟨ts', hts', h⟩ := except_bind_eq_ok h
    cases h
    have hhere : here = .past (before ++ skipped) := by rw [← Cursor.advance_past, hc]
    have hpast : past = .past (before ++ skipped ++ raw) := by
      rw [← Cursor.advance_past (before ++ skipped), ← hhere]
    have htext : text = skipped ++ (raw ++ rest.drop (raw.length - 1)) := by
      rw [lexeme_append hlex, ← hdrop]
      exact (skipped_append text).symm
    have hkind : kind ≠ .eof := by
      rintro rfl
      exact lexeme_ne_nil hlex (lexeme_spells hlex)
    rw [Tokens.push, hpast, hhere, htext]
    exact .token (trivia_trivia hdrop) hkind (lexeme_spells hlex) (lexeme_bounded hlex)
      (ih _ hpast.symm hts')

namespace Token

variable {before raw rest source : Bytes} {kind : TokenKind}

theorem following_start : (following before kind raw).span.start = before.length := rfl

theorem following_stop : (following before kind raw).span.stop = (before.length + raw.length : Nat) := by
  rw [← List.length_append]
  rfl

theorem following_isIn (h : before ++ (raw ++ rest) = source) :
    (following before kind raw).span.IsIn source :=
  Cursor.isIn_span before raw ⟨rest, by rw [List.append_assoc, h]⟩

theorem following_text (h : before ++ (raw ++ rest) = source) :
    (following before kind raw).span.text source = raw := by
  have hplace : (following before kind raw).span.IsIn source := following_isIn h
  have hlength : ((following before kind raw).span.stop - (following before kind raw).span.start).toNat =
      raw.length := by
    rw [following_start, following_stop]
    omega
  rw [Span.text, if_pos ⟨hplace.start, hplace.stop, hplace.ordered⟩, hlength, following_start,
    Int.toNat_natCast, ← h, List.drop_left, List.take_left]

theorem following_rest (h : before ++ (raw ++ rest) = source) :
    source.drop (following before kind raw).span.stop.toNat = rest := by
  rw [following_stop, Int.toNat_natCast, ← List.length_append, ← h, ← List.append_assoc, List.drop_left]

end Token

namespace Laid

variable {before text source : Bytes} {ts : List Token}

theorem mem (h : Laid before text ts) {t : Token} (ht : t ∈ ts) :
    ∃ lead rest, before ++ text = lead ++ (t.raw ++ rest) ∧ t = .following lead t.kind t.raw ∧
      before.length ≤ lead.length ∧ t.kind ≠ .eof ∧ t.Spelled ∧ (t.kind.isOpenEnded → Bounded rest) := by
  induction h with
  | ending => cases ht
  | @token before gap raw rest kind ts hgap hkind hspells hrest _ ih =>
    obtain rfl | ht := List.mem_cons.mp ht
    · refine ⟨before ++ gap, rest, by simp [Token.following], rfl, ?_, hkind, hspells, hrest⟩
      rw [List.length_append]
      omega
    · obtain ⟨lead, rest', htext, hfollowing, hle, hends⟩ := ih ht
      refine ⟨lead, rest', by rw [← htext]; simp, hfollowing, ?_, hends⟩
      rw [List.length_append, List.length_append] at hle
      omega

theorem start_le (h : Laid before text ts) {t : Token} (ht : t ∈ ts) :
    (before.length : Int) ≤ t.span.start := by
  obtain ⟨lead, rest, -, hfollowing, hle, -⟩ := h.mem ht
  rw [hfollowing, Token.following_start]
  exact Int.ofNat_le.mpr hle

theorem ordered (h : Laid before text ts) : ts.Pairwise fun t t' => t.span.stop ≤ t'.span.start := by
  induction h with
  | ending => exact .nil
  | @token before gap raw rest kind ts hgap hkind hspells hrest hmore ih =>
    refine List.pairwise_cons.mpr ⟨fun t ht => ?_, ih⟩
    rw [Token.following_stop, ← List.length_append]
    exact hmore.start_le ht

end Laid

/-- The bytes from the stop of one range to the start of another. -/
def between (source : Bytes) (s s' : Span) : Bytes := (source.take s'.start.toNat).drop s.stop.toNat

/-- Between two ranges stand blanks and comments that run to the end of their line, or of the source. -/
def ApartBy (source : Bytes) (s s' : Span) : Prop :=
  s.stop ≤ s'.start ∧ (Trivia (between source s s') ∨
    s'.start = source.length ∧ ClosingTrivia (between source s s'))

theorem between_eq {before gap rest source : Bytes} {s s' : Span} (h : before ++ gap ++ rest = source)
    (hstop : s.stop = before.length) (hstart : s'.start = ((before ++ gap).length : Nat)) :
    between source s s' = gap := by
  rw [← h, between, hstop, hstart, Int.toNat_natCast, Int.toNat_natCast, List.take_left, List.drop_left]

/-- Only trivia stands between the tokens, before them and after them. -/
theorem Laid.apart {before text source : Bytes} {ts : List Token} (h : Laid before text ts)
    (hsource : before ++ text = source) {s : Span} (hstop : s.stop = before.length) :
    ((s :: ts.map Token.span) ++ [(Token.following source .eof []).span]).IsChain (ApartBy source) := by
  induction h generalizing s with
  | @ending before gap hgap =>
    have hbetween : between source s (Token.following source .eof []).span = gap :=
      between_eq (by rw [List.append_nil, hsource]) hstop (by rw [Token.following_start, hsource])
    refine List.isChain_pair.mpr ⟨?_, .inr ⟨Token.following_start, by rwa [hbetween]⟩⟩
    rw [hstop, Token.following_start, ← hsource, List.length_append]
    omega
  | @token before gap raw rest kind ts hgap hkind hspells hrest hmore ih =>
    have hsource' : before ++ gap ++ raw ++ rest = source := by
      rw [← hsource]
      simp only [List.append_assoc]
    have hbetween : between source s (Token.following (before ++ gap) kind raw).span = gap :=
      between_eq (by rw [← hsource', List.append_assoc _ raw]) hstop Token.following_start
    refine List.isChain_cons_cons.mpr ⟨⟨?_, .inl (by rwa [hbetween])⟩, ih hsource' ?_⟩
    · rw [hstop, Token.following_start, List.length_append]
      omega
    · rw [Token.following_stop, ← List.length_append]

/-- The tokens of a text, with nothing left out of it but trivia. -/
structure Tokens.Partition (ts : Tokens) (source : Bytes) : Prop where
  /-- The end of input is the last token, at the end of the text. -/
  eof : ts.eof.kind = .eof ∧ ts.eof.raw = [] ∧ ts.eof.span.start = source.length
  items : ∀ t ∈ ts.items, t.kind ≠ .eof ∧ t.raw ≠ []
  places : ∀ t ∈ ts.toList, t.span.IsIn source ∧ t.span.text source = t.raw
  ordered : ts.toList.Pairwise fun t t' => t.span.stop ≤ t'.span.start
  apart : (.nowhere :: ts.toList.map Token.span).IsChain (ApartBy source)
  /-- No number and no word goes on after its end. -/
  longest : ∀ t ∈ ts.items, t.kind.isOpenEnded → Bounded (source.drop t.span.stop.toNat)

theorem TokenKind.Spells.ne_nil {kind : TokenKind} {raw : Bytes} (hkind : kind ≠ .eof)
    (h : kind.Spells raw) : raw ≠ [] := by
  obtain ⟨first, more, rfl, -⟩ := lexeme_of_spells hkind h fun _ => (rfl : Bounded [])
  exact List.cons_ne_nil first more

theorem Laid.partition {source : Bytes} {ts : List Token} (h : Laid [] source ts) :
    Tokens.Partition ⟨ts, .following source .eof []⟩ source := by
  have hend : source ++ ([] ++ []) = source := List.append_nil source
  have hplaces (t : Token) (ht : t ∈ ts) : t.span.IsIn source ∧ t.span.text source = t.raw := by
    obtain ⟨lead, rest, hsource, hfollowing, -⟩ := h.mem ht
    rw [hfollowing]
    exact ⟨Token.following_isIn hsource.symm, Token.following_text hsource.symm⟩
  refine ⟨⟨rfl, rfl, rfl⟩, fun t ht => ?_, fun t ht => ?_, ?_, ?_, fun t ht hopen => ?_⟩
  · obtain ⟨-, -, -, -, -, hkind, hspells, -⟩ := h.mem ht
    exact ⟨hkind, hspells.ne_nil hkind⟩
  · obtain ht | ht := List.mem_append.mp ht
    · exact hplaces t ht
    · obtain rfl := List.mem_singleton.mp ht
      exact ⟨Token.following_isIn hend, Token.following_text hend⟩
  · refine List.pairwise_append.mpr ⟨h.ordered, List.pairwise_singleton _ _, fun t ht t' ht' => ?_⟩
    obtain rfl := List.mem_singleton.mp ht'
    exact (hplaces t ht).1.stop
  · rw [Tokens.toList, List.map_append]
    exact h.apart rfl rfl
  · obtain ⟨lead, rest, hsource, hfollowing, -, -, -, hrest⟩ := h.mem ht
    have hdrop : source.drop (Token.following lead t.kind t.raw).span.stop.toNat = rest :=
      Token.following_rest hsource.symm
    rw [hfollowing, hdrop]
    exact hrest hopen

/-- What a scan cannot take for a token: a string that is never closed, a number that runs into a name,
or a byte that starts nothing at all. -/
inductive Obstacle : Cause → Bytes → Prop
  | string {inside : Bytes} : 34 ∉ inside → Obstacle .unterminatedString (34 :: inside)
  | number {numeral : Bytes} {b : UInt8} {rest : Bytes} :
      IsNumeral numeral → isDigit b = false → isIdentPart b →
      Obstacle (.malformedNumber (numeral ++ b :: rest.takeWhile isIdentPart)) (numeral ++ b :: rest)
  | byte {b : UInt8} {rest : Bytes} :
      (∀ kind raw, kind ≠ .eof → TokenKind.Spells kind raw → ¬ raw <+: b :: rest) →
      (∀ gap, ClosingTrivia gap → gap <+: b :: rest → gap = []) → Obstacle (.illegalByte b) (b :: rest)

/-- What a lexeme can start with. -/
theorem TokenKind.Spells.starts {kind : TokenKind} (hkind : kind ≠ .eof) {raw : Bytes}
    (h : kind.Spells raw) {first : UInt8} {rest : Bytes} (hraw : raw <+: first :: rest) :
    first = 40 ∨ first = 41 ∨ first = 34 ∨ startsNumber first rest ∨ isIdentStart first := by
  obtain ⟨more, hmore⟩ := hraw
  cases kind with
  | eof => exact absurd rfl hkind
  | lparen =>
    obtain rfl : raw = [40] := h
    exact .inl (List.cons.inj hmore).1.symm
  | rparen =>
    obtain rfl : raw = [41] := h
    exact .inr (.inl (List.cons.inj hmore).1.symm)
  | string =>
    obtain ⟨text, -, rfl⟩ := h
    exact .inr (.inr (.inl (List.cons.inj hmore).1.symm))
  | int =>
    obtain ⟨digits, hne, hall, hraw⟩ := h
    obtain ⟨b, digits, rfl⟩ := List.exists_cons_of_ne_nil hne
    rw [List.all_cons, Bool.and_eq_true] at hall
    refine .inr (.inr (.inr (.inl ?_)))
    obtain rfl | rfl := hraw
    · obtain ⟨rfl, -⟩ := List.cons.inj hmore
      simp [startsNumber, hall.1]
    · obtain ⟨rfl, rfl⟩ := List.cons.inj hmore
      simp [startsNumber, hall.1]
  | ident =>
    cases raw with
    | nil => cases h
    | cons b raw =>
      simp only [TokenKind.Spells, isSymbol, Bool.and_eq_true] at h
      obtain ⟨rfl, -⟩ := List.cons.inj hmore
      exact .inr (.inr (.inr (.inr h.1.1)))
  | keyword k =>
    obtain rfl : raw = k.word := h
    obtain ⟨b, word, hword, hb, -⟩ := k.exists_word
    rw [hword] at hmore
    obtain ⟨rfl, -⟩ := List.cons.inj hmore
    exact .inr (.inr (.inr (.inr hb)))

/-- Where nothing is skipped, no trivia starts. -/
theorem gap_eq_nil {gap text : Bytes} (h : trivia false text = []) (hgap : ClosingTrivia gap)
    (hopens : gap <+: text) : gap = [] := by
  obtain ⟨rest, rfl⟩ := hopens
  obtain hgap | ⟨before, comment, hbefore, -, rfl⟩ := hgap
  · rw [hgap.append] at h
    exact (List.append_eq_nil_iff.mp h).1
  · rw [List.append_assoc, hbefore.append, List.cons_append, List.cons_append, trivia_slashes] at h
    cases (List.append_eq_nil_iff.mp h).2

theorem trivia_drop (text : Bytes) : trivia false (text.drop (trivia false text).length) = [] := by
  cases hdrop : text.drop (trivia false text).length with
  | nil => rfl
  | cons b rest =>
    have htext := skipped_append text
    have happend := (trivia_trivia hdrop).append (text.drop (trivia false text).length)
    rw [htext] at happend
    rw [hdrop] at happend
    exact List.append_right_eq_self.mp happend.symm

theorem lexeme_obstacle {first : UInt8} {rest raw : Bytes} {cause : Cause}
    (h : lexeme first rest = .fault cause raw) (hskip : trivia false (first :: rest) = []) :
    Obstacle cause (first :: rest) := by
  have hfront := lexeme_front first rest
  rw [h] at hfront
  cases hfront with
  | string hquote hinside =>
    rw [hquote]
    exact .string hinside
  | number hnumeral hdigit hpart => exact .number hnumeral hdigit hpart
  | byte hopen hclose hquote hnumber hword =>
    refine .byte (fun kind raw hkind hspells hraw => ?_) fun gap hgap hopens => gap_eq_nil hskip hgap hopens
    obtain hstart | hstart | hstart | hstart | hstart := hspells.starts hkind hraw
    · exact hopen hstart
    · exact hclose hstart
    · exact hquote hstart
    · exact hnumber hstart
    · exact hword hstart

/-- A scan that fails has found tokens up to the thing it stops at. -/
theorem scanFrom_obstacle (before : Bytes) {text : Bytes} {d : Diagnostic}
    (h : scanFrom (.past before) text = .error d) :
    ∃ lead rest ts, text = lead ++ rest ∧ Laid before lead ts ∧ Obstacle d.cause rest ∧
      d.span.start = ((before ++ lead).length : Nat) := by
  generalize hc : Cursor.past before = c at h
  fun_induction scanFrom c text generalizing before with
  | case1 => cases h
  | case2 c text skipped here b rest hdrop hlt cause raw =>
    rename_i hlex
    cases h
    have hhere : here = .past (before ++ skipped) := by rw [← Cursor.advance_past, hc]
    have hskip := trivia_drop text
    rw [hdrop] at hskip
    refine ⟨skipped, b :: rest, [], ?_, .ending (closingTrivia_trivia text), lexeme_obstacle hlex hskip, ?_⟩
    · rw [← hdrop]
      exact (skipped_append text).symm
    · rw [hhere]
      rfl
  | case3 c text skipped here b rest hdrop hlt kind raw hlex =>
    rename_i past ih
    have hhere : here = .past (before ++ skipped) := by rw [← Cursor.advance_past, hc]
    have hpast : past = .past (before ++ skipped ++ raw) := by
      rw [← Cursor.advance_past (before ++ skipped), ← hhere]
    obtain h | ⟨ts', -, h⟩ := except_bind_eq_error h
    swap
    · cases h
    obtain ⟨lead, rest', ts, htext, hlaid, hobstacle, hstart⟩ := ih _ hpast.symm h
    have hkind : kind ≠ .eof := by
      rintro rfl
      exact lexeme_ne_nil hlex (lexeme_spells hlex)
    have hbounded (hopen : kind.isOpenEnded) : Bounded lead := by
      have hrest := lexeme_bounded hlex hopen
      rw [htext] at hrest
      exact hrest.of_append
    refine ⟨skipped ++ (raw ++ lead), rest', _, ?_,
      .token (trivia_trivia hdrop) hkind (lexeme_spells hlex) hbounded hlaid, hobstacle, ?_⟩
    · rw [List.append_assoc, List.append_assoc, ← htext, lexeme_append hlex, ← hdrop]
      exact (skipped_append text).symm
    · rw [hstart]
      simp only [List.append_assoc]

/-- Scanning parts every text: it is cut into its tokens with trivia between them, or it has tokens up to
something that starts neither. -/
theorem scan_parts_text (source : Bytes) :
    match scan source with
    | .ok ts => ts.Partition source
    | .error d => d.span.IsIn source ∧
      (∃ ts, scan (source.take d.span.start.toNat) = .ok ts) ∧
      Obstacle d.cause (source.drop d.span.start.toNat) := by
  cases hscan : scan source with
  | ok ts =>
    obtain ⟨hlaid, heof⟩ := scanFrom_laid [] hscan
    have hpartition := hlaid.partition
    rw [List.nil_append] at heof
    rwa [← heof] at hpartition
  | error d =>
    obtain ⟨lead, rest, ts, rfl, hlaid, hobstacle, hstart⟩ := scanFrom_obstacle [] hscan
    refine ⟨(scanFrom_places [] _ rfl).1 d hscan, ⟨⟨ts, .following lead .eof []⟩, ?_⟩, ?_⟩
    · rw [hstart, Int.toNat_natCast, List.nil_append, List.take_left]
      exact hlaid.scan
    · rw [hstart, Int.toNat_natCast, List.nil_append, List.drop_left]
      exact hobstacle

end Stepwise
