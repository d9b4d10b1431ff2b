import Mathlib.Tactic.Common
import Stepwise.Proofs.Prospects
import Stepwise.Proofs.Symbols
import Stepwise.Store

/-! Integers in texts. The numbers of a program are those that its integer tokens stand for, with just the
values that their digits have. Where one integer can stand another one can, unless no machine word holds
it: then it is what is wrong with the text. -/

namespace Stepwise

/-- The place and the value of a number. -/
def Visit.number? (v : Visit) : Option (Span × Int) :=
  match v.node with
  | .expr (.number span n) => some (span, n.toInt)
  | _ => none

/-- The place of an integer token and what its digits stand for. -/
def Token.number? (t : Token) : Option (Span × Int) :=
  if t.kind = .int then some (t.span, numeralValue t.raw) else none

/-- The numbers of a program in the order of a walk. -/
def Program.numbers (p : Program) : List (Span × Int) :=
  ((Node.program p).walk fun _ => true).filterMap Visit.number?

section Numbers

variable (depth : Nat)

theorem TokenOf.number?_eq_none {kind : TokenKind} (t : TokenOf kind) (h : kind ≠ .int) :
    t.token.number? = none :=
  if_neg (by rwa [t.kind_eq])

theorem numbers_enter (n : Node) (below : List Visit) :
    (Visit.enter (fun _ => true) depth n below).filterMap Visit.number? =
      (Visit.number? ⟨depth, n⟩).toList ++ below.filterMap Visit.number? := by
  rw [Visit.enter, if_pos rfl, List.filterMap_cons]
  cases Visit.number? ⟨depth, n⟩ <;> rfl

theorem Atom.number?_tree (a : Atom) (ha : a.Admissible) :
    (Visit.expr (fun _ => true) depth a.tree).filterMap Visit.number? =
      [a.token].filterMap Token.number? := by
  cases a with
  | number t =>
    have hvalue : (Int64.ofInt (numeralValue t.token.raw)).toInt = numeralValue t.token.raw := by
      have hfits : Decimal.fitsInt64 (numeralValue t.token.raw) := ha
      rw [Decimal.fitsInt64, Bool.and_eq_true, decide_eq_true_eq, decide_eq_true_eq] at hfits
      exact Int64.toInt_ofInt_of_le hfits.1 hfits.2
    simp [Atom.tree, Visit.expr, numbers_enter, Visit.number?, Atom.token, Token.number?, t.kind_eq, hvalue]
  | string t | yes t | no t | null t | symbol t | forever t =>
    simp [Atom.tree, Visit.expr, numbers_enter, Visit.number?, Atom.token, t.number?_eq_none]

theorem numbers_symbols (symbols : List Symbol) :
    (Visit.symbols (fun _ => true) depth symbols).filterMap Visit.number? = [] := by
  simp [Visit.symbols, Visit.enter, Visit.number?, List.filterMap_flatMap]

mutual

theorem ExprPhrase.numbers_tree (d : ExprPhrase) (hd : d.Admissible) (depth : Nat) :
    (Visit.expr (fun _ => true) depth d.tree).filterMap Visit.number? = d.tokens.filterMap Token.number? := by
  cases d with
  | atom a => exact a.number?_tree depth hd
  | call opener callee args close =>
    simp [ExprPhrase.tree, Visit.expr, numbers_enter, Visit.number?, ExprPhrase.tokens,
      TokenOf.number?_eq_none, ExprPhrase.numbers_tree callee hd.1, ExprPhrase.numbers_trees args hd.2]
  | function word opener params close body stop =>
    simp [ExprPhrase.tree, Visit.expr, Visit.params?, Visit.params, numbers_enter, Visit.number?,
      ExprPhrase.tokens, TokenOf.number?_eq_none, numbers_symbols, blockBefore, Visit.block,
      StmtPhrase.numbers_trees body hd.2]
termination_by structural d

theorem ExprPhrase.numbers_trees (ds : List ExprPhrase) (hds : ExprPhrase.AllAdmissible ds) (depth : Nat) :
    (Visit.exprs (fun _ => true) depth (ExprPhrase.trees ds)).filterMap Visit.number? =
      (ExprPhrase.tokensOf ds).filterMap Token.number? := by
  cases ds with
  | nil => rfl
  | cons d ds =>
    simp [ExprPhrase.trees, Visit.exprs, ExprPhrase.tokensOf, ExprPhrase.numbers_tree d hds.1,
      ExprPhrase.numbers_trees ds hds.2]
termination_by structural ds

theorem StmtPhrase.numbers_tree (d : StmtPhrase) (hd : d.Admissible) (depth : Nat) :
    (Visit.stmt (fun _ => true) depth d.tree).filterMap Visit.number? = d.tokens.filterMap Token.number? := by
  cases d with
  | set word target value stop =>
    simp [StmtPhrase.tree, Visit.stmt, numbers_enter, Visit.number?, StmtPhrase.tokens,
      TokenOf.number?_eq_none, numbers_symbols, ExprPhrase.numbers_tree value hd]
  | branch word condition body stop =>
    simp [StmtPhrase.tree, Visit.stmt, numbers_enter, Visit.number?, StmtPhrase.tokens,
      TokenOf.number?_eq_none, blockBefore, Visit.block, ExprPhrase.numbers_tree condition hd.1,
      StmtPhrase.numbers_trees body hd.2]
  | branchElse word condition thenBody middle elseBody stop =>
    simp [StmtPhrase.tree, Visit.stmt, numbers_enter, Visit.number?, StmtPhrase.tokens,
      TokenOf.number?_eq_none, blockBefore, Visit.block, ExprPhrase.numbers_tree condition hd.1,
      StmtPhrase.numbers_trees thenBody hd.2.1, StmtPhrase.numbers_trees elseBody hd.2.2]
  | times word count body stop =>
    simp [StmtPhrase.tree, Visit.stmt, numbers_enter, Visit.number?, StmtPhrase.tokens,
      TokenOf.number?_eq_none, blockBefore, Visit.block, ExprPhrase.numbers_tree count hd.1,
      StmtPhrase.numbers_trees body hd.2]
  | forever word body stop =>
    simp [StmtPhrase.tree, Visit.stmt, Visit.expr, numbers_enter, Visit.number?, StmtPhrase.tokens,
      TokenOf.number?_eq_none, blockBefore, Visit.block, StmtPhrase.numbers_trees body hd]
  | call opener callee args close =>
    simp [StmtPhrase.tree, Visit.stmt, numbers_enter, Visit.number?, StmtPhrase.tokens,
      TokenOf.number?_eq_none, ExprPhrase.numbers_tree callee hd.1, ExprPhrase.numbers_trees args hd.2]
termination_by structural d

theorem StmtPhrase.numbers_trees (ds : List StmtPhrase) (hds : StmtPhrase.AllAdmissible ds) (depth : Nat) :
    (Visit.stmts (fun _ => true) depth (StmtPhrase.trees ds)).filterMap Visit.number? =
      (StmtPhrase.tokensOf ds).filterMap Token.number? := by
  cases ds with
  | nil => rfl
  | cons d ds =>
    simp [StmtPhrase.trees, Visit.stmts, StmtPhrase.tokensOf, StmtPhrase.numbers_tree d hds.1,
      StmtPhrase.numbers_trees ds hds.2]
termination_by structural ds

end

/-- A program has the numbers of its integer tokens and no others, none of them wrapped. -/
theorem Program.numbers_eq {source : Bytes} {ts : Tokens} {p : Program} (hscan : scan source = .ok ts)
    (h : Program.read source = .ok p) : p.numbers = ts.items.filterMap Token.number? := by
  obtain ⟨ts', body, hscan', htokens, hbody, rfl⟩ := Program.read_derives h
  cases hscan.symm.trans hscan'
  have hwalk : (Node.program (.ofPhrases ts.eof body)).walk (fun _ => true) =
      ⟨0, .program (.ofPhrases ts.eof body)⟩ :: Visit.stmts (fun _ => true) 1 (StmtPhrase.trees body) := rfl
  rw [numbers, hwalk, List.filterMap_cons_none rfl, StmtPhrase.numbers_trees body hbody, htokens]

end Numbers

section Places

variable {before text raw rest : Bytes} {t : Token} {ts us vs : List Token}

/-- A numeral starts with a byte that a word or a number can go on with. -/
theorem IsNumeral.not_bounded (h : IsNumeral raw) (rest : Bytes) : ¬ Bounded (raw ++ rest) := by
  obtain ⟨digits, hne, hall, rfl | rfl⟩ := h
  · obtain ⟨b, digits, rfl⟩ := List.exists_cons_of_ne_nil hne
    rw [List.all_cons, Bool.and_eq_true] at hall
    simp [Bounded, isIdentPart_of_isDigit hall.1]
  · simp [Bounded, isIdentPart]

/-- The same text in another place has the same tokens, but for their places. -/
theorem Laid.elsewhere (h : Laid before text ts) (before' : Bytes) :
    ∃ ts', Laid before' text ts' ∧ ts'.map Token.bare = ts.map Token.bare := by
  induction h generalizing before' with
  | ending hgap => exact ⟨[], .ending hgap, rfl⟩
  | @token before gap raw rest kind ts hgap hkind hspells hrest _ ih =>
    obtain ⟨ts', hlaid, hbare⟩ := ih (before' ++ gap ++ raw)
    exact ⟨_, .token hgap hkind hspells hrest hlaid, by rw [List.map_cons, List.map_cons, hbare]; rfl⟩

/-- Any numeral can stand in the place of an integer token, with no effect on the other tokens. -/
theorem Laid.replace (h : Laid before text (us ++ t :: vs)) (ht : t.kind = .int) :
    ∃ lead rest, text = lead ++ (t.raw ++ rest) ∧ t = .following (before ++ lead) .int t.raw ∧
      ∀ raw, IsNumeral raw → ∃ vs', vs'.map Token.bare = vs.map Token.bare ∧
        Laid before (lead ++ (raw ++ rest)) (us ++ .following (before ++ lead) .int raw :: vs') := by
  induction us generalizing before text with
  | nil =>
    cases h with
    | @token before gap old rest kind _ hgap hkind hspells hrest hmore =>
      obtain rfl : kind = .int := ht
      refine ⟨gap, rest, rfl, rfl, fun raw hraw => ?_⟩
      obtain ⟨vs', hlaid, hbare⟩ := hmore.elsewhere (before ++ gap ++ raw)
      exact ⟨vs', hbare, .token hgap hkind hraw hrest hlaid⟩
  | cons u us ih =>
    cases h with
    | @token before gap old rest kind _ hgap hkind hspells hrest hmore =>
      obtain ⟨lead, rest', rfl, hplace, hreplace⟩ := ih hmore
      have hold : IsNumeral t.raw := by
        obtain ⟨-, -, -, -, -, -, hspelled, -⟩ := hmore.mem (List.mem_append_right us List.mem_cons_self)
        rwa [Token.Spelled, ht] at hspelled
      refine ⟨gap ++ (old ++ lead), rest', by simp, by rw [hplace]; simp [Token.following],
        fun raw hraw => ?_⟩
      obtain ⟨vs', hbare, hlaid⟩ := hreplace raw hraw
      -- a word right before the numeral would have taken in its first byte
      have hbounded (hopen : kind.isOpenEnded) : Bounded (lead ++ (raw ++ rest')) := by
        cases lead with
        | nil => exact absurd (hrest hopen) (hold.not_bounded rest')
        | cons b lead => exact hrest hopen
      have hlaid' := Laid.token hgap hkind hspells hbounded hlaid
      exact ⟨vs', hbare, by simpa using hlaid'⟩

end Places

namespace Goal

variable {t t' : Token} {g : Goal} {new : Agenda}

theorem ofExpr_int (hkind : t.kind = .int) (hraw : IsNumeral t.raw) : ofExpr t =
    if Decimal.fitsInt64 (numeralValue t.raw) then .ok [] else fault (.integerRange t.raw) t := by
  simp only [ofExpr, hkind, readWord?_of_isNumeral hraw]
  split_ifs <;> rfl

/-- What one integer leaves to look for another one does, unless it is out of range. -/
theorem take_int (hkind : t.kind = .int) (h : g.take t = .ok new) (hkind' : t'.kind = .int)
    (hraw' : IsNumeral t'.raw) : g.take t' =
      if Decimal.fitsInt64 (numeralValue t'.raw) then .ok new else fault (.integerRange t'.raw) t' := by
  have hnew {more : Agenda} (hmore : ofExpr t = .ok more) : more = [] := by
    simp only [ofExpr, hkind] at hmore
    split at hmore <;> cases hmore
    rfl
  have hne : t.kind ≠ .rparen := by simp [hkind]
  have hne' : t'.kind ≠ .rparen := by simp [hkind']
  cases g with
  | expr =>
    rw [hnew h]
    exact ofExpr_int hkind' hraw'
  | callee opener =>
    rw [take, if_neg hne] at h
    rw [take, if_neg hne', hnew h]
    exact ofExpr_int hkind' hraw'
  | args opener =>
    rw [take, if_neg hne] at h
    rw [take, if_neg hne', ofExpr_int hkind' hraw']
    cases hmore : ofExpr t with
    | error d =>
      rw [hmore] at h
      cases h
    | ok more =>
      rw [hmore, hnew hmore] at h
      cases h
      split_ifs <;> rfl
  | program | body opener elseAllowed | stmt | target | setEnd | paramsOpen | params opener seen =>
    simp [take, ofStmt, hkind, fault, Except.map] at h

end Goal

section Read

variable {source : Bytes} {ts : Tokens} {us vs : List Token} {t u : Token}

/-- An integer that no machine word holds ends the reading where another integer could stand. -/
theorem read_integerRange (hscan : scan source = .ok ts) (hitems : ts.items = us ++ t :: vs)
    (hkind : t.kind = .int) (hraw : IsNumeral t.raw) (hfits : Decimal.fitsInt64 (numeralValue t.raw) = false)
    (hu : u.kind = .int) {gs : Agenda} (hgs : Agenda.after [.program] (us ++ [u]) = .ok gs) :
    Program.read source = .error ⟨.integerRange t.raw, t.span⟩ := by
  obtain ⟨g, later, new, hbefore, hnew, -⟩ := Agenda.after_concat hgs
  have htake : g.take t = fault (.integerRange t.raw) t := by
    rw [Goal.take_int hu hnew hkind hraw, hfits]
    rfl
  have hpursue : Agenda.pursue ts.eof [.program] ts.items = .error ⟨.integerRange t.raw, t.span⟩ := by
    rw [hitems, Agenda.pursue, Agenda.after_append, hbefore]
    change Agenda.pursue ts.eof (g :: later) (t :: vs) = _
    exact Agenda.pursue_error htake vs
  rw [Program.read_pursues hscan (scan_eof_kind hscan)] at hpursue
  cases hread : Program.read source with
  | ok p =>
    rw [hread] at hpursue
    cases hpursue
  | error d =>
    rw [hread] at hpursue
    exact congrArg Except.error (Except.error.inj hpursue)

/-- An integer that a machine word holds can stand where another one does. -/
theorem after_replaced (h : Agenda.after [.program] (us ++ u :: vs) = .ok [.program]) (hu : u.kind = .int)
    (hkind : t.kind = .int) (hraw : IsNumeral t.raw) (hfits : Decimal.fitsInt64 (numeralValue t.raw)) :
    Agenda.after [.program] (us ++ t :: vs) = .ok [.program] := by
  rw [Agenda.after_append] at h ⊢
  obtain ⟨gs, hgs, h⟩ := except_bind_eq_ok h
  rw [hgs]
  cases gs with
  | nil => cases h
  | cons g later =>
    obtain ⟨new, hnew, h⟩ := except_bind_eq_ok h
    change Agenda.after (g :: later) (t :: vs) = _
    rw [Agenda.after_cons, Goal.take_int hu hnew hkind hraw, if_pos hfits]
    exact h

end Read

/-- With some integer between them, two pieces of text are a program. -/
def TakesInteger (before after : Bytes) : Prop :=
  ∃ raw ts p, scan (before ++ (raw ++ after)) = .ok ts ∧ .following before .int raw ∈ ts.items ∧
    Program.read (before ++ (raw ++ after)) = .ok p

theorem TakesInteger.read {before after : Bytes} (h : TakesInteger before after) {raw : Bytes}
    (hraw : IsNumeral raw) :
    if Decimal.fitsInt64 (numeralValue raw) then ∃ p, Program.read (before ++ (raw ++ after)) = .ok p ∧
      ((Token.following before .int raw).span, numeralValue raw) ∈ p.numbers
    else Program.read (before ++ (raw ++ after)) =
      .error ⟨.integerRange raw, (Token.following before .int raw).span⟩ := by
  obtain ⟨old, ts, p, hscan, hmem, hread⟩ := h
  obtain ⟨us, vs, hitems⟩ := List.append_of_mem hmem
  have hlaid := (scanFrom_laid [] hscan).1
  rw [hitems] at hlaid
  obtain ⟨lead, rest, htext, hplace, hreplace⟩ := hlaid.replace rfl
  -- a token has one place only
  have hlength : before.length = lead.length := by
    have hstart := congrArg (fun t => t.span.start) hplace
    simp only [Token.following_start] at hstart
    exact Int.ofNat_inj.mp hstart
  obtain ⟨rfl, hrest⟩ := List.append_inj htext hlength
  obtain rfl := List.append_cancel_left hrest
  obtain ⟨vs', hbare, hlaid'⟩ := hreplace raw hraw
  have hscan' : scan (before ++ (raw ++ after)) =
      .ok ⟨us ++ .following before .int raw :: vs', .following (before ++ (raw ++ after)) .eof []⟩ :=
    hlaid'.scan
  have hafter := (read_ok_iff hscan).mp ⟨p, hread⟩
  rw [hitems] at hafter
  split_ifs with hfits
  · have hreplaced := after_replaced (t := .following before .int raw) hafter rfl rfl hraw hfits
    have hbare' : (us ++ .following before .int raw :: vs).map Token.bare =
        (us ++ .following before .int raw :: vs').map Token.bare := by simp [hbare]
    have hafter' := after_of_map_bare hbare' hreplaced
    obtain ⟨p', hread'⟩ := (read_ok_iff hscan').mpr hafter'
    refine ⟨p', hread', ?_⟩
    rw [Program.numbers_eq hscan' hread']
    exact List.mem_filterMap.mpr ⟨.following before .int raw,
      List.mem_append_right us List.mem_cons_self, rfl⟩
  · have hbefore : ∃ gs, Agenda.after [.program] (us ++ [.following before .int old]) = .ok gs := by
      rw [List.append_cons, Agenda.after_append] at hafter
      obtain ⟨gs, hgs, -⟩ := except_bind_eq_ok hafter
      exact ⟨gs, hgs⟩
    obtain ⟨gs, hgs⟩ := hbefore
    exact read_integerRange hscan' rfl rfl hraw (Bool.not_eq_true _ ▸ hfits) rfl hgs

theorem scan_numeral {raw : Bytes} (h : IsNumeral raw) :
    (scan raw).map Tokens.toList = .ok [.following [] .int raw, .following raw .eof []] := by
  have hlaid : Laid [] (raw ++ []) [.following [] .int raw] :=
    .next (by decide) h (fun _ => rfl) (laid_nil raw)
  rw [List.append_nil] at hlaid
  have hscan : scan raw = .ok ⟨[.following [] .int raw], .following raw .eof []⟩ := hlaid.scan
  rw [hscan]
  rfl

/-- The text that is printed for an integer is one token, and where a program can have an integer it stands
for that integer again. All integers of a program that can be read have the values of their digits. In the
place of one of them any numeral is read as the number that it stands for if a machine word can hold it;
if not, the text is refused because of that numeral, and so is any text in which such a numeral comes where
an integer can stand. -/
theorem integers_are_read_exactly :
    (∀ (s : Store) (n : Int64),
      (scan (s.text (.integer n))).map Tokens.toList =
        .ok [.following [] .int (s.text (.integer n)), .following (s.text (.integer n)) .eof []] ∧
      ∀ before after, TakesInteger before after →
        ∃ p, Program.read (before ++ (s.text (.integer n) ++ after)) = .ok p ∧
          ((Token.following before .int (s.text (.integer n))).span, n.toInt) ∈ p.numbers) ∧
    (∀ source ts p, scan source = .ok ts → Program.read source = .ok p →
      p.numbers = ts.items.filterMap Token.number?) ∧
    (∀ before after, TakesInteger before after → ∀ raw, IsNumeral raw →
      if Decimal.fitsInt64 (numeralValue raw) then ∃ p, Program.read (before ++ (raw ++ after)) = .ok p ∧
        ((Token.following before .int raw).span, numeralValue raw) ∈ p.numbers
      else Program.read (before ++ (raw ++ after)) =
        .error ⟨.integerRange raw, (Token.following before .int raw).span⟩) ∧
    ∀ source ts us t vs, scan source = .ok ts → ts.items = us ++ t :: vs → t.kind = .int →
      Decimal.fitsInt64 (numeralValue t.raw) = false → Viable (us ++ [⟨.int, utf8 "0", .nowhere⟩]) →
        Program.read source = .error ⟨.integerRange t.raw, t.span⟩ := by
  refine ⟨fun s n => ⟨scan_numeral (isNumeral_ofInt n.toInt), fun before after h => ?_⟩,
    fun source ts p => Program.numbers_eq, fun before after h raw => h.read,
    fun source ts us t vs hscan hitems hkind hfits hviable => ?_⟩
  · have hread := h.read (isNumeral_ofInt n.toInt)
    rwa [numeralValue_ofInt, if_pos (fitsInt64_toInt n)] at hread
  · have hwritten := scan_isWritten hscan
    rw [hitems, List.forall_mem_append, List.forall_mem_cons] at hwritten
    have hraw : IsNumeral t.raw := by
      have hspelled := hwritten.2.1.2
      rwa [Token.Spelled, hkind] at hspelled
    have hzero : Token.IsWritten ⟨.int, utf8 "0", .nowhere⟩ :=
      ⟨by simp, utf8 "0", by decide, by decide, .inl rfl⟩
    obtain ⟨gs, hgs⟩ := (viable_iff (List.forall_mem_append.mpr
      ⟨hwritten.1, List.forall_mem_singleton.mpr hzero⟩)).mp hviable
    exact read_integerRange hscan hitems hkind hraw hfits rfl hgs

theorem scan_setZero : scan (utf8 "set x " ++ (utf8 "0" ++ utf8 " end")) =
    .ok ⟨[⟨.keyword .set, utf8 "set", ⟨0, 3, 1, 1⟩⟩, ⟨.ident, utf8 "x", ⟨4, 5, 1, 5⟩⟩,
      ⟨.int, utf8 "0", ⟨6, 7, 1, 7⟩⟩, ⟨.keyword .endWord, utf8 "end", ⟨8, 11, 1, 9⟩⟩],
      ⟨.eof, [], ⟨11, 11, 1, 12⟩⟩⟩ := by
  cbv

theorem takesInteger_set : TakesInteger (utf8 "set x ") (utf8 " end") := by
  obtain ⟨p, hread⟩ := (read_ok_iff scan_setZero).mpr rfl
  exact ⟨utf8 "0", _, p, scan_setZero, by decide, hread⟩

/-- The least integer as it is printed, the greatest one with leading zeros, the one after it, and the one
before the least in a text that is no program anyway. -/
theorem integers_are_read_exactly_at_limits :
    (∃ p, Program.read (utf8 "set x -9223372036854775808 end") = .ok p ∧
      (⟨6, 26, 1, 7⟩, -9223372036854775808) ∈ p.numbers) ∧
    (∃ p, Program.read (utf8 "set x 0009223372036854775807 end") = .ok p ∧
      (⟨6, 28, 1, 7⟩, 9223372036854775807) ∈ p.numbers) ∧
    Program.read (utf8 "set x 9223372036854775808 end") =
      .error ⟨.integerRange (utf8 "9223372036854775808"), ⟨6, 25, 1, 7⟩⟩ ∧
    Program.read (utf8 "set x -9223372036854775809 set") =
      .error ⟨.integerRange (utf8 "-9223372036854775809"), ⟨6, 26, 1, 7⟩⟩ := by
  refine ⟨?_, ?_, ?_, ?_⟩
  · have htext : Store.empty.text (.integer Int64.minValue) = utf8 "-9223372036854775808" := by cbv
    have hread := (integers_are_read_exactly.1 .empty Int64.minValue).2 _ _ takesInteger_set
    rw [htext] at hread
    exact hread
  · exact integers_are_read_exactly.2.2.1 _ _ takesInteger_set (utf8 "0009223372036854775807")
      ⟨_, by decide, by decide, .inl rfl⟩
  · exact integers_are_read_exactly.2.2.1 _ _ takesInteger_set (utf8 "9223372036854775808")
      ⟨_, by decide, by decide, .inl rfl⟩
  · have hscan : scan (utf8 "set x -9223372036854775809 set") =
        .ok ⟨[⟨.keyword .set, utf8 "set", ⟨0, 3, 1, 1⟩⟩, ⟨.ident, utf8 "x", ⟨4, 5, 1, 5⟩⟩,
          ⟨.int, utf8 "-9223372036854775809", ⟨6, 26, 1, 7⟩⟩, ⟨.keyword .set, utf8 "set", ⟨27, 30, 1, 28⟩⟩],
          ⟨.eof, [], ⟨30, 30, 1, 31⟩⟩⟩ := by
      cbv
    have hviable : Viable ([⟨.keyword .set, utf8 "set", ⟨0, 3, 1, 1⟩⟩, ⟨.ident, utf8 "x", ⟨4, 5, 1, 5⟩⟩] ++
        [⟨.int, utf8 "0", .nowhere⟩]) := by
      obtain ⟨p, hread⟩ := (read_ok_iff scan_setZero).mpr rfl
      exact ⟨[⟨.keyword .endWord, utf8 "end", .nowhere⟩], _, _, p, scan_setZero, hread, rfl⟩
    exact integers_are_read_exactly.2.2.2 _ _ _ _ _ hscan rfl rfl (by decide) hviable

end Stepwise
