import Stepwise.Proofs.Reading

/-! What is still to come in a text. Between two tokens a reader has an agenda: the parts it looks for,
one after another. Every token strikes the first part off, and may put parts of its own in the place; or
it is none that this part can go on with. The readers of the tree keep to the agenda. -/

namespace Stepwise

/-- A part that is looked for. The token that opened a body, arguments or parameters is kept with them. -/
inductive Goal where
  | program
  | body (opener : Token) (elseAllowed : Bool)
  | stmt
  | expr
  | callee (opener : Token)
  | args (opener : Token)
  | target
  | setEnd
  | paramsOpen
  | params (opener : Token) (seen : List Name)

abbrev Agenda := List Goal

namespace Goal

/-- What the first token of an expression leaves to look for. -/
def ofExpr (t : Token) : Except Diagnostic Agenda :=
  match t.kind with
  | .int =>
    match Decimal.readWord? t.raw with
    | some _ => .ok []
    | none => fault (.integerRange t.raw) t
  | .string | .ident | .keyword .trueWord | .keyword .falseWord | .keyword .null
  | .keyword .forever => .ok []
  | .keyword .function => .ok [.paramsOpen, .body t false]
  | .lparen => .ok [.callee t, .args t]
  | .eof | .rparen | .keyword .set | .keyword .ifWord | .keyword .elseWord | .keyword .endWord
  | .keyword .times => fault (.noExpression t) t

def ofStmt (t : Token) : Except Diagnostic Agenda :=
  match t.kind with
  | .keyword .set => .ok [.target, .expr, .setEnd]
  | .keyword .ifWord => .ok [.expr, .body t true]
  | .keyword .times => .ok [.expr, .body t false]
  | .keyword .forever => .ok [.body t false]
  | .lparen => .ok [.callee t, .args t]
  | .eof | .rparen | .int | .string | .ident | .keyword .elseWord | .keyword .endWord
  | .keyword .function | .keyword .trueWord | .keyword .falseWord | .keyword .null =>
    fault (.noStatement t) t

/-- What is to be looked for in the place of a part when one of its tokens has come. -/
def take (t : Token) : Goal → Except Diagnostic Agenda
  | .program => (ofStmt t).map (· ++ [.program])
  | .body opener elseAllowed =>
    if t.kind = .keyword .endWord then .ok []
    else if elseAllowed ∧ t.kind = .keyword .elseWord then .ok [.body t false]
    else (ofStmt t).map (· ++ [.body opener elseAllowed])
  | .stmt => ofStmt t
  | .expr => ofExpr t
  | .callee opener =>
    if t.kind = .rparen then .error ⟨.emptyCall, opener.span.through t.span⟩ else ofExpr t
  | .args opener => if t.kind = .rparen then .ok [] else (ofExpr t).map (· ++ [.args opener])
  | .target =>
    match t.kind with
    | .ident => .ok []
    | .keyword _ => fault (.keywordTarget t.raw) t
    | .eof | .lparen | .rparen | .int | .string => fault (.targetNotSymbol t) t
  | .setEnd => if t.kind = .keyword .endWord then .ok [] else fault (.setNotClosed t) t
  | .paramsOpen => if t.kind = .lparen then .ok [.params t []] else fault (.paramsNotOpened t) t
  | .params opener seen =>
    match t.kind with
    | .rparen => .ok []
    | .ident =>
      if seen.contains t.raw then fault (.duplicateParam t.raw) t
      else .ok [.params opener (t.raw :: seen)]
    | .eof | .lparen | .int | .string | .keyword _ => fault (.paramNotSymbol t) t

/-- What is wrong with a text that ends where a part is looked for. -/
def missing? (eof : Token) : Goal → Option Diagnostic
  | .program => none
  | .body opener _ => some ⟨.unterminatedBlock opener.raw, opener.span⟩
  | .stmt => some ⟨.noStatement eof, eof.span⟩
  | .expr | .callee _ => some ⟨.noExpression eof, eof.span⟩
  | .args opener => some ⟨.unterminatedCall, opener.span⟩
  | .target => some ⟨.targetNotSymbol eof, eof.span⟩
  | .setEnd => some ⟨.setNotClosed eof, eof.span⟩
  | .paramsOpen => some ⟨.paramsNotOpened eof, eof.span⟩
  | .params opener _ => some ⟨.unterminatedParams, opener.span⟩

variable {t : Token}

theorem take_function (h : t.kind = .keyword .function) :
    expr.take t = .ok [.paramsOpen, .body t false] := by
  simp only [take, ofExpr, h]

theorem take_call (h : t.kind = .lparen) : expr.take t = .ok [.callee t, .args t] := by
  simp only [take, ofExpr, h]

theorem take_set (h : t.kind = .keyword .set) : stmt.take t = .ok [.target, .expr, .setEnd] := by
  simp only [take, ofStmt, h]

theorem take_if (h : t.kind = .keyword .ifWord) : stmt.take t = .ok [.expr, .body t true] := by
  simp only [take, ofStmt, h]

theorem take_times (h : t.kind = .keyword .times) : stmt.take t = .ok [.expr, .body t false] := by
  simp only [take, ofStmt, h]

theorem take_forever (h : t.kind = .keyword .forever) : stmt.take t = .ok [.body t false] := by
  simp only [take, ofStmt, h]

theorem take_callStmt (h : t.kind = .lparen) : stmt.take t = .ok [.callee t, .args t] := by
  simp only [take, ofStmt, h]

theorem take_args (h : t.kind ≠ .rparen) (opener : Token) :
    (args opener).take t = (expr.take t).map (· ++ [.args opener]) := if_neg h

theorem take_callee (h : t.kind ≠ .rparen) (opener : Token) :
    (callee opener).take t = (expr.take t).map (· ++ []) := by
  have hexpr : (callee opener).take t = ofExpr t := if_neg h
  rw [hexpr, take]
  cases ofExpr t with
  | error d => rfl
  | ok gs => exact congrArg Except.ok (List.append_nil gs).symm

end Goal

namespace Agenda

/-- The agenda after some tokens. -/
def after : Agenda → List Token → Except Diagnostic Agenda
  | gs, [] => .ok gs
  | [], t :: _ => fault (.noStatement t) t
  | g :: gs, t :: ts => g.take t >>= fun new => after (new ++ gs) ts

/-- Whether a text may end here. -/
def close (eof : Token) : Agenda → Except Diagnostic Unit
  | [] => .ok ()
  | g :: _ =>
    match g.missing? eof with
    | some d => .error d
    | none => .ok ()

/-- Whether tokens up to the end of input are what is looked for. -/
def pursue (eof : Token) (gs : Agenda) (ts : List Token) : Except Diagnostic Unit :=
  gs.after ts >>= close eof

variable {eof t : Token} {ts us : List Token} {g g' : Goal} {gs hs new : Agenda} {d : Diagnostic}

@[simp] theorem after_nil : after gs [] = .ok gs := by cases gs <;> rfl

theorem after_cons : after (g :: gs) (t :: ts) = g.take t >>= fun new => after (new ++ gs) ts := rfl

theorem after_append (gs : Agenda) (us ts : List Token) :
    gs.after (us ++ ts) = gs.after us >>= fun hs => hs.after ts := by
  induction us generalizing gs with
  | nil => rw [after_nil]; rfl
  | cons t us ih =>
    cases gs with
    | nil => rfl
    | cons g gs =>
      rw [List.cons_append, after_cons, after_cons]
      cases g.take t with
      | error d => rfl
      | ok new => exact ih (new ++ gs)

/-- What is looked for later stays as it is. -/
theorem after_later (h : gs.after us = .ok hs) (later : Agenda) :
    (gs ++ later).after us = .ok (hs ++ later) := by
  induction us generalizing gs with
  | nil =>
    rw [after_nil] at h ⊢
    rw [Except.ok.inj h]
  | cons t us ih =>
    cases gs with
    | nil => cases h
    | cons g gs =>
      rw [after_cons] at h
      rw [List.cons_append, after_cons]
      obtain ⟨new, hnew, h⟩ := except_bind_eq_ok h
      have hmore := ih h
      rw [List.append_assoc] at hmore
      rw [hnew]
      exact hmore

/-- A part that goes on as others do is looked for as they are. -/
theorem after_delegate (h : g.take t = (g'.take t).map (· ++ gs)) (later : Agenda) (ts : List Token) :
    after (g :: later) (t :: ts) = after (g' :: (gs ++ later)) (t :: ts) := by
  rw [after_cons, after_cons, h]
  cases g'.take t with
  | error d => rfl
  | ok new =>
    change after ((new ++ gs) ++ later) ts = after (new ++ (gs ++ later)) ts
    rw [List.append_assoc]

theorem pursue_take (h : g.take t = .ok new) (ts : List Token) :
    pursue eof (g :: gs) (t :: ts) = pursue eof (new ++ gs) ts := by
  rw [pursue, after_cons, h]
  rfl

theorem pursue_error (h : g.take t = .error d) (ts : List Token) :
    pursue eof (g :: gs) (t :: ts) = .error d := by
  rw [pursue, after_cons, h]
  rfl

theorem pursue_end (h : g.missing? eof = some d) : pursue eof (g :: gs) [] = .error d := by
  rw [pursue, after_nil]
  change close eof (g :: gs) = .error d
  rw [close, h]

theorem pursue_delegate (h : g.take t = (g'.take t).map (· ++ gs)) (later : Agenda) (ts : List Token) :
    pursue eof (g :: later) (t :: ts) = pursue eof (g' :: (gs ++ later)) (t :: ts) := by
  rw [pursue, pursue, after_delegate h]

end Agenda

open Agenda

section KeepsTo

variable {α β : Type} {eof t : Token} {ts rest before before' : List Token} {g g' : Goal}
  {gs hs : Agenda} {d : Diagnostic} {left : α → Agenda} {left' : β → Agenda}

/-- The reader of a part finds what the agenda looks for: it ends with the same error, or the agenda goes
on with what is left of it from where the reader stops. -/
def KeepsTo (eof : Token) (gs : Agenda) (ts : List Token) (left : α → Agenda)
    (x : ReadResult α before) : Prop :=
  ∀ later, pursue eof (gs ++ later) ts = x >>= fun r => pursue eof (left r.value ++ later) r.rest

abbrev Finds (eof : Token) (gs : Agenda) (ts : List Token) (x : ReadResult α before) : Prop :=
  KeepsTo eof gs ts (fun _ => []) x

theorem keepsTo_ok {r : Reading α before} (hgs : gs = left r.value) (hts : ts = r.rest) :
    KeepsTo eof gs ts left (.ok r) := by
  intro later
  rw [hgs, hts]
  rfl

theorem keepsTo_single {a : α} (hg : g.take t = .ok (left a)) :
    KeepsTo eof [g] (t :: rest) left (.ok (Reading.single a t rest)) :=
  fun _ => pursue_take hg rest

theorem KeepsTo.bind {x : ReadResult α before} {f : Reading α before → ReadResult β before'}
    (hx : KeepsTo eof gs ts left x)
    (hf : ∀ r, KeepsTo eof (left r.value ++ hs) r.rest left' (f r)) :
    KeepsTo eof (gs ++ hs) ts left' (x >>= f) := by
  intro later
  rw [List.append_assoc, hx]
  cases x with
  | error d => rfl
  | ok r =>
    have hr := hf r later
    rw [List.append_assoc] at hr
    exact hr

theorem KeepsTo.first {x : ReadResult α before} (hg : g.take t = .ok gs)
    (hx : KeepsTo eof (gs ++ hs) rest left x) : KeepsTo eof (g :: hs) (t :: rest) left x := by
  intro later
  have hlater := hx later
  rw [List.append_assoc] at hlater
  rw [List.cons_append, pursue_take hg, hlater]

theorem KeepsTo.delegate {x : ReadResult α before} (hg : g.take t = (g'.take t).map (· ++ gs))
    (hx : KeepsTo eof (g' :: gs) (t :: rest) left x) : KeepsTo eof [g] (t :: rest) left x := by
  intro later
  rw [List.singleton_append, pursue_delegate hg]
  exact hx later

theorem keepsTo_fault {cause : Cause} (hg : g.take t = fault cause t) :
    KeepsTo eof (g :: gs) (t :: rest) left (fault cause t : ReadResult α before) :=
  fun _ => pursue_error hg rest

theorem keepsTo_end {cause : Cause} {opener : Token} (hg : g.missing? eof = some ⟨cause, opener.span⟩) :
    KeepsTo eof (g :: gs) [] left (fault cause opener : ReadResult α before) :=
  fun _ => pursue_end hg

end KeepsTo

section Leaves

variable {eof t : Token} {rest ts : List Token}

theorem readNumber_finds (hkind : t.kind = .int) : Finds eof [.expr] (t :: rest) (readNumber t rest) := by
  have htake : Goal.take t .expr = match Decimal.readWord? t.raw with
      | some _ => .ok []
      | none => fault (.integerRange t.raw) t := by
    simp only [Goal.take, Goal.ofExpr, hkind]
  rw [readNumber]
  cases hword : Decimal.readWord? t.raw with
  | none =>
    rw [hword] at htake
    exact keepsTo_fault htake
  | some n =>
    rw [hword] at htake
    exact keepsTo_single htake

theorem readTarget_finds : Finds eof [.target] ts (readTarget eof ts) := by
  cases ts with
  | nil => exact keepsTo_end rfl
  | cons t rest =>
    rw [readTarget]
    split
    next hkind => exact keepsTo_single (by simp only [Goal.take, hkind])
    all_goals
      next hkind => exact keepsTo_fault (by simp only [Goal.take, hkind])

theorem readSetEnd_finds : Finds eof [.setEnd] ts (readSetEnd eof ts) := by
  cases ts with
  | nil => exact keepsTo_end rfl
  | cons t rest =>
    rw [readSetEnd]
    split
    · next hkind => exact keepsTo_single (if_pos hkind)
    · next hkind => exact keepsTo_fault (if_neg hkind)

theorem readParamsOpen_keepsTo :
    KeepsTo eof [.paramsOpen] ts (fun paren => [.params paren []]) (readParamsOpen eof ts) := by
  cases ts with
  | nil => exact keepsTo_end rfl
  | cons t rest =>
    rw [readParamsOpen]
    split
    · next hkind => exact keepsTo_single (if_pos hkind)
    · next hkind => exact keepsTo_fault (if_neg hkind)

theorem readParams_finds (opener : Token) (seen : List Name) :
    Finds eof [.params opener seen] ts (readParams opener seen ts) := by
  induction ts generalizing seen with
  | nil => exact keepsTo_end rfl
  | cons t rest ih =>
    rw [readParams]
    split
    next hkind => exact keepsTo_single (by simp only [Goal.take, hkind])
    next hkind =>
      split
      · next hseen => exact keepsTo_fault (by simp only [Goal.take, hkind, hseen, if_true])
      · next hseen =>
        have htake : Goal.take t (.params opener seen) = .ok [.params opener (t.raw :: seen)] := by
          simp only [Goal.take, hkind, hseen, Bool.false_eq_true, if_false]
        exact .first htake ((ih (t.raw :: seen)).bind fun r => keepsTo_ok rfl rfl)
    all_goals
      next hkind => exact keepsTo_fault (by simp only [Goal.take, hkind])

end Leaves

/-- What is left of a body that ends in `else`: the statements up to `end`. -/
def Body.left (elseAllowed : Bool) (b : Body) : Agenda :=
  if elseAllowed ∧ b.close.kind = .keyword .elseWord then [.body b.close false] else []

theorem Body.left_false (b : Body) : b.left false = [] := if_neg fun h => Bool.false_ne_true h.1

mutual

theorem readExpr_finds {eof : Token} (heof : eof.kind = .eof) (ts : List Token) :
    Finds eof [.expr] ts (readExpr eof ts) := by
  rw [readExpr.eq_def]
  match ts with
  | [] => exact keepsTo_end rfl
  | t :: rest =>
    dsimp only
    split
    case h_1 hkind => exact readNumber_finds hkind
    case h_8 hkind =>
      exact .first (Goal.take_function hkind)
        ((readFunction_finds heof t rest).bind fun r => keepsTo_ok rfl rfl)
    case h_9 hkind =>
      exact .first (Goal.take_call hkind) ((readCall_finds heof t rest).bind fun r => keepsTo_ok rfl rfl)
    all_goals
      next hkind =>
        first
        | exact keepsTo_single (by simp only [Goal.take, Goal.ofExpr, hkind])
        | exact keepsTo_fault (by simp only [Goal.take, Goal.ofExpr, hkind])
termination_by 2 * ts.length

theorem readCall_finds {eof : Token} (heof : eof.kind = .eof) (opener : Token) (ts : List Token) :
    Finds eof [.callee opener, .args opener] ts (readCall eof opener ts) := by
  rw [readCall]
  split
  · next hclose =>
    cases ts with
    | nil => exact nomatch heof.symm.trans hclose
    | cons t rest =>
      have htake : Goal.take t (.callee opener) = .error ⟨.emptyCall, opener.span.through t.span⟩ :=
        if_pos hclose
      exact fun later => pursue_error htake rest
  · next hclose =>
    -- but for the closing parenthesis a callee is looked for as any expression
    have hcallee : Finds eof [.callee opener] ts (readExpr eof ts) := by
      cases ts with
      | nil =>
        rw [readExpr]
        exact keepsTo_end rfl
      | cons t rest =>
        exact .delegate (Goal.take_callee hclose opener) (readExpr_finds heof (t :: rest))
    refine hcallee.bind fun callee => ?_
    have := callee.shorter
    exact (readArgs_finds heof opener callee.rest).bind fun args => keepsTo_ok rfl rfl
termination_by 2 * ts.length + 1

theorem readArgs_finds {eof : Token} (heof : eof.kind = .eof) (opener : Token) (ts : List Token) :
    Finds eof [.args opener] ts (readArgs eof opener ts) := by
  rw [readArgs.eq_def]
  match ts with
  | [] => exact keepsTo_end rfl
  | t :: rest =>
    dsimp only
    split
    · next hclose => exact keepsTo_single (if_pos hclose)
    · next hclose =>
      refine .delegate (Goal.take_args hclose opener) ((readExpr_finds heof (t :: rest)).bind fun e => ?_)
      have := e.length_rest_le
      exact (readArgs_finds heof opener e.rest).bind fun more => keepsTo_ok rfl rfl
termination_by 2 * ts.length + 1

theorem readFunction_finds {eof : Token} (heof : eof.kind = .eof) (opener : Token) (ts : List Token) :
    Finds eof [.paramsOpen, .body opener false] ts (readFunction eof opener ts) := by
  rw [readFunction]
  refine readParamsOpen_keepsTo.bind fun paren => ?_
  have := paren.shorter
  refine (readParams_finds paren.value []).bind fun params => ?_
  have := params.shorter
  refine (readBody_keepsTo heof opener false params.rest).bind fun body => ?_
  exact keepsTo_ok (Body.left_false body.value) rfl
termination_by 2 * ts.length + 1

theorem readBody_keepsTo {eof : Token} (heof : eof.kind = .eof) (opener : Token) (elseAllowed : Bool)
    (ts : List Token) :
    KeepsTo eof [.body opener elseAllowed] ts (Body.left elseAllowed)
      (readBody eof opener elseAllowed ts) := by
  rw [readBody.eq_def]
  match ts with
  | [] => exact keepsTo_end rfl
  | t :: rest =>
    dsimp only
    split
    · next hclose =>
      refine keepsTo_single ?_
      rw [Goal.take, Body.left]
      by_cases hend : t.kind = .keyword .endWord
      · simp [hend]
      · have helse : elseAllowed ∧ t.kind = .keyword .elseWord := by simpa [hend] using hclose
        rw [if_neg hend, if_pos helse, if_pos helse]
    · next hclose =>
      simp only [Bool.or_eq_true, Bool.and_eq_true, decide_eq_true_eq, not_or] at hclose
      have htake : Goal.take t (.body opener elseAllowed) =
          (Goal.take t .stmt).map (· ++ [.body opener elseAllowed]) := by
        rw [Goal.take, if_neg hclose.1, if_neg hclose.2, Goal.take]
      refine .delegate htake ((readStmt_finds heof (t :: rest)).bind fun s => ?_)
      have := s.length_rest_le
      exact (readBody_keepsTo heof opener elseAllowed s.rest).bind fun more =>
        keepsTo_ok (List.append_nil _) rfl
termination_by 2 * ts.length + 1

theorem readStmt_finds {eof : Token} (heof : eof.kind = .eof) (ts : List Token) :
    Finds eof [.stmt] ts (readStmt eof ts) := by
  rw [readStmt.eq_def]
  match ts with
  | [] => exact keepsTo_end rfl
  | t :: rest =>
    dsimp only
    split
    case h_1 hkind =>
      refine .first (Goal.take_set hkind) (readTarget_finds.bind fun target => ?_)
      have := target.shorter
      refine (readExpr_finds heof target.rest).bind fun value => ?_
      exact readSetEnd_finds.bind fun close => keepsTo_ok rfl rfl
    case h_2 hkind =>
      refine .first (Goal.take_if hkind) ((readExpr_finds heof rest).bind fun cond => ?_)
      have := cond.shorter
      refine (readBody_keepsTo heof t true cond.rest).bind fun thenBody => ?_
      have := thenBody.shorter
      split
      · next helse =>
        -- the word that closed the first body has put the second one on the agenda
        rw [List.append_nil, Body.left, if_pos ⟨rfl, helse⟩]
        refine (readBody_keepsTo heof _ false thenBody.rest).bind fun elseBody => ?_
        exact keepsTo_ok (Body.left_false elseBody.value) rfl
      · next helse =>
        have hleft : thenBody.value.left true = [] := if_neg fun h => helse h.2
        exact keepsTo_ok (by rw [hleft, List.append_nil]) rfl
    case h_3 hkind =>
      refine .first (Goal.take_times hkind) ((readExpr_finds heof rest).bind fun count => ?_)
      have := count.shorter
      refine (readBody_keepsTo heof t false count.rest).bind fun body => ?_
      exact keepsTo_ok (Body.left_false body.value) rfl
    case h_4 hkind =>
      refine .first (Goal.take_forever hkind) ((readBody_keepsTo heof t false rest).bind fun body => ?_)
      exact keepsTo_ok (Body.left_false body.value) rfl
    case h_5 hkind =>
      exact .first (Goal.take_callStmt hkind) ((readCall_finds heof t rest).bind fun r => keepsTo_ok rfl rfl)
    all_goals
      next hkind => exact keepsTo_fault (by simp only [Goal.take, Goal.ofStmt, hkind])
termination_by 2 * ts.length

end

theorem readStmts_pursues {eof : Token} (heof : eof.kind = .eof) (ts : List Token) :
    pursue eof [.program] ts = (readStmts eof ts).map fun _ => () := by
  match ts with
  | [] =>
    rw [readStmts]
    rfl
  | t :: rest =>
    have htake : Goal.take t .program = (Goal.take t .stmt).map (· ++ [.program]) := rfl
    have hstmt := readStmt_finds heof (t :: rest) [.program]
    rw [List.singleton_append] at hstmt
    rw [readStmts, pursue_delegate htake, List.append_nil, hstmt]
    cases readStmt eof (t :: rest) with
    | error d => rfl
    | ok s =>
      have := s.length_rest_le
      have hmore := readStmts_pursues heof s.rest
      change pursue eof [.program] s.rest = _
      rw [hmore]
      change _ = Except.map _ (readStmts eof s.rest >>= fun more => pure (s.value :: more))
      cases readStmts eof s.rest with
      | error d => rfl
      | ok more => rfl
termination_by ts.length

/-- A text with tokens is read if its agenda can be gone through, and else with the agenda's error. -/
theorem Program.read_pursues {source : Bytes} {ts : Tokens} (h : scan source = .ok ts)
    (heof : ts.eof.kind = .eof) :
    pursue ts.eof [.program] ts.items = (Program.read source).map fun _ => () := by
  have hstmts := readStmts_pursues heof ts.items
  rw [hstmts, Program.read, h]
  change _ = Except.map _ (readStmts ts.eof ts.items >>= fun body => pure _)
  cases readStmts ts.eof ts.items with
  | error d => rfl
  | ok body => rfl

end Stepwise
