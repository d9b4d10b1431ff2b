import Stepwise.Token.Scan

/-! Reading tokens as a program tree. One token decides at every point, and every part read takes at
least one token, which is why reading ends. -/

namespace Stepwise

/-- A part of a tree and the tokens after it, fewer than the tokens before it. -/
structure Reading (α : Type) (before : List Token) where
  value : α
  rest : List Token
  shorter : rest.length < before.length

abbrev ReadResult (α : Type) (before : List Token) := Except Diagnostic (Reading α before)

namespace Reading

def map {α β : Type} {before : List Token} (f : α → β) (r : Reading α before) :
    Reading β before :=
  ⟨f r.value, r.rest, r.shorter⟩

/-- A part read after another one, as read from where the first one starts. -/
def follow {α β : Type} {before : List Token} (r : Reading α before) (q : Reading β r.rest) :
    Reading β before :=
  ⟨q.value, q.rest, Nat.lt_trans q.shorter r.shorter⟩

theorem length_rest_le {α : Type} {t : Token} {after : List Token} (r : Reading α (t :: after)) :
    r.rest.length ≤ after.length :=
  Nat.le_of_lt_succ r.shorter

/-- A part that is one token. -/
def single {α : Type} (value : α) (t : Token) (rest : List Token) : Reading α (t :: rest) :=
  ⟨value, rest, by simp⟩

end Reading

/-- Expressions up to a closing parenthesis. -/
structure Arguments where
  exprs : List Expr
  close : Token

/-- What stands between two parentheses. -/
structure CallParts where
  callee : Expr
  args : Arguments

/-- Statements up to the word that ends them. -/
structure Body where
  stmts : List Stmt
  close : Token

def fault {α : Type} (cause : Cause) (t : Token) : Except Diagnostic α := .error ⟨cause, t.span⟩

/-- The place of a statement list: from the token it starts with to its last statement, and the
empty place before that token when there is no statement. -/
def bodySpan (first : Token) (stmts : List Stmt) : Span :=
  match stmts.getLast? with
  | none => first.span.opening
  | some last => first.span.through last.span

def Body.block (first : Token) (b : Body) : Block := .of (bodySpan first b.stmts) b.stmts

/-- The token that comes next. -/
def peek (eof : Token) : List Token → Token
  | [] => eof
  | t :: _ => t

def readNumber (t : Token) (rest : List Token) : ReadResult Expr (t :: rest) :=
  match Decimal.readWord? t.raw with
  | some n => .ok (.single (.number t.span n) t rest)
  | none => fault (.integerRange t.raw) t

/-- The text between the quotes of a string token. -/
def unquoted (raw : Bytes) : Bytes := raw.tail.dropLast

/-- The name that an assignment sets. -/
def readTarget (eof : Token) : (ts : List Token) → ReadResult Symbol ts
  | [] => fault (.targetNotSymbol eof) eof
  | t :: rest =>
    match t.kind with
    | .ident => .ok (.single ⟨t.span, t.raw⟩ t rest)
    | .keyword _ => fault (.keywordTarget t.raw) t
    | .eof | .lparen | .rparen | .int | .string => fault (.targetNotSymbol t) t

def readSetEnd (eof : Token) : (ts : List Token) → ReadResult Token ts
  | [] => fault (.setNotClosed eof) eof
  | t :: rest =>
    if t.kind = .keyword .endWord then .ok (.single t t rest) else fault (.setNotClosed t) t

def readParamsOpen (eof : Token) : (ts : List Token) → ReadResult Token ts
  | [] => fault (.paramsNotOpened eof) eof
  | t :: rest => if t.kind = .lparen then .ok (.single t t rest) else fault (.paramsNotOpened t) t

/-- Parameter names up to the closing parenthesis; `seen` holds the names before them. -/
def readParams (opener : Token) (seen : List Name) :
    (ts : List Token) → ReadResult (List Symbol × Token) ts
  | [] => fault .unterminatedParams opener
  | t :: rest =>
    match t.kind with
    | .rparen => .ok (.single ([], t) t rest)
    | .ident =>
      if seen.contains t.raw then fault (.duplicateParam t.raw) t
      else do
        let r ← readParams opener (t.raw :: seen) rest
        return (Reading.single () t rest).follow
          (r.map fun (symbols, close) => (⟨t.span, t.raw⟩ :: symbols, close))
    | .eof | .lparen | .int | .string | .keyword _ => fault (.paramNotSymbol t) t

mutual

def readExpr (eof : Token) (ts : List Token) : ReadResult Expr ts :=
  match ts with
  | [] => fault (.noExpression eof) eof
  | t :: rest =>
    match t.kind with
    | .int => readNumber t rest
    | .string => .ok (.single (.string t.span (unquoted t.raw)) t rest)
    | .ident => .ok (.single (.symbol ⟨t.span, t.raw⟩) t rest)
    | .keyword .trueWord => .ok (.single (.boolean t.span true) t rest)
    | .keyword .falseWord => .ok (.single (.boolean t.span false) t rest)
    | .keyword .null => .ok (.single (.null t.span) t rest)
    | .keyword .forever => .ok (.single (.forever t.span) t rest)
    | .keyword .function => do
      let r ← readFunction eof t rest
      return (Reading.single () t rest).follow r
    | .lparen => do
      let r ← readCall eof t rest
      return (Reading.single () t rest).follow
        (r.map fun c => .call (t.span.through c.args.close.span) c.callee c.args.exprs)
    | .eof | .rparen | .keyword .set | .keyword .ifWord | .keyword .elseWord | .keyword .endWord
    | .keyword .times => fault (.noExpression t) t
termination_by 2 * ts.length

/-- What follows an opening parenthesis. -/
def readCall (eof opener : Token) (ts : List Token) : ReadResult CallParts ts :=
  if (peek eof ts).kind = .rparen then
    .error ⟨.emptyCall, opener.span.through (peek eof ts).span⟩
  else do
    let callee ← readExpr eof ts
    have := callee.shorter
    let args ← readArgs eof opener callee.rest
    return callee.follow (args.map fun a => ⟨callee.value, a⟩)
termination_by 2 * ts.length + 1

def readArgs (eof opener : Token) (ts : List Token) : ReadResult Arguments ts :=
  match ts with
  | [] => fault .unterminatedCall opener
  | t :: rest =>
    if t.kind = .rparen then .ok (.single ⟨[], t⟩ t rest)
    else do
      let e ← readExpr eof (t :: rest)
      have := e.length_rest_le
      let more ← readArgs eof opener e.rest
      return e.follow (more.map fun a => { a with exprs := e.value :: a.exprs })
termination_by 2 * ts.length + 1

/-- What follows the word that opens a function. -/
def readFunction (eof opener : Token) (ts : List Token) : ReadResult Expr ts := do
  let paren ← readParamsOpen eof ts
  have := paren.shorter
  let params ← readParams paren.value [] paren.rest
  have := params.shorter
  let body ← readBody eof opener false params.rest
  let list : Params := ⟨paren.value.span.through params.value.2.span, params.value.1⟩
  return paren.follow (params.follow (body.map fun b =>
    .function (opener.span.through b.close.span) (some list) (b.block (peek eof params.rest))))
termination_by 2 * ts.length + 1

/-- Statements up to `end`, or up to `else` where one may stand. -/
def readBody (eof opener : Token) (elseAllowed : Bool) (ts : List Token) : ReadResult Body ts :=
  match ts with
  | [] => fault (.unterminatedBlock opener.raw) opener
  | t :: rest =>
    if t.kind = .keyword .endWord || (elseAllowed && t.kind = .keyword .elseWord) then
      .ok (.single ⟨[], t⟩ t rest)
    else do
      let s ← readStmt eof (t :: rest)
      have := s.length_rest_le
      let more ← readBody eof opener elseAllowed s.rest
      return s.follow (more.map fun b => { b with stmts := s.value :: b.stmts })
termination_by 2 * ts.length + 1

def readStmt (eof : Token) (ts : List Token) : ReadResult Stmt ts :=
  match ts with
  | [] => fault (.noStatement eof) eof
  | t :: rest => do
    let opened := Reading.single () t rest
    match t.kind with
    | .keyword .set =>
      let target ← readTarget eof rest
      have := target.shorter
      let value ← readExpr eof target.rest
      let close ← readSetEnd eof value.rest
      return opened.follow (target.follow (value.follow (close.map fun c =>
        .set (t.span.through c.span) (some target.value) value.value)))
    | .keyword .ifWord =>
      let cond ← readExpr eof rest
      have := cond.shorter
      let thenBody ← readBody eof t true cond.rest
      have := thenBody.shorter
      let thenBlock := thenBody.value.block (peek eof cond.rest)
      if thenBody.value.close.kind = .keyword .elseWord then
        let elseBody ← readBody eof thenBody.value.close false thenBody.rest
        return opened.follow (cond.follow (thenBody.follow (elseBody.map fun b =>
          .branch (t.span.through b.close.span) cond.value thenBlock
            (b.block (peek eof thenBody.rest)))))
      else
        return opened.follow (cond.follow (thenBody.map fun b =>
          .branch (t.span.through b.close.span) cond.value thenBlock .missing))
    | .keyword .times =>
      let count ← readExpr eof rest
      have := count.shorter
      let body ← readBody eof t false count.rest
      return opened.follow (count.follow (body.map fun b =>
        .times (t.span.through b.close.span) count.value (b.block (peek eof count.rest))))
    | .keyword .forever =>
      let body ← readBody eof t false rest
      return opened.follow (body.map fun b =>
        .times (t.span.through b.close.span) (.forever t.span) (b.block (peek eof rest)))
    | .lparen =>
      let r ← readCall eof t rest
      return opened.follow
        (r.map fun c => .call (t.span.through c.args.close.span) c.callee c.args.exprs)
    | .eof | .rparen | .int | .string | .ident | .keyword .elseWord | .keyword .endWord
    | .keyword .function | .keyword .trueWord | .keyword .falseWord | .keyword .null =>
      fault (.noStatement t) t
termination_by 2 * ts.length

end

/-- Statements up to the end of input. -/
def readStmts (eof : Token) (ts : List Token) : Except Diagnostic (List Stmt) :=
  match ts with
  | [] => .ok []
  | t :: rest => do
    let s ← readStmt eof (t :: rest)
    have := s.length_rest_le
    let more ← readStmts eof s.rest
    return s.value :: more
termination_by ts.length

namespace Program

def ofTokens (ts : Tokens) : Except Diagnostic Program := do
  let body ← readStmts ts.eof ts.items
  return ⟨bodySpan (peek ts.eof ts.items) body, body⟩

/-- The program that a source text is. -/
def read (source : Bytes) : Except Diagnostic Program := do
  ofTokens (← scan source)

end Program

end Stepwise
