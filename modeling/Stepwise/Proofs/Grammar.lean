import Stepwise.Proofs.Reading

/-! The grammar of programs. A phrase is one way to put tokens together to a part of a program: it has
the tokens it consists of and the tree it stands for. No tokens can be put together in two ways. -/

namespace Stepwise

/-- A token of a kind, spelled as such tokens are. -/
@[ext] structure TokenOf (kind : TokenKind) where
  token : Token
  kind_eq : token.kind = kind
  spells : kind.Spells token.raw

/-- An expression that is one token. -/
inductive Atom where
  | number (t : TokenOf .int)
  | string (t : TokenOf .string)
  | yes (t : TokenOf (.keyword .trueWord))
  | no (t : TokenOf (.keyword .falseWord))
  | null (t : TokenOf (.keyword .null))
  | symbol (t : TokenOf .ident)
  | forever (t : TokenOf (.keyword .forever))

mutual

inductive ExprPhrase where
  | atom (a : Atom)
  | call (opener : TokenOf .lparen) (callee : ExprPhrase) (args : List ExprPhrase)
      (close : TokenOf .rparen)
  | function (word : TokenOf (.keyword .function)) (opener : TokenOf .lparen)
      (params : List (TokenOf .ident)) (close : TokenOf .rparen) (body : List StmtPhrase)
      (stop : TokenOf (.keyword .endWord))

inductive StmtPhrase where
  | set (word : TokenOf (.keyword .set)) (target : TokenOf .ident) (value : ExprPhrase)
      (stop : TokenOf (.keyword .endWord))
  | branch (word : TokenOf (.keyword .ifWord)) (condition : ExprPhrase) (body : List StmtPhrase)
      (stop : TokenOf (.keyword .endWord))
  | branchElse (word : TokenOf (.keyword .ifWord)) (condition : ExprPhrase)
      (thenBody : List StmtPhrase) (middle : TokenOf (.keyword .elseWord))
      (elseBody : List StmtPhrase) (stop : TokenOf (.keyword .endWord))
  | times (word : TokenOf (.keyword .times)) (count : ExprPhrase) (body : List StmtPhrase)
      (stop : TokenOf (.keyword .endWord))
  | forever (word : TokenOf (.keyword .forever)) (body : List StmtPhrase)
      (stop : TokenOf (.keyword .endWord))
  | call (opener : TokenOf .lparen) (callee : ExprPhrase) (args : List ExprPhrase)
      (close : TokenOf .rparen)

end

def Atom.token : Atom → Token
  | .number t => t.token
  | .string t => t.token
  | .yes t => t.token
  | .no t => t.token
  | .null t => t.token
  | .symbol t => t.token
  | .forever t => t.token

mutual

def ExprPhrase.tokens : ExprPhrase → List Token
  | .atom a => [a.token]
  | .call opener callee args close =>
    opener.token :: (callee.tokens ++ (ExprPhrase.tokensOf args ++ [close.token]))
  | .function word opener params close body stop =>
    word.token :: opener.token :: (params.map TokenOf.token ++
      close.token :: (StmtPhrase.tokensOf body ++ [stop.token]))

def ExprPhrase.tokensOf : List ExprPhrase → List Token
  | [] => []
  | d :: ds => d.tokens ++ ExprPhrase.tokensOf ds

def StmtPhrase.tokens : StmtPhrase → List Token
  | .set word target value stop => word.token :: target.token :: (value.tokens ++ [stop.token])
  | .branch word condition body stop =>
    word.token :: (condition.tokens ++ (StmtPhrase.tokensOf body ++ [stop.token]))
  | .branchElse word condition thenBody middle elseBody stop =>
    word.token :: (condition.tokens ++ (StmtPhrase.tokensOf thenBody ++
      middle.token :: (StmtPhrase.tokensOf elseBody ++ [stop.token])))
  | .times word count body stop =>
    word.token :: (count.tokens ++ (StmtPhrase.tokensOf body ++ [stop.token]))
  | .forever word body stop => word.token :: (StmtPhrase.tokensOf body ++ [stop.token])
  | .call opener callee args close =>
    opener.token :: (callee.tokens ++ (ExprPhrase.tokensOf args ++ [close.token]))

def StmtPhrase.tokensOf : List StmtPhrase → List Token
  | [] => []
  | d :: ds => d.tokens ++ StmtPhrase.tokensOf ds

end

/-- The tree of an atom; the value of a number is that of its numeral. -/
def Atom.tree : Atom → Expr
  | .number t => .number t.token.span (Int64.ofInt (numeralValue t.token.raw))
  | .string t => .string t.token.span (unquoted t.token.raw)
  | .yes t => .boolean t.token.span true
  | .no t => .boolean t.token.span false
  | .null t => .null t.token.span
  | .symbol t => .symbol ⟨t.token.span, t.token.raw⟩
  | .forever t => .forever t.token.span

def TokenOf.symbol (t : TokenOf .ident) : Symbol := ⟨t.token.span, t.token.raw⟩

/-- Statements before a token, with the place of what stands before it. -/
def blockBefore (stop : Token) (tokens : List Token) (stmts : List Stmt) : Block :=
  .of (bodySpan (peek stop tokens) stmts) stmts

mutual

def ExprPhrase.tree : ExprPhrase → Expr
  | .atom a => a.tree
  | .call opener callee args close =>
    .call (opener.token.span.through close.token.span) callee.tree (ExprPhrase.trees args)
  | .function word opener params close body stop =>
    .function (word.token.span.through stop.token.span)
      (some ⟨opener.token.span.through close.token.span, params.map TokenOf.symbol⟩)
      (blockBefore stop.token (StmtPhrase.tokensOf body) (StmtPhrase.trees body))

def ExprPhrase.trees : List ExprPhrase → List Expr
  | [] => []
  | d :: ds => d.tree :: ExprPhrase.trees ds

def StmtPhrase.tree : StmtPhrase → Stmt
  | .set word target value stop =>
    .set (word.token.span.through stop.token.span) (some target.symbol) value.tree
  | .branch word condition body stop =>
    .branch (word.token.span.through stop.token.span) condition.tree
      (blockBefore stop.token (StmtPhrase.tokensOf body) (StmtPhrase.trees body)) .missing
  | .branchElse word condition thenBody middle elseBody stop =>
    .branch (word.token.span.through stop.token.span) condition.tree
      (blockBefore middle.token (StmtPhrase.tokensOf thenBody) (StmtPhrase.trees thenBody))
      (blockBefore stop.token (StmtPhrase.tokensOf elseBody) (StmtPhrase.trees elseBody))
  | .times word count body stop =>
    .times (word.token.span.through stop.token.span) count.tree
      (blockBefore stop.token (StmtPhrase.tokensOf body) (StmtPhrase.trees body))
  | .forever word body stop =>
    .times (word.token.span.through stop.token.span) (.forever word.token.span)
      (blockBefore stop.token (StmtPhrase.tokensOf body) (StmtPhrase.trees body))
  | .call opener callee args close =>
    .call (opener.token.span.through close.token.span) callee.tree (ExprPhrase.trees args)

def StmtPhrase.trees : List StmtPhrase → List Stmt
  | [] => []
  | d :: ds => d.tree :: StmtPhrase.trees ds

end

def Symbol.bare (s : Symbol) : Symbol := ⟨.nowhere, s.name⟩

mutual

/-- A tree without the places of its parts. -/
def Expr.bare : Expr → Expr
  | .missing => .missing
  | .symbol s => .symbol s.bare
  | .number _ value => .number .nowhere value
  | .boolean _ value => .boolean .nowhere value
  | .null _ => .null .nowhere
  | .string _ value => .string .nowhere value
  | .forever _ => .forever .nowhere
  | .call _ callee args => .call .nowhere callee.bare (Expr.bareAll args)
  | .function _ params body =>
    .function .nowhere (params.map fun ps => ⟨.nowhere, ps.symbols.map Symbol.bare⟩) body.bare

def Expr.bareAll : List Expr → List Expr
  | [] => []
  | e :: es => e.bare :: Expr.bareAll es

def Block.bare : Block → Block
  | .missing => .missing
  | .of _ body => .of .nowhere (Stmt.bareAll body)

def Stmt.bare : Stmt → Stmt
  | .missing => .missing
  | .set _ target value => .set .nowhere (target.map Symbol.bare) value.bare
  | .branch _ condition thenBlock elseBlock =>
    .branch .nowhere condition.bare thenBlock.bare elseBlock.bare
  | .times _ count body => .times .nowhere count.bare body.bare
  | .call _ callee args => .call .nowhere callee.bare (Expr.bareAll args)

def Stmt.bareAll : List Stmt → List Stmt
  | [] => []
  | s :: rest => s.bare :: Stmt.bareAll rest

end

def Program.bare (p : Program) : Program := ⟨.nowhere, Stmt.bareAll p.body⟩

/-- The program that statements up to the end of input are. -/
def Program.ofPhrases (eof : Token) (body : List StmtPhrase) : Program :=
  ⟨bodySpan (peek eof (StmtPhrase.tokensOf body)) (StmtPhrase.trees body), StmtPhrase.trees body⟩

def Atom.Admissible : Atom → Prop
  | .number t => Decimal.fitsInt64 (numeralValue t.token.raw)
  | _ => True

mutual

/-- What the grammar does not say: a machine word holds every integer, and the parameters of a
function have different names. -/
def ExprPhrase.Admissible : ExprPhrase → Prop
  | .atom a => a.Admissible
  | .call _ callee args _ => callee.Admissible ∧ ExprPhrase.AllAdmissible args
  | .function _ _ params _ body _ =>
    (params.map fun t => t.token.raw).Nodup ∧ StmtPhrase.AllAdmissible body

def ExprPhrase.AllAdmissible : List ExprPhrase → Prop
  | [] => True
  | d :: ds => d.Admissible ∧ ExprPhrase.AllAdmissible ds

def StmtPhrase.Admissible : StmtPhrase → Prop
  | .set _ _ value _ => value.Admissible
  | .branch _ condition body _ => condition.Admissible ∧ StmtPhrase.AllAdmissible body
  | .branchElse _ condition thenBody _ elseBody _ =>
    condition.Admissible ∧ StmtPhrase.AllAdmissible thenBody ∧ StmtPhrase.AllAdmissible elseBody
  | .times _ count body _ => count.Admissible ∧ StmtPhrase.AllAdmissible body
  | .forever _ body _ => StmtPhrase.AllAdmissible body
  | .call _ callee args _ => callee.Admissible ∧ ExprPhrase.AllAdmissible args

def StmtPhrase.AllAdmissible : List StmtPhrase → Prop
  | [] => True
  | d :: ds => d.Admissible ∧ StmtPhrase.AllAdmissible ds

end

theorem TokenOf.kinds_eq {k k' : TokenKind} {t : TokenOf k} {t' : TokenOf k'}
    (h : t.token = t'.token) : k = k' := by
  rw [← t.kind_eq, ← t'.kind_eq, h]

theorem Atom.eq_of_token {a a' : Atom} (h : a.token = a'.token) : a = a' := by
  cases a <;> cases a'
  all_goals first
    | exact congrArg _ (TokenOf.ext h)
    | exact nomatch TokenOf.kinds_eq h

theorem Atom.token_ne_opener {a : Atom} {t : TokenOf .lparen} : a.token ≠ t.token := by
  intro h
  cases a
  all_goals exact nomatch TokenOf.kinds_eq h

theorem Atom.token_ne_function {a : Atom} {t : TokenOf (.keyword .function)} :
    a.token ≠ t.token := by
  intro h
  cases a
  all_goals exact nomatch TokenOf.kinds_eq h

/-- No expression starts with a closing parenthesis. -/
theorem ExprPhrase.exists_first (d : ExprPhrase) :
    ∃ t rest, d.tokens = t :: rest ∧ t.kind ≠ .rparen := by
  cases d with
  | atom a =>
    refine ⟨a.token, [], by rw [tokens], ?_⟩
    cases a with
    | number t | string t | yes t | no t | null t | symbol t | forever t =>
      exact fun h => nomatch t.kind_eq.symm.trans h
  | call opener callee args close =>
    exact ⟨opener.token, _, by rw [tokens], fun h => nomatch opener.kind_eq.symm.trans h⟩
  | function word opener params close body stop =>
    exact ⟨word.token, _, by rw [tokens], fun h => nomatch word.kind_eq.symm.trans h⟩

def TokenKind.endsBody : TokenKind → Bool
  | .keyword .endWord | .keyword .elseWord => true
  | _ => false

/-- No statement starts with a word that ends a list of them. -/
theorem StmtPhrase.exists_first (d : StmtPhrase) :
    ∃ t rest, d.tokens = t :: rest ∧ t.kind.endsBody = false := by
  cases d with
  | set word | branch word | branchElse word | times word | forever word =>
    exact ⟨word.token, _, by rw [tokens], by rw [word.kind_eq]; rfl⟩
  | call opener => exact ⟨opener.token, _, by rw [tokens], by rw [opener.kind_eq]; rfl⟩

theorem params_unambiguous {params params' : List (TokenOf .ident)} {close close' : TokenOf .rparen}
    {r r' : List Token}
    (h : params.map TokenOf.token ++ close.token :: r =
      params'.map TokenOf.token ++ close'.token :: r') :
    params = params' ∧ close = close' ∧ r = r' := by
  induction params generalizing params' with
  | nil =>
    cases params' with
    | nil =>
      obtain ⟨hclose, hr⟩ := List.cons.inj h
      exact ⟨rfl, TokenOf.ext hclose, hr⟩
    | cons p' params' => exact nomatch TokenOf.kinds_eq (List.cons.inj h).1
  | cons p params ih =>
    cases params' with
    | nil => exact nomatch TokenOf.kinds_eq (List.cons.inj h).1
    | cons p' params' =>
      obtain ⟨hp, h⟩ := List.cons.inj h
      obtain ⟨rfl, hclose, hr⟩ := ih h
      exact ⟨by rw [TokenOf.ext hp], hclose, hr⟩

theorem TokenOf.endsBody_of_end (t : TokenOf (.keyword .endWord)) : t.token.kind.endsBody := by
  rw [t.kind_eq]
  rfl

theorem TokenOf.endsBody_of_else (t : TokenOf (.keyword .elseWord)) : t.token.kind.endsBody := by
  rw [t.kind_eq]
  rfl

/-- It is told from the tokens where the phrase ends, and which one it is. -/
def ExprPhrase.Delimited (d : ExprPhrase) : Prop :=
  ∀ {d' : ExprPhrase} {r r' : List Token}, d.tokens ++ r = d'.tokens ++ r' → d = d' ∧ r = r'

/-- Where arguments up to a closing parenthesis end. -/
def ExprPhrase.AllDelimited (ds : List ExprPhrase) : Prop :=
  ∀ {ds' : List ExprPhrase} {close close' : TokenOf .rparen} {r r' : List Token},
    ExprPhrase.tokensOf ds ++ close.token :: r = ExprPhrase.tokensOf ds' ++ close'.token :: r' →
      ds = ds' ∧ close = close' ∧ r = r'

/-- Where statements up to a word that ends them end. -/
def StmtPhrase.AllDelimited (ds : List StmtPhrase) : Prop :=
  ∀ {ds' : List StmtPhrase} {stop stop' : Token}, stop.kind.endsBody → stop'.kind.endsBody →
    ∀ {r r' : List Token}, StmtPhrase.tokensOf ds ++ stop :: r = StmtPhrase.tokensOf ds' ++ stop' :: r' →
      ds = ds' ∧ stop = stop' ∧ r = r'

namespace StmtPhrase

variable {d' : StmtPhrase} {r r' : List Token} {c : ExprPhrase} {ds : List StmtPhrase}
  {stop : TokenOf (.keyword .endWord)}

theorem set_unambiguous {word : TokenOf (.keyword .set)} {target : TokenOf .ident} (hvalue : c.Delimited)
    (h : (set word target c stop).tokens ++ r = d'.tokens ++ r') : set word target c stop = d' ∧ r = r' := by
  cases d' with
  | set word' target' value' stop' =>
    simp only [tokens, List.cons_append, List.append_assoc, List.nil_append, List.cons.injEq] at h
    obtain ⟨hword, htarget, h⟩ := h
    obtain ⟨rfl, hrest⟩ := hvalue h
    obtain ⟨hstop, hr⟩ := List.cons.inj hrest
    exact ⟨by rw [TokenOf.ext hword, TokenOf.ext htarget, TokenOf.ext hstop], hr⟩
  | _ => exact nomatch TokenOf.kinds_eq (List.cons.inj h).1

theorem branch_unambiguous {word : TokenOf (.keyword .ifWord)} (hc : c.Delimited) (hbody : AllDelimited ds)
    (h : (branch word c ds stop).tokens ++ r = d'.tokens ++ r') : branch word c ds stop = d' ∧ r = r' := by
  cases d' with
  | branch word' condition' body' stop' =>
    simp only [tokens, List.cons_append, List.append_assoc, List.nil_append, List.cons.injEq] at h
    obtain ⟨hword, h⟩ := h
    obtain ⟨rfl, hrest⟩ := hc h
    obtain ⟨rfl, hstop, hr⟩ := hbody stop.endsBody_of_end stop'.endsBody_of_end hrest
    exact ⟨by rw [TokenOf.ext hword, TokenOf.ext hstop], hr⟩
  | branchElse word' condition' thenBody' middle' elseBody' stop' =>
    -- one of them comes to its end where the other one goes on
    simp only [tokens, List.cons_append, List.append_assoc, List.nil_append, List.cons.injEq] at h
    obtain ⟨rfl, hrest⟩ := hc h.2
    obtain ⟨-, hstop, -⟩ := hbody stop.endsBody_of_end middle'.endsBody_of_else hrest
    exact nomatch TokenOf.kinds_eq hstop
  | _ => exact nomatch TokenOf.kinds_eq (List.cons.inj h).1

theorem branchElse_unambiguous {word : TokenOf (.keyword .ifWord)} {es : List StmtPhrase}
    {middle : TokenOf (.keyword .elseWord)} (hc : c.Delimited) (hthen : AllDelimited ds)
    (helse : AllDelimited es) (h : (branchElse word c ds middle es stop).tokens ++ r = d'.tokens ++ r') :
    branchElse word c ds middle es stop = d' ∧ r = r' := by
  cases d' with
  | branch word' condition' body' stop' =>
    simp only [tokens, List.cons_append, List.append_assoc, List.nil_append, List.cons.injEq] at h
    obtain ⟨rfl, hrest⟩ := hc h.2
    obtain ⟨-, hstop, -⟩ := hthen middle.endsBody_of_else stop'.endsBody_of_end hrest
    exact nomatch TokenOf.kinds_eq hstop
  | branchElse word' condition' thenBody' middle' elseBody' stop' =>
    simp only [tokens, List.cons_append, List.append_assoc, List.nil_append, List.cons.injEq] at h
    obtain ⟨hword, h⟩ := h
    obtain ⟨rfl, hrest⟩ := hc h
    obtain ⟨rfl, hmiddle, hrest'⟩ := hthen middle.endsBody_of_else middle'.endsBody_of_else hrest
    obtain ⟨rfl, hstop, hr⟩ := helse stop.endsBody_of_end stop'.endsBody_of_end hrest'
    exact ⟨by rw [TokenOf.ext hword, TokenOf.ext hmiddle, TokenOf.ext hstop], hr⟩
  | _ => exact nomatch TokenOf.kinds_eq (List.cons.inj h).1

theorem times_unambiguous {word : TokenOf (.keyword .times)} (hc : c.Delimited) (hbody : AllDelimited ds)
    (h : (times word c ds stop).tokens ++ r = d'.tokens ++ r') : times word c ds stop = d' ∧ r = r' := by
  cases d' with
  | times word' count' body' stop' =>
    simp only [tokens, List.cons_append, List.append_assoc, List.nil_append, List.cons.injEq] at h
    obtain ⟨hword, h⟩ := h
    obtain ⟨rfl, hrest⟩ := hc h
    obtain ⟨rfl, hstop, hr⟩ := hbody stop.endsBody_of_end stop'.endsBody_of_end hrest
    exact ⟨by rw [TokenOf.ext hword, TokenOf.ext hstop], hr⟩
  | _ => exact nomatch TokenOf.kinds_eq (List.cons.inj h).1

theorem forever_unambiguous {word : TokenOf (.keyword .forever)} (hbody : AllDelimited ds)
    (h : (forever word ds stop).tokens ++ r = d'.tokens ++ r') : forever word ds stop = d' ∧ r = r' := by
  cases d' with
  | forever word' body' stop' =>
    simp only [tokens, List.cons_append, List.append_assoc, List.nil_append, List.cons.injEq] at h
    obtain ⟨hword, hrest⟩ := h
    obtain ⟨rfl, hstop, hr⟩ := hbody stop.endsBody_of_end stop'.endsBody_of_end hrest
    exact ⟨by rw [TokenOf.ext hword, TokenOf.ext hstop], hr⟩
  | _ => exact nomatch TokenOf.kinds_eq (List.cons.inj h).1

theorem call_unambiguous {opener : TokenOf .lparen} {args : List ExprPhrase} {close : TokenOf .rparen}
    (hcallee : c.Delimited) (hargs : ExprPhrase.AllDelimited args)
    (h : (call opener c args close).tokens ++ r = d'.tokens ++ r') :
    call opener c args close = d' ∧ r = r' := by
  cases d' with
  | call opener' callee' args' close' =>
    simp only [tokens, List.cons_append, List.append_assoc, List.nil_append, List.cons.injEq] at h
    obtain ⟨hopener, h⟩ := h
    obtain ⟨rfl, hrest⟩ := hcallee h
    obtain ⟨rfl, rfl, hr⟩ := hargs hrest
    exact ⟨by rw [TokenOf.ext hopener], hr⟩
  | _ => exact nomatch TokenOf.kinds_eq (List.cons.inj h).1

end StmtPhrase

mutual

theorem ExprPhrase.unambiguous (d d' : ExprPhrase) {r r' : List Token}
    (h : d.tokens ++ r = d'.tokens ++ r') : d = d' ∧ r = r' := by
  cases d with
  | atom a =>
    cases d' with
    | atom a' =>
      simp only [ExprPhrase.tokens, List.singleton_append, List.cons.injEq] at h
      exact ⟨by rw [Atom.eq_of_token h.1], h.2⟩
    | call => exact absurd (List.cons.inj h).1 Atom.token_ne_opener
    | function => exact absurd (List.cons.inj h).1 Atom.token_ne_function
  | call opener callee args close =>
    cases d' with
    | atom a' => exact absurd (List.cons.inj h).1.symm Atom.token_ne_opener
    | call opener' callee' args' close' =>
      simp only [ExprPhrase.tokens, List.cons_append, List.append_assoc, List.nil_append,
        List.cons.injEq] at h
      obtain ⟨hopener, h⟩ := h
      obtain ⟨rfl, hargs⟩ := ExprPhrase.unambiguous callee callee' h
      obtain ⟨rfl, rfl, hr⟩ := ExprPhrase.args_unambiguous args args' hargs
      exact ⟨by rw [TokenOf.ext hopener], hr⟩
    | function => exact nomatch TokenOf.kinds_eq (List.cons.inj h).1
  | function word opener params close body stop =>
    cases d' with
    | atom a' => exact absurd (List.cons.inj h).1.symm Atom.token_ne_function
    | call => exact nomatch TokenOf.kinds_eq (List.cons.inj h).1
    | function word' opener' params' close' body' stop' =>
      simp only [ExprPhrase.tokens, List.cons_append, List.append_assoc, List.nil_append,
        List.cons.injEq] at h
      obtain ⟨hword, hopener, h⟩ := h
      obtain ⟨rfl, rfl, hbody⟩ := params_unambiguous h
      obtain ⟨rfl, hstop, hr⟩ :=
        StmtPhrase.body_unambiguous body body' stop.endsBody_of_end stop'.endsBody_of_end hbody
      exact ⟨by rw [TokenOf.ext hword, TokenOf.ext hopener, TokenOf.ext hstop], hr⟩
termination_by structural d

theorem ExprPhrase.args_unambiguous (ds ds' : List ExprPhrase) {close close' : TokenOf .rparen}
    {r r' : List Token}
    (h : ExprPhrase.tokensOf ds ++ close.token :: r = ExprPhrase.tokensOf ds' ++ close'.token :: r') :
    ds = ds' ∧ close = close' ∧ r = r' := by
  cases ds with
  | nil =>
    cases ds' with
    | nil =>
      obtain ⟨hclose, hr⟩ := List.cons.inj h
      exact ⟨rfl, TokenOf.ext hclose, hr⟩
    | cons d' ds' =>
      obtain ⟨t, rest, htokens, hkind⟩ := d'.exists_first
      rw [ExprPhrase.tokensOf, ExprPhrase.tokensOf, htokens] at h
      exact absurd ((List.cons.inj h).1 ▸ close.kind_eq) hkind
  | cons d ds =>
    cases ds' with
    | nil =>
      obtain ⟨t, rest, htokens, hkind⟩ := d.exists_first
      rw [ExprPhrase.tokensOf, ExprPhrase.tokensOf, htokens] at h
      exact absurd ((List.cons.inj h).1 ▸ close'.kind_eq) hkind
    | cons d' ds' =>
      simp only [ExprPhrase.tokensOf, List.append_assoc] at h
      obtain ⟨rfl, hargs⟩ := ExprPhrase.unambiguous d d' h
      obtain ⟨rfl, hclose, hr⟩ := ExprPhrase.args_unambiguous ds ds' hargs
      exact ⟨rfl, hclose, hr⟩
termination_by structural ds

theorem StmtPhrase.unambiguous (d d' : StmtPhrase) {r r' : List Token}
    (h : d.tokens ++ r = d'.tokens ++ r') : d = d' ∧ r = r' := by
  cases d with
  | set word target value stop => exact StmtPhrase.set_unambiguous (ExprPhrase.unambiguous value _) h
  | branch word condition body stop =>
    exact StmtPhrase.branch_unambiguous (ExprPhrase.unambiguous condition _)
      (StmtPhrase.body_unambiguous body _) h
  | branchElse word condition thenBody middle elseBody stop =>
    exact StmtPhrase.branchElse_unambiguous (ExprPhrase.unambiguous condition _)
      (StmtPhrase.body_unambiguous thenBody _) (StmtPhrase.body_unambiguous elseBody _) h
  | times word count body stop =>
    exact StmtPhrase.times_unambiguous (ExprPhrase.unambiguous count _)
      (StmtPhrase.body_unambiguous body _) h
  | forever word body stop =>
    exact StmtPhrase.forever_unambiguous (StmtPhrase.body_unambiguous body _) h
  | call opener callee args close =>
    exact StmtPhrase.call_unambiguous (ExprPhrase.unambiguous callee _)
      (ExprPhrase.args_unambiguous args _) h
termination_by structural d

theorem StmtPhrase.body_unambiguous (ds ds' : List StmtPhrase) {stop stop' : Token}
    (hstop : stop.kind.endsBody) (hstop' : stop'.kind.endsBody) {r r' : List Token}
    (h : StmtPhrase.tokensOf ds ++ stop :: r = StmtPhrase.tokensOf ds' ++ stop' :: r') :
    ds = ds' ∧ stop = stop' ∧ r = r' := by
  cases ds with
  | nil =>
    cases ds' with
    | nil => exact ⟨rfl, List.cons.inj h⟩
    | cons d' ds' =>
      obtain ⟨t, rest, htokens, hkind⟩ := d'.exists_first
      rw [StmtPhrase.tokensOf, StmtPhrase.tokensOf, htokens] at h
      rw [(List.cons.inj h).1, hkind] at hstop
      cases hstop
  | cons d ds =>
    cases ds' with
    | nil =>
      obtain ⟨t, rest, htokens, hkind⟩ := d.exists_first
      rw [StmtPhrase.tokensOf, StmtPhrase.tokensOf, htokens] at h
      rw [← (List.cons.inj h).1, hkind] at hstop'
      cases hstop'
    | cons d' ds' =>
      simp only [StmtPhrase.tokensOf, List.append_assoc] at h
      obtain ⟨rfl, hbody⟩ := StmtPhrase.unambiguous d d' h
      obtain ⟨rfl, hs⟩ := StmtPhrase.body_unambiguous ds ds' hstop hstop' hbody
      exact ⟨rfl, hs⟩
termination_by structural ds

end

/-- Tokens are statements in one way at most. -/
theorem StmtPhrase.eq_of_tokensOf {ds ds' : List StmtPhrase}
    (h : StmtPhrase.tokensOf ds = StmtPhrase.tokensOf ds') : ds = ds' := by
  -- a word that ends both lists makes bodies of them
  let stop : Token := ⟨.keyword .endWord, Keyword.endWord.word, .nowhere⟩
  have h' : StmtPhrase.tokensOf ds ++ stop :: [] = StmtPhrase.tokensOf ds' ++ stop :: [] := by rw [h]
  exact (StmtPhrase.body_unambiguous ds ds' rfl rfl h').1

end Stepwise
