import Mathlib
import Stepwise.Proofs.Grammar

/-! Reading follows the grammar: what is read is the tree of a phrase, and every admissible phrase is
read as its tree. -/

namespace Stepwise

section

variable {α β : Type} {before before' : List Token}

/-- What has been read was put together of the tokens used up. -/
def Derives (P : List Token → α → Prop) (x : ReadResult α before) : Prop :=
  ∀ r, x = .ok r → ∃ used, before = used ++ r.rest ∧ P used r.value

/-- Reading comes to a value, and some tokens are left. -/
def Yields (x : ReadResult α before) (value : α) (rest : List Token) : Prop :=
  ∃ r, x = .ok r ∧ r.value = value ∧ r.rest = rest

variable {P : List Token → α → Prop} {Q : List Token → β → Prop}

theorem derives_fault (cause : Cause) (t : Token) :
    Derives P (fault cause t : ReadResult α before) := by
  rintro r ⟨⟩

theorem derives_ok {r : Reading α before} (used rest : List Token) (hrest : r.rest = rest)
    (h : before = used ++ rest) (hP : P used r.value) : Derives P (.ok r) := by
  rintro _ ⟨⟩
  exact ⟨used, hrest ▸ h, hP⟩

theorem append_follow {ts ts' ts'' used used' : List Token} (h : ts = used ++ ts')
    (h' : ts' = used' ++ ts'') : ts = used ++ used' ++ ts'' := by
  rw [h, h', List.append_assoc]

theorem cons_follow {t : Token} {ts ts' used : List Token} (h : ts = used ++ ts') :
    t :: ts = t :: used ++ ts' :=
  congrArg (t :: ·) h

theorem derives_single {a : α} {t : Token} {rest : List Token} (h : P [t] a) :
    Derives P (.ok (Reading.single a t rest)) :=
  derives_ok [t] rest rfl rfl h

theorem Derives.bind {x : ReadResult α before} {f : Reading α before → ReadResult β before'}
    (hx : Derives P x)
    (hf : ∀ r used, before = used ++ r.rest → P used r.value → Derives Q (f r)) :
    Derives Q (x >>= f) := by
  intro r h
  obtain ⟨a, ha, h⟩ := except_bind_eq_ok h
  obtain ⟨used, hbefore, hP⟩ := hx a ha
  exact hf a used hbefore hP r h

theorem Yields.bind {x : ReadResult α before} {f : Reading α before → ReadResult β before'}
    {a : α} {b : β} {rest rest' : List Token} (hx : Yields x a rest)
    (hf : ∀ r : Reading α before, r.value = a → r.rest = rest → Yields (f r) b rest') :
    Yields (x >>= f) b rest' := by
  obtain ⟨r, rfl, hvalue, hrest⟩ := hx
  exact hf r hvalue hrest

theorem yields_single (a : α) (t : Token) (rest : List Token) :
    Yields (.ok (Reading.single a t rest)) a rest :=
  ⟨_, rfl, rfl, rfl⟩

end

/-- Tokens that a scan can leave. -/
def AllSpelled (ts : List Token) : Prop := ∀ t ∈ ts, t.Spelled

theorem AllSpelled.tail {t : Token} {ts : List Token} (h : AllSpelled (t :: ts)) : AllSpelled ts :=
  fun t' ht' => h t' (List.mem_cons_of_mem t ht')

theorem AllSpelled.rest {used ts : List Token} (h : AllSpelled (used ++ ts)) : AllSpelled ts :=
  fun t ht => h t (List.mem_append_right used ht)

/-- The first token, whose kind is known. -/
def AllSpelled.first {t : Token} {ts : List Token} (h : AllSpelled (t :: ts)) {kind : TokenKind}
    (hkind : t.kind = kind) : TokenOf kind :=
  ⟨t, hkind, hkind ▸ h t List.mem_cons_self⟩

@[simp] theorem AllSpelled.first_token {t : Token} {ts : List Token} (h : AllSpelled (t :: ts))
    {kind : TokenKind} (hkind : t.kind = kind) : (h.first hkind).token = t := rfl

theorem peek_append (eof stop : Token) (ts rest : List Token) :
    peek eof (ts ++ stop :: rest) = peek stop ts := by
  cases ts with
  | nil => rfl
  | cons t ts => rfl

namespace ExprPhrase

/-- The tokens are those of an admissible phrase, and the tree is its tree. -/
def Of (used : List Token) (e : Expr) : Prop :=
  ∃ d : ExprPhrase, d.Admissible ∧ used = d.tokens ∧ e = d.tree

def ArgsOf (used : List Token) (a : Arguments) : Prop :=
  ∃ (ds : List ExprPhrase) (close : TokenOf .rparen), ExprPhrase.AllAdmissible ds ∧
    used = ExprPhrase.tokensOf ds ++ [close.token] ∧ a = ⟨ExprPhrase.trees ds, close.token⟩

def CallOf (used : List Token) (c : CallParts) : Prop :=
  ∃ (callee : ExprPhrase) (ds : List ExprPhrase) (close : TokenOf .rparen),
    callee.Admissible ∧ ExprPhrase.AllAdmissible ds ∧
    used = callee.tokens ++ (ExprPhrase.tokensOf ds ++ [close.token]) ∧
    c = ⟨callee.tree, ⟨ExprPhrase.trees ds, close.token⟩⟩

/-- What follows the word of a function that starts with the token `word`. -/
def FunctionOf (word : TokenOf (.keyword .function)) (used : List Token) (e : Expr) : Prop :=
  Of (word.token :: used) e

end ExprPhrase

namespace StmtPhrase

def Of (used : List Token) (s : Stmt) : Prop :=
  ∃ d : StmtPhrase, d.Admissible ∧ used = d.tokens ∧ s = d.tree

/-- The word that ends a list of statements is `end`, or `else` where it may stand. -/
def BodyOf (elseAllowed : Bool) (used : List Token) (b : Body) : Prop :=
  ∃ ds : List StmtPhrase, StmtPhrase.AllAdmissible ds ∧
    used = StmtPhrase.tokensOf ds ++ [b.close] ∧ b.stmts = StmtPhrase.trees ds ∧
    ((∃ stop : TokenOf (.keyword .endWord), stop.token = b.close) ∨
      elseAllowed = true ∧ ∃ middle : TokenOf (.keyword .elseWord), middle.token = b.close)

end StmtPhrase

theorem Body.block_eq {ds : List StmtPhrase} {b : Body} {before rest : List Token} (eof : Token)
    (hbefore : before = StmtPhrase.tokensOf ds ++ [b.close] ++ rest)
    (hstmts : b.stmts = StmtPhrase.trees ds) :
    b.block (peek eof before) =
      blockBefore b.close (StmtPhrase.tokensOf ds) (StmtPhrase.trees ds) := by
  rw [Body.block, blockBefore, hstmts, hbefore, List.append_assoc, List.singleton_append, peek_append]

section Leaves

variable {t : Token} {rest ts : List Token}

theorem readNumber_derives (h : AllSpelled (t :: rest)) (hkind : t.kind = .int) :
    Derives ExprPhrase.Of (readNumber t rest) := by
  let numeral := h.first hkind
  have hword := readWord?_of_isNumeral (show IsNumeral t.raw from numeral.spells)
  rw [readNumber, hword]
  split
  · next n hn =>
    split at hn
    · next hfits =>
      cases hn
      exact derives_single ⟨.atom (.number numeral), hfits, rfl, rfl⟩
    · cases hn
  · exact derives_fault _ t

theorem readTarget_derives (eof : Token) (h : AllSpelled ts) :
    Derives (fun used s => ∃ target : TokenOf .ident, used = [target.token] ∧ s = target.symbol)
      (readTarget eof ts) := by
  cases ts with
  | nil => exact derives_fault _ eof
  | cons t rest =>
    rw [readTarget]
    split
    · next hkind => exact derives_single ⟨h.first hkind, rfl, rfl⟩
    all_goals exact derives_fault _ t

theorem readSetEnd_derives (eof : Token) (h : AllSpelled ts) :
    Derives (fun used t => ∃ stop : TokenOf (.keyword .endWord), used = [stop.token] ∧ t = stop.token)
      (readSetEnd eof ts) := by
  cases ts with
  | nil => exact derives_fault _ eof
  | cons t rest =>
    rw [readSetEnd]
    split
    · next hkind => exact derives_single ⟨h.first hkind, rfl, rfl⟩
    · exact derives_fault _ t

theorem readParamsOpen_derives (eof : Token) (h : AllSpelled ts) :
    Derives (fun used t => ∃ opener : TokenOf .lparen, used = [opener.token] ∧ t = opener.token)
      (readParamsOpen eof ts) := by
  cases ts with
  | nil => exact derives_fault _ eof
  | cons t rest =>
    rw [readParamsOpen]
    split
    · next hkind => exact derives_single ⟨h.first hkind, rfl, rfl⟩
    · exact derives_fault _ t

theorem readParams_derives (opener : Token) (seen : List Name) (h : AllSpelled ts) :
    Derives (fun used ps => ∃ (params : List (TokenOf .ident)) (close : TokenOf .rparen),
        (params.map fun t => t.token.raw).Nodup ∧ (∀ p ∈ params, p.token.raw ∉ seen) ∧
        used = params.map TokenOf.token ++ [close.token] ∧
        ps = (params.map TokenOf.symbol, close.token))
      (readParams opener seen ts) := by
  induction ts generalizing seen with
  | nil => exact derives_fault _ opener
  | cons t rest ih =>
    rw [readParams]
    split
    · next hkind => exact derives_single ⟨[], h.first hkind, List.nodup_nil, by simp, rfl, rfl⟩
    · next hkind =>
      split
      · exact derives_fault _ t
      next hseen =>
      have hseen : t.raw ∉ seen := by simpa using hseen
      refine (ih (t.raw :: seen) h.tail).bind fun r used hrest hr => ?_
      obtain ⟨params, close, hnodup, hfresh, rfl, hvalue⟩ := hr
      refine derives_ok _ r.rest rfl (cons_follow hrest)
        ⟨h.first hkind :: params, close, ?_, ?_, rfl, ?_⟩
      · rw [List.map_cons, List.nodup_cons]
        refine ⟨fun hmem => ?_, hnodup⟩
        obtain ⟨p, hp, hraw⟩ := List.mem_map.mp hmem
        exact hfresh p hp (hraw ▸ List.mem_cons_self)
      · rintro p (_ | ⟨_, hp⟩)
        · exact hseen
        · exact fun hmem => hfresh p hp (List.mem_cons_of_mem _ hmem)
      · change (_ :: r.value.1, r.value.2) = _
        rw [hvalue]
        rfl
    all_goals exact derives_fault _ t

end Leaves

/-- Reading goes by the grammar where there are so many tokens at most. -/
structure DerivesUpTo (eof : Token) (n : Nat) : Prop where
  expr : ∀ ts : List Token, ts.length ≤ n → AllSpelled ts → Derives ExprPhrase.Of (readExpr eof ts)
  call : ∀ (opener : Token) (ts : List Token), ts.length ≤ n → AllSpelled ts →
    Derives ExprPhrase.CallOf (readCall eof opener ts)
  body : ∀ (opener : Token) (elseAllowed : Bool) (ts : List Token), ts.length ≤ n → AllSpelled ts →
    Derives (StmtPhrase.BodyOf elseAllowed) (readBody eof opener elseAllowed ts)

section Statements

variable {eof t : Token} {rest : List Token} (hreads : DerivesUpTo eof rest.length)
  (h : AllSpelled (t :: rest))

include hreads h

theorem readSet_derives (hkind : t.kind = .keyword .set) :
    Derives StmtPhrase.Of (readStmt eof (t :: rest)) := by
  rw [readStmt.eq_def]
  simp only [hkind]
  refine (readTarget_derives eof h.tail).bind fun target used hrest htarget => ?_
  have := target.shorter
  obtain ⟨symbol, rfl, hsymbol⟩ := htarget
  have hspelled : AllSpelled target.rest := (hrest ▸ h.tail).rest
  refine (hreads.expr target.rest (by omega) hspelled).bind fun value used' hrest' hvalue => ?_
  obtain ⟨d, hd, rfl, hvalue⟩ := hvalue
  have hspelled : AllSpelled value.rest := (hrest' ▸ hspelled).rest
  refine (readSetEnd_derives eof hspelled).bind fun close used'' hrest'' hclose => ?_
  obtain ⟨stop, rfl, hclose⟩ := hclose
  refine derives_ok _ close.rest rfl
    (cons_follow (append_follow hrest (append_follow hrest' hrest'')))
    ⟨.set (h.first hkind) symbol d stop, hd, rfl, ?_⟩
  simp only [Reading.follow, Reading.map, hsymbol, hvalue, hclose]
  rfl

/-- A condition, with or without a second block. -/
theorem readBranch_derives (hkind : t.kind = .keyword .ifWord) :
    Derives StmtPhrase.Of (readStmt eof (t :: rest)) := by
  rw [readStmt.eq_def]
  simp only [hkind]
  refine (hreads.expr rest (Nat.le_refl _) h.tail).bind fun cond used hrest hcond => ?_
  have := cond.shorter
  obtain ⟨c, hc, rfl, hcond⟩ := hcond
  have hspelled : AllSpelled cond.rest := (hrest ▸ h.tail).rest
  refine (hreads.body t true cond.rest (by omega) hspelled).bind fun thenBody used' hrest' hthen => ?_
  have := thenBody.shorter
  obtain ⟨ds, hds, rfl, hstmts, hclose⟩ := hthen
  have hspelled : AllSpelled thenBody.rest := (hrest' ▸ hspelled).rest
  split
  · next helse =>
    obtain ⟨stop, hstop⟩ | ⟨-, middle, hmiddle⟩ := hclose
    · rw [← hstop, stop.kind_eq] at helse
      cases helse
    refine (hreads.body _ false thenBody.rest (by omega) hspelled).bind
      fun elseBody used'' hrest'' helse => ?_
    obtain ⟨es, hes, rfl, hstmts', ⟨stop, hstop⟩ | ⟨⟨⟩, -⟩⟩ := helse
    refine derives_ok _ elseBody.rest rfl
      (cons_follow (append_follow hrest (append_follow hrest' hrest'')))
      ⟨.branchElse (h.first hkind) c ds middle es stop, ⟨hc, hds, hes⟩, ?_, ?_⟩
    · simp [StmtPhrase.tokens, hmiddle, hstop]
    · simp only [Reading.follow, Reading.map, hcond, StmtPhrase.tree,
        Body.block_eq eof hrest' hstmts, Body.block_eq eof hrest'' hstmts', hmiddle, hstop]
      rfl
  · next helse =>
    obtain ⟨stop, hstop⟩ | ⟨-, middle, hmiddle⟩ := hclose
    · refine derives_ok _ thenBody.rest rfl (cons_follow (append_follow hrest hrest'))
        ⟨.branch (h.first hkind) c ds stop, ⟨hc, hds⟩, ?_, ?_⟩
      · simp [StmtPhrase.tokens, hstop]
      · simp only [Reading.follow, Reading.map, hcond, StmtPhrase.tree,
          Body.block_eq eof hrest' hstmts, hstop]
        rfl
    · exact absurd (hmiddle ▸ middle.kind_eq) helse

theorem readTimes_derives (hkind : t.kind = .keyword .times) :
    Derives StmtPhrase.Of (readStmt eof (t :: rest)) := by
  rw [readStmt.eq_def]
  simp only [hkind]
  refine (hreads.expr rest (Nat.le_refl _) h.tail).bind fun count used hrest hcount => ?_
  have := count.shorter
  obtain ⟨c, hc, rfl, hcount⟩ := hcount
  have hspelled : AllSpelled count.rest := (hrest ▸ h.tail).rest
  refine (hreads.body t false count.rest (by omega) hspelled).bind fun body used' hrest' hbody => ?_
  obtain ⟨ds, hds, rfl, hstmts, ⟨stop, hstop⟩ | ⟨⟨⟩, -⟩⟩ := hbody
  refine derives_ok _ body.rest rfl (cons_follow (append_follow hrest hrest'))
    ⟨.times (h.first hkind) c ds stop, ⟨hc, hds⟩, ?_, ?_⟩
  · simp [StmtPhrase.tokens, hstop]
  · simp only [Reading.follow, Reading.map, hcount, StmtPhrase.tree,
      Body.block_eq eof hrest' hstmts, hstop]
    rfl

/-- A loop without a count. -/
theorem readForever_derives (hkind : t.kind = .keyword .forever) :
    Derives StmtPhrase.Of (readStmt eof (t :: rest)) := by
  rw [readStmt.eq_def]
  simp only [hkind]
  refine (hreads.body t false rest (Nat.le_refl _) h.tail).bind fun body used hrest hbody => ?_
  obtain ⟨ds, hds, rfl, hstmts, ⟨stop, hstop⟩ | ⟨⟨⟩, -⟩⟩ := hbody
  refine derives_ok _ body.rest rfl (cons_follow hrest)
    ⟨.forever (h.first hkind) ds stop, hds, ?_, ?_⟩
  · simp [StmtPhrase.tokens, hstop]
  · simp only [Reading.follow, Reading.map, StmtPhrase.tree,
      Body.block_eq eof hrest hstmts, hstop]
    rfl

theorem readCallStmt_derives (hkind : t.kind = .lparen) :
    Derives StmtPhrase.Of (readStmt eof (t :: rest)) := by
  rw [readStmt.eq_def]
  simp only [hkind]
  refine (hreads.call t rest (Nat.le_refl _) h.tail).bind fun r used hrest hr => ?_
  obtain ⟨callee, ds, close, hcallee, hds, rfl, hvalue⟩ := hr
  refine derives_ok _ r.rest rfl (cons_follow hrest)
    ⟨.call (h.first hkind) callee ds close, ⟨hcallee, hds⟩, rfl, ?_⟩
  simp only [Reading.follow, Reading.map, hvalue]
  rfl

end Statements

mutual

theorem readExpr_derives (eof : Token) (ts : List Token) (h : AllSpelled ts) :
    Derives ExprPhrase.Of (readExpr eof ts) := by
  rw [readExpr.eq_def]
  match ts, h with
  | [], _ => exact derives_fault _ eof
  | t :: rest, h =>
    dsimp only
    split
    · next hkind => exact readNumber_derives h hkind
    · next hkind =>
      exact derives_single ⟨.atom (.string (h.first hkind)), trivial, rfl, rfl⟩
    · next hkind =>
      exact derives_single ⟨.atom (.symbol (h.first hkind)), trivial, rfl, rfl⟩
    · next hkind => exact derives_single ⟨.atom (.yes (h.first hkind)), trivial, rfl, rfl⟩
    · next hkind => exact derives_single ⟨.atom (.no (h.first hkind)), trivial, rfl, rfl⟩
    · next hkind => exact derives_single ⟨.atom (.null (h.first hkind)), trivial, rfl, rfl⟩
    · next hkind =>
      exact derives_single ⟨.atom (.forever (h.first hkind)), trivial, rfl, rfl⟩
    · next hkind =>
      refine (readFunction_derives eof (h.first hkind) rest h.tail).bind fun r used hrest hr => ?_
      exact derives_ok (t :: used) r.rest rfl (cons_follow hrest) hr
    · next hkind =>
      refine (readCall_derives eof t rest h.tail).bind fun r used hrest hr => ?_
      obtain ⟨callee, ds, close, hcallee, hds, rfl, hvalue⟩ := hr
      refine derives_ok _ r.rest rfl (cons_follow hrest)
        ⟨.call (h.first hkind) callee ds close, ⟨hcallee, hds⟩, rfl, ?_⟩
      simp only [Reading.follow, Reading.map, hvalue]
      rfl
    all_goals exact derives_fault _ t
termination_by 2 * ts.length

theorem readCall_derives (eof opener : Token) (ts : List Token) (h : AllSpelled ts) :
    Derives ExprPhrase.CallOf (readCall eof opener ts) := by
  rw [readCall]
  split
  · rintro r ⟨⟩
  · refine (readExpr_derives eof ts h).bind fun callee used hts hcallee => ?_
    have := callee.shorter
    obtain ⟨d, hd, rfl, hvalue⟩ := hcallee
    have hspelled : AllSpelled callee.rest := (hts ▸ h).rest
    refine (readArgs_derives eof opener callee.rest hspelled).bind fun args used' hrest hargs => ?_
    obtain ⟨ds, close, hds, rfl, hargs⟩ := hargs
    refine derives_ok _ args.rest rfl (append_follow hts hrest)
      ⟨d, ds, close, hd, hds, rfl, ?_⟩
    simp only [Reading.follow, Reading.map, hvalue, hargs]
termination_by 2 * ts.length + 1

theorem readArgs_derives (eof opener : Token) (ts : List Token) (h : AllSpelled ts) :
    Derives ExprPhrase.ArgsOf (readArgs eof opener ts) := by
  rw [readArgs.eq_def]
  match ts, h with
  | [], _ => exact derives_fault _ opener
  | t :: rest, h =>
    dsimp only
    split
    · next hkind => exact derives_single ⟨[], h.first hkind, trivial, rfl, rfl⟩
    · refine (readExpr_derives eof (t :: rest) h).bind fun e used hts he => ?_
      have := e.length_rest_le
      obtain ⟨d, hd, rfl, hvalue⟩ := he
      have hspelled : AllSpelled e.rest := (hts ▸ h).rest
      refine (readArgs_derives eof opener e.rest hspelled).bind fun more used' hrest hmore => ?_
      obtain ⟨ds, close, hds, rfl, hmore⟩ := hmore
      refine derives_ok _ more.rest rfl (append_follow hts hrest)
        ⟨d :: ds, close, ⟨hd, hds⟩, ?_, ?_⟩
      · rw [ExprPhrase.tokensOf, List.append_assoc]
      · simp only [Reading.follow, Reading.map, hvalue, hmore, ExprPhrase.trees]
termination_by 2 * ts.length + 1

theorem readFunction_derives (eof : Token) (word : TokenOf (.keyword .function)) (ts : List Token)
    (h : AllSpelled ts) :
    Derives (ExprPhrase.FunctionOf word) (readFunction eof word.token ts) := by
  rw [readFunction]
  refine (readParamsOpen_derives eof h).bind fun paren used hts hparen => ?_
  have := paren.shorter
  obtain ⟨opener, rfl, hopener⟩ := hparen
  have hspelled : AllSpelled paren.rest := (hts ▸ h).rest
  refine (readParams_derives paren.value [] hspelled).bind fun params used' hrest hparams => ?_
  have := params.shorter
  obtain ⟨names, close, hnodup, -, rfl, hparams⟩ := hparams
  have hspelled : AllSpelled params.rest := (hrest ▸ hspelled).rest
  refine (readBody_derives eof word.token false params.rest hspelled).bind
    fun body used'' hrest' hbody => ?_
  obtain ⟨ds, hds, rfl, hstmts, ⟨stop, hstop⟩ | ⟨⟨⟩, -⟩⟩ := hbody
  refine derives_ok _ body.rest rfl (append_follow hts (append_follow hrest hrest'))
    ⟨.function word opener names close ds stop, ⟨hnodup, hds⟩, ?_, ?_⟩
  · simp [ExprPhrase.tokens, hstop]
  · simp only [Reading.follow, Reading.map, hparams, hopener, ExprPhrase.tree,
      Body.block_eq eof hrest' hstmts, hstop]
termination_by 2 * ts.length + 1

theorem readBody_derives (eof opener : Token) (elseAllowed : Bool) (ts : List Token)
    (h : AllSpelled ts) :
    Derives (StmtPhrase.BodyOf elseAllowed) (readBody eof opener elseAllowed ts) := by
  rw [readBody.eq_def]
  match ts, h with
  | [], _ => exact derives_fault _ opener
  | t :: rest, h =>
    dsimp only
    split
    · next hkind =>
      rw [Bool.or_eq_true, Bool.and_eq_true, decide_eq_true_eq, decide_eq_true_eq] at hkind
      refine derives_single ⟨[], trivial, rfl, rfl, ?_⟩
      obtain hkind | ⟨hallowed, hkind⟩ := hkind
      · exact .inl ⟨h.first hkind, rfl⟩
      · exact .inr ⟨hallowed, h.first hkind, rfl⟩
    · refine (readStmt_derives eof (t :: rest) h).bind fun s used hts hs => ?_
      have := s.length_rest_le
      obtain ⟨d, hd, rfl, hvalue⟩ := hs
      have hspelled : AllSpelled s.rest := (hts ▸ h).rest
      refine (readBody_derives eof opener elseAllowed s.rest hspelled).bind
        fun more used' hrest hmore => ?_
      obtain ⟨ds, hds, rfl, hstmts, hclose⟩ := hmore
      refine derives_ok _ more.rest rfl (append_follow hts hrest)
        ⟨d :: ds, ⟨hd, hds⟩, ?_, ?_, hclose⟩
      · rw [StmtPhrase.tokensOf, List.append_assoc]
        rfl
      · simp only [Reading.follow, Reading.map, hvalue, hstmts, StmtPhrase.trees]
termination_by 2 * ts.length + 1

theorem readStmt_derives (eof : Token) (ts : List Token) (h : AllSpelled ts) :
    Derives StmtPhrase.Of (readStmt eof ts) := by
  match ts, h with
  | [], _ =>
    rw [readStmt.eq_def]
    exact derives_fault _ eof
  | t :: rest, h =>
    have hreads : DerivesUpTo eof rest.length := {
      expr us hus hs := readExpr_derives eof us hs
      call opener us hus hs := readCall_derives eof opener us hs
      body opener elseAllowed us hus hs := readBody_derives eof opener elseAllowed us hs }
    cases hkind : t.kind with
    | lparen => exact readCallStmt_derives hreads h hkind
    | keyword word =>
      cases word with
      | set => exact readSet_derives hreads h hkind
      | ifWord => exact readBranch_derives hreads h hkind
      | times => exact readTimes_derives hreads h hkind
      | forever => exact readForever_derives hreads h hkind
      | _ =>
        rw [readStmt.eq_def]
        simp only [hkind]
        exact derives_fault _ t
    | _ =>
      rw [readStmt.eq_def]
      simp only [hkind]
      exact derives_fault _ t
termination_by 2 * ts.length

end

section

variable {ts rest : List Token}

theorem readNumber_yields {t : TokenOf .int} (h : (Atom.number t).Admissible) :
    Yields (readNumber t.token rest) (Atom.number t).tree rest := by
  have hword := readWord?_of_isNumeral t.spells
  rw [if_pos (by exact h)] at hword
  rw [readNumber, hword]
  exact yields_single _ _ _

theorem readAtom_yields (eof : Token) {a : Atom} (ha : a.Admissible) :
    Yields (readExpr eof (a.token :: rest)) a.tree rest := by
  rw [readExpr.eq_def]
  cases a with
  | number t =>
    simp only [Atom.token, t.kind_eq]
    exact readNumber_yields ha
  | string t | yes t | no t | null t | symbol t | forever t =>
    simp only [Atom.token, t.kind_eq]
    exact yields_single _ _ _

theorem readTarget_yields (eof : Token) (t : TokenOf .ident) :
    Yields (readTarget eof (t.token :: rest)) t.symbol rest := by
  simp only [readTarget, t.kind_eq]
  exact yields_single _ _ _

theorem readSetEnd_yields (eof : Token) (t : TokenOf (.keyword .endWord))
    (h : ts = t.token :: rest) : Yields (readSetEnd eof ts) t.token rest := by
  subst h
  rw [readSetEnd, if_pos t.kind_eq]
  exact yields_single _ _ _

theorem readParamsOpen_yields (eof : Token) (t : TokenOf .lparen) :
    Yields (readParamsOpen eof (t.token :: rest)) t.token rest := by
  rw [readParamsOpen, if_pos t.kind_eq]
  exact yields_single _ _ _

theorem readParams_yields (opener : Token) {seen : List Name} {params : List (TokenOf .ident)}
    (close : TokenOf .rparen) (hnodup : (params.map fun t => t.token.raw).Nodup)
    (hfresh : ∀ p ∈ params, p.token.raw ∉ seen)
    (h : ts = params.map TokenOf.token ++ close.token :: rest) :
    Yields (readParams opener seen ts) (params.map TokenOf.symbol, close.token) rest := by
  induction params generalizing seen ts with
  | nil =>
    obtain rfl : ts = close.token :: rest := h
    simp only [readParams, close.kind_eq]
    exact yields_single _ _ _
  | cons p params ih =>
    obtain rfl : ts = p.token :: (params.map TokenOf.token ++ close.token :: rest) := h
    rw [List.map_cons, List.nodup_cons] at hnodup
    have hp : seen.contains p.token.raw = false := by
      simpa using hfresh p List.mem_cons_self
    have hfresh' (q : TokenOf .ident) (hq : q ∈ params) : q.token.raw ∉ p.token.raw :: seen := by
      intro hmem
      obtain heq | hmem := List.mem_cons.mp hmem
      · exact hnodup.1 (List.mem_map.mpr ⟨q, hq, heq⟩)
      · exact hfresh q (List.mem_cons_of_mem p hq) hmem
    simp only [readParams, p.kind_eq, hp]
    refine Yields.bind (ih hnodup.2 hfresh' rfl) fun r hvalue hrest => ?_
    refine ⟨_, rfl, ?_, hrest⟩
    simp only [Reading.follow, Reading.map, hvalue]
    rfl

end

theorem Body.block_of_yields {ds : List StmtPhrase} {stop : Token} {before rest : List Token}
    (eof : Token) (h : before = StmtPhrase.tokensOf ds ++ stop :: rest) :
    Body.block (peek eof before) ⟨StmtPhrase.trees ds, stop⟩ =
      blockBefore stop (StmtPhrase.tokensOf ds) (StmtPhrase.trees ds) := by
  rw [Body.block, blockBefore, h, peek_append]

theorem readCall_yields {eof opener close : Token} {callee : ExprPhrase} {args : List Expr}
    {ts rest rest' : List Token} (hts : ts = callee.tokens ++ rest)
    (hcallee : Yields (readExpr eof ts) callee.tree rest)
    (hargs : ∀ us, us = rest → Yields (readArgs eof opener us) ⟨args, close⟩ rest') :
    Yields (readCall eof opener ts) ⟨callee.tree, ⟨args, close⟩⟩ rest' := by
  have hpeek : (peek eof ts).kind ≠ .rparen := by
    obtain ⟨t, more, htokens, hkind⟩ := callee.exists_first
    rw [hts, htokens]
    exact hkind
  rw [readCall, if_neg hpeek]
  refine hcallee.bind fun c hvalue hrest => ?_
  refine (hargs c.rest hrest).bind fun a ha hrest' => ?_
  refine ⟨_, rfl, ?_, hrest'⟩
  simp only [Reading.follow, Reading.map, hvalue, ha]

/-- Where a word ends a list of statements. -/
def Token.Ends (elseAllowed : Bool) (t : Token) : Prop :=
  t.kind = .keyword .endWord ∨ elseAllowed = true ∧ t.kind = .keyword .elseWord

/-- The phrase is read back, whatever comes after it. -/
def ExprPhrase.ReadsBack (eof : Token) (d : ExprPhrase) : Prop :=
  ∀ ts rest, ts = d.tokens ++ rest → Yields (readExpr eof ts) d.tree rest

/-- The phrases are read back as a list of statements, whatever word ends it. -/
def StmtPhrase.BodyReadsBack (eof : Token) (ds : List StmtPhrase) : Prop :=
  ∀ opener elseAllowed (stop : Token), stop.Ends elseAllowed → ∀ ts rest,
    ts = StmtPhrase.tokensOf ds ++ stop :: rest →
      Yields (readBody eof opener elseAllowed ts) ⟨StmtPhrase.trees ds, stop⟩ rest

section Statements

variable {eof : Token} {ts rest : List Token} {condition value : ExprPhrase}
  {body thenBody elseBody : List StmtPhrase}

theorem readSet_yields (hvalue : value.ReadsBack eof) (word : TokenOf (.keyword .set))
    (target : TokenOf .ident) (stop : TokenOf (.keyword .endWord))
    (h : ts = (StmtPhrase.set word target value stop).tokens ++ rest) :
    Yields (readStmt eof ts) (StmtPhrase.set word target value stop).tree rest := by
  obtain rfl : ts = word.token :: target.token :: (value.tokens ++ stop.token :: rest) := by
    simpa [StmtPhrase.tokens] using h
  rw [readStmt.eq_def]
  simp only [word.kind_eq]
  refine Yields.bind (readTarget_yields eof target) fun r htarget hrest => ?_
  refine Yields.bind (hvalue _ _ hrest) fun r' hvalue hrest' => ?_
  refine Yields.bind (readSetEnd_yields eof stop hrest') fun r'' hstop hrest'' => ?_
  refine ⟨_, rfl, ?_, hrest''⟩
  simp only [Reading.follow, Reading.map, htarget, hvalue, hstop]
  rfl

theorem readBranch_yields (hcondition : condition.ReadsBack eof) (hbody : StmtPhrase.BodyReadsBack eof body)
    (word : TokenOf (.keyword .ifWord)) (stop : TokenOf (.keyword .endWord))
    (h : ts = (StmtPhrase.branch word condition body stop).tokens ++ rest) :
    Yields (readStmt eof ts) (StmtPhrase.branch word condition body stop).tree rest := by
  obtain rfl : ts = word.token ::
      (condition.tokens ++ (StmtPhrase.tokensOf body ++ stop.token :: rest)) := by
    simpa [StmtPhrase.tokens] using h
  rw [readStmt.eq_def]
  simp only [word.kind_eq]
  refine Yields.bind (hcondition _ _ rfl) fun r hcond hrest => ?_
  refine Yields.bind (hbody word.token true stop.token (.inl stop.kind_eq) _ _ hrest)
    fun r' hbody hrest' => ?_
  have hkind : r'.value.close.kind ≠ .keyword .elseWord := by
    rw [hbody]
    intro helse
    cases stop.kind_eq.symm.trans helse
  rw [if_neg hkind]
  refine ⟨_, rfl, ?_, hrest'⟩
  simp only [Reading.follow, Reading.map, hcond, hbody, Body.block_of_yields eof hrest, StmtPhrase.tree]

theorem readBranchElse_yields (hcondition : condition.ReadsBack eof)
    (hthen : StmtPhrase.BodyReadsBack eof thenBody) (helse : StmtPhrase.BodyReadsBack eof elseBody)
    (word : TokenOf (.keyword .ifWord)) (middle : TokenOf (.keyword .elseWord))
    (stop : TokenOf (.keyword .endWord))
    (h : ts = (StmtPhrase.branchElse word condition thenBody middle elseBody stop).tokens ++ rest) :
    Yields (readStmt eof ts) (StmtPhrase.branchElse word condition thenBody middle elseBody stop).tree
      rest := by
  obtain rfl : ts = word.token :: (condition.tokens ++ (StmtPhrase.tokensOf thenBody ++
      middle.token :: (StmtPhrase.tokensOf elseBody ++ stop.token :: rest))) := by
    simpa [StmtPhrase.tokens] using h
  rw [readStmt.eq_def]
  simp only [word.kind_eq]
  refine Yields.bind (hcondition _ _ rfl) fun r hcond hrest => ?_
  refine Yields.bind (hthen word.token true middle.token (.inr ⟨rfl, middle.kind_eq⟩) _ _ hrest)
    fun r' hthen hrest' => ?_
  have hkind : r'.value.close.kind = .keyword .elseWord := by
    rw [hthen]
    exact middle.kind_eq
  rw [if_pos hkind]
  refine Yields.bind (helse _ false stop.token (.inl stop.kind_eq) _ _ hrest')
    fun r'' helse hrest'' => ⟨_, rfl, ?_, hrest''⟩
  simp only [Reading.follow, Reading.map, hcond, hthen, helse, Body.block_of_yields eof hrest,
    Body.block_of_yields eof hrest', StmtPhrase.tree]

theorem readTimes_yields (hcount : condition.ReadsBack eof) (hbody : StmtPhrase.BodyReadsBack eof body)
    (word : TokenOf (.keyword .times)) (stop : TokenOf (.keyword .endWord))
    (h : ts = (StmtPhrase.times word condition body stop).tokens ++ rest) :
    Yields (readStmt eof ts) (StmtPhrase.times word condition body stop).tree rest := by
  obtain rfl : ts = word.token ::
      (condition.tokens ++ (StmtPhrase.tokensOf body ++ stop.token :: rest)) := by
    simpa [StmtPhrase.tokens] using h
  rw [readStmt.eq_def]
  simp only [word.kind_eq]
  refine Yields.bind (hcount _ _ rfl) fun r hcount hrest => ?_
  refine Yields.bind (hbody word.token false stop.token (.inl stop.kind_eq) _ _ hrest)
    fun r' hbody hrest' => ⟨_, rfl, ?_, hrest'⟩
  simp only [Reading.follow, Reading.map, hcount, hbody, Body.block_of_yields eof hrest, StmtPhrase.tree]

theorem readForever_yields (hbody : StmtPhrase.BodyReadsBack eof body)
    (word : TokenOf (.keyword .forever)) (stop : TokenOf (.keyword .endWord))
    (h : ts = (StmtPhrase.forever word body stop).tokens ++ rest) :
    Yields (readStmt eof ts) (StmtPhrase.forever word body stop).tree rest := by
  obtain rfl : ts = word.token :: (StmtPhrase.tokensOf body ++ stop.token :: rest) := by
    simpa [StmtPhrase.tokens] using h
  rw [readStmt.eq_def]
  simp only [word.kind_eq]
  refine Yields.bind (hbody word.token false stop.token (.inl stop.kind_eq) _ _ rfl)
    fun r' hbody hrest' => ⟨_, rfl, ?_, hrest'⟩
  simp only [Reading.follow, Reading.map, hbody, Body.block_of_yields eof rfl, StmtPhrase.tree]

theorem readCallStmt_yields {opener : TokenOf .lparen} {callee : ExprPhrase} {args : List ExprPhrase}
    {close : TokenOf .rparen} (hcallee : callee.ReadsBack eof)
    (hargs : ∀ us more, us = ExprPhrase.tokensOf args ++ close.token :: more →
      Yields (readArgs eof opener.token us) ⟨ExprPhrase.trees args, close.token⟩ more)
    (h : ts = (StmtPhrase.call opener callee args close).tokens ++ rest) :
    Yields (readStmt eof ts) (StmtPhrase.call opener callee args close).tree rest := by
  obtain rfl : ts = opener.token ::
      (callee.tokens ++ (ExprPhrase.tokensOf args ++ close.token :: rest)) := by
    simpa [StmtPhrase.tokens] using h
  rw [readStmt.eq_def]
  simp only [opener.kind_eq]
  refine Yields.bind (readCall_yields rfl (hcallee _ _ rfl) fun us hus => hargs us rest hus)
    fun r hvalue hrest => ⟨_, rfl, ?_, hrest⟩
  simp only [Reading.follow, Reading.map, hvalue]
  rfl

end Statements

mutual

theorem readExpr_yields (eof : Token) (d : ExprPhrase) (hd : d.Admissible) {ts rest : List Token}
    (h : ts = d.tokens ++ rest) : Yields (readExpr eof ts) d.tree rest := by
  cases d with
  | atom a =>
    subst h
    exact readAtom_yields eof hd
  | call opener callee args close =>
    obtain rfl : ts = opener.token ::
        (callee.tokens ++ (ExprPhrase.tokensOf args ++ close.token :: rest)) := by
      simpa [ExprPhrase.tokens] using h
    have hargs (us : List Token) := @readArgs_yields eof opener.token args hd.2 close us rest
    rw [readExpr.eq_def]
    simp only [opener.kind_eq]
    refine Yields.bind (readCall_yields rfl (readExpr_yields eof callee hd.1 rfl) hargs)
      fun r hvalue hrest => ⟨_, rfl, ?_, hrest⟩
    simp only [Reading.follow, Reading.map, hvalue]
    rfl
  | function word opener params close body stop =>
    obtain rfl : ts = word.token :: opener.token :: (params.map TokenOf.token ++
        close.token :: (StmtPhrase.tokensOf body ++ stop.token :: rest)) := by
      simpa [ExprPhrase.tokens] using h
    rw [readExpr.eq_def]
    simp only [word.kind_eq]
    rw [readFunction]
    refine Yields.bind (Yields.bind (readParamsOpen_yields eof opener) fun r hopener hrest => ?_)
      fun r hvalue hrest => ⟨_, rfl, hvalue, hrest⟩
    refine Yields.bind (readParams_yields _ close hd.1 nofun hrest) fun r hparams hrest => ?_
    refine Yields.bind (readBody_yields eof word.token false body hd.2 (.inl stop.kind_eq) hrest)
      fun r hbody hrest' => ⟨_, rfl, ?_, hrest'⟩
    simp only [Reading.follow, Reading.map, hopener, hparams, hbody, Body.block_of_yields eof hrest,
      ExprPhrase.tree]
termination_by structural d

theorem readArgs_yields (eof opener : Token) (ds : List ExprPhrase)
    (hds : ExprPhrase.AllAdmissible ds) (close : TokenOf .rparen) {ts rest : List Token}
    (h : ts = ExprPhrase.tokensOf ds ++ close.token :: rest) :
    Yields (readArgs eof opener ts) ⟨ExprPhrase.trees ds, close.token⟩ rest := by
  cases ds with
  | nil =>
    obtain rfl : ts = close.token :: rest := h
    rw [readArgs, if_pos close.kind_eq]
    exact yields_single _ _ _
  | cons d ds =>
    obtain ⟨t, more, htokens, hkind⟩ := d.exists_first
    obtain rfl : ts = t :: (more ++ (ExprPhrase.tokensOf ds ++ close.token :: rest)) := by
      simpa [ExprPhrase.tokensOf, htokens] using h
    rw [readArgs, if_neg hkind]
    refine Yields.bind (readExpr_yields eof d hds.1 (by rw [htokens]; rfl)) fun e hvalue hrest => ?_
    refine Yields.bind (readArgs_yields eof opener ds hds.2 close hrest) fun a hargs hrest' => ?_
    refine ⟨_, rfl, ?_, hrest'⟩
    simp only [Reading.follow, Reading.map, hvalue, hargs, ExprPhrase.trees]
termination_by structural ds

theorem readStmt_yields (eof : Token) (d : StmtPhrase) (hd : d.Admissible) {ts rest : List Token}
    (h : ts = d.tokens ++ rest) : Yields (readStmt eof ts) d.tree rest := by
  cases d with
  | set word target value stop =>
    exact readSet_yields (fun _ _ => readExpr_yields eof value hd) word target stop h
  | branch word condition body stop =>
    exact readBranch_yields (fun _ _ => readExpr_yields eof condition hd.1)
      (fun opener e _ hstop _ _ => readBody_yields eof opener e body hd.2 hstop) word stop h
  | branchElse word condition thenBody middle elseBody stop =>
    exact readBranchElse_yields (fun _ _ => readExpr_yields eof condition hd.1)
      (fun opener e _ hstop _ _ => readBody_yields eof opener e thenBody hd.2.1 hstop)
      (fun opener e _ hstop _ _ => readBody_yields eof opener e elseBody hd.2.2 hstop) word middle stop h
  | times word count body stop =>
    exact readTimes_yields (fun _ _ => readExpr_yields eof count hd.1)
      (fun opener e _ hstop _ _ => readBody_yields eof opener e body hd.2 hstop) word stop h
  | forever word body stop =>
    exact readForever_yields (fun opener e _ hstop _ _ => readBody_yields eof opener e body hd hstop) word
      stop h
  | call opener callee args close =>
    exact readCallStmt_yields (fun _ _ => readExpr_yields eof callee hd.1)
      (fun _ _ => readArgs_yields eof opener.token args hd.2 close) h
termination_by structural d

theorem readBody_yields (eof opener : Token) (elseAllowed : Bool) (ds : List StmtPhrase)
    (hds : StmtPhrase.AllAdmissible ds) {stop : Token} (hstop : stop.Ends elseAllowed)
    {ts rest : List Token} (h : ts = StmtPhrase.tokensOf ds ++ stop :: rest) :
    Yields (readBody eof opener elseAllowed ts) ⟨StmtPhrase.trees ds, stop⟩ rest := by
  cases ds with
  | nil =>
    obtain rfl : ts = stop :: rest := h
    have hkind : (stop.kind = .keyword .endWord ||
        (elseAllowed && stop.kind = .keyword .elseWord)) = true := by
      simpa [Token.Ends] using hstop
    rw [readBody, if_pos hkind]
    exact yields_single _ _ _
  | cons d ds =>
    obtain ⟨t, more, htokens, hkind⟩ := d.exists_first
    obtain rfl : ts = t :: (more ++ (StmtPhrase.tokensOf ds ++ stop :: rest)) := by
      simpa [StmtPhrase.tokensOf, htokens] using h
    have hgoes : ¬ (t.kind = .keyword .endWord ||
        (elseAllowed && t.kind = .keyword .elseWord)) = true := by
      intro hends
      rw [Bool.or_eq_true, Bool.and_eq_true, decide_eq_true_eq, decide_eq_true_eq] at hends
      obtain hends | ⟨-, hends⟩ := hends <;> rw [hends] at hkind <;> cases hkind
    rw [readBody, if_neg hgoes]
    refine Yields.bind (readStmt_yields eof d hds.1 (by rw [htokens]; rfl)) fun s hvalue hrest => ?_
    refine Yields.bind (readBody_yields eof opener elseAllowed ds hds.2 hstop hrest)
      fun b hbody hrest' => ⟨_, rfl, ?_, hrest'⟩
    simp only [Reading.follow, Reading.map, hvalue, hbody, StmtPhrase.trees]
termination_by structural ds

end

theorem readStmts_derives (eof : Token) (ts : List Token) (hts : AllSpelled ts) {body : List Stmt}
    (h : readStmts eof ts = .ok body) :
    ∃ ds : List StmtPhrase, StmtPhrase.AllAdmissible ds ∧ ts = StmtPhrase.tokensOf ds ∧
      body = StmtPhrase.trees ds := by
  match ts, hts with
  | [], _ =>
    rw [readStmts] at h
    cases h
    exact ⟨[], trivial, rfl, rfl⟩
  | t :: rest, hts =>
    rw [readStmts] at h
    obtain ⟨s, hs, h⟩ := except_bind_eq_ok h
    obtain ⟨used, hused, d, hd, rfl, hvalue⟩ := readStmt_derives eof (t :: rest) hts s hs
    have := s.length_rest_le
    obtain ⟨more, hmore, h⟩ := except_bind_eq_ok h
    cases h
    obtain ⟨ds, hds, hrest, rfl⟩ := readStmts_derives eof s.rest (hused ▸ hts).rest hmore
    refine ⟨d :: ds, ⟨hd, hds⟩, ?_, ?_⟩
    · exact hused.trans (congrArg (d.tokens ++ ·) hrest)
    · rw [hvalue, StmtPhrase.trees]
termination_by ts.length

theorem readStmts_yields (eof : Token) (ds : List StmtPhrase) (hds : StmtPhrase.AllAdmissible ds)
    {ts : List Token} (h : ts = StmtPhrase.tokensOf ds) :
    readStmts eof ts = .ok (StmtPhrase.trees ds) := by
  induction ds generalizing ts with
  | nil =>
    obtain rfl : ts = [] := h
    rw [readStmts, StmtPhrase.trees]
  | cons d ds ih =>
    obtain ⟨t, more, htokens, -⟩ := d.exists_first
    obtain rfl : ts = t :: (more ++ StmtPhrase.tokensOf ds) := by
      simpa [StmtPhrase.tokensOf, htokens] using h
    obtain ⟨s, hs, hvalue, hrest⟩ := readStmt_yields eof d hds.1
      (show t :: (more ++ StmtPhrase.tokensOf ds) = d.tokens ++ StmtPhrase.tokensOf ds by
        rw [htokens]; rfl)
    rw [readStmts, hs]
    change (readStmts eof s.rest >>= fun more => pure (s.value :: more)) = _
    rw [ih hds.2 hrest, hvalue, StmtPhrase.trees]
    rfl

theorem Program.read_derives {source : Bytes} {p : Program} (h : Program.read source = .ok p) :
    ∃ ts body, scan source = .ok ts ∧ ts.items = StmtPhrase.tokensOf body ∧
      StmtPhrase.AllAdmissible body ∧ p = .ofPhrases ts.eof body := by
  obtain ⟨ts, hts, h⟩ := except_bind_eq_ok h
  obtain ⟨stmts, hstmts, h⟩ := except_bind_eq_ok h
  cases h
  obtain ⟨body, hbody, htokens, rfl⟩ :=
    readStmts_derives ts.eof ts.items (scanFrom_spelled .origin source hts) hstmts
  exact ⟨ts, body, hts, htokens, hbody, by rw [Program.ofPhrases, htokens]⟩

theorem Program.read_yields {source : Bytes} {ts : Tokens} {body : List StmtPhrase}
    (hts : scan source = .ok ts) (htokens : ts.items = StmtPhrase.tokensOf body)
    (hbody : StmtPhrase.AllAdmissible body) :
    Program.read source = .ok (.ofPhrases ts.eof body) := by
  rw [Program.read, hts]
  change Program.ofTokens ts = _
  rw [Program.ofTokens, readStmts_yields ts.eof body hbody htokens, htokens]
  rfl

/-- A text can be read exactly when its tokens are an admissible program of the grammar. They are one
in a single way, whose tree is read; `forever` at the head of a loop only shortens `times forever`.
Every other text has a bad form. -/
theorem read_accepts_the_grammar (source : Bytes) :
    (∀ p, Program.read source = .ok p ↔
      ∃ ts body, scan source = .ok ts ∧ ts.items = StmtPhrase.tokensOf body ∧
        StmtPhrase.AllAdmissible body ∧ p = .ofPhrases ts.eof body) ∧
    (∀ ts, scan source = .ok ts → ∀ body body', ts.items = StmtPhrase.tokensOf body →
      ts.items = StmtPhrase.tokensOf body' → body = body') ∧
    (∀ word body stop word' count body' stop',
      Stmt.bareAll (StmtPhrase.trees body) = Stmt.bareAll (StmtPhrase.trees body') →
      (StmtPhrase.forever word body stop).tree.bare =
        (StmtPhrase.times word' (.atom (.forever count)) body' stop').tree.bare) ∧
    ((¬ ∃ ts body, scan source = .ok ts ∧ ts.items = StmtPhrase.tokensOf body ∧
        StmtPhrase.AllAdmissible body) →
      ∃ d, Program.read source = .error d ∧ d.kind = .badForm) := by
  refine ⟨fun p => ⟨Program.read_derives, ?_⟩, ?_, ?_, ?_⟩
  · rintro ⟨ts, body, hts, htokens, hbody, rfl⟩
    exact Program.read_yields hts htokens hbody
  · intro ts _ body body' htokens htokens'
    exact StmtPhrase.eq_of_tokensOf (htokens.symm.trans htokens')
  · intro word body stop word' count body' stop' h
    simp only [StmtPhrase.tree, Stmt.bare, ExprPhrase.tree, Atom.tree, Expr.bare, blockBefore,
      Block.bare, h]
  · intro hnone
    cases hread : Program.read source with
    | ok p =>
      obtain ⟨ts, body, hts, htokens, hbody, -⟩ := Program.read_derives hread
      exact absurd ⟨ts, body, hts, htokens, hbody⟩ hnone
    | error d => exact ⟨d, rfl, read_error_kind hread⟩

theorem read_accepts_the_grammar_forever :
    (∃ ts body, scan (utf8 "forever (f) end") = .ok ts ∧ ts.items = StmtPhrase.tokensOf body ∧
      StmtPhrase.AllAdmissible body ∧ (Program.ofPhrases ts.eof body).bare =
        ⟨.nowhere, [.times .nowhere (.forever .nowhere)
          (.of .nowhere [.call .nowhere (.symbol ⟨.nowhere, utf8 "f"⟩) []])]⟩) ∧
    ¬ ∃ ts body, scan (utf8 "forever (f)") = .ok ts ∧ ts.items = StmtPhrase.tokensOf body ∧
      StmtPhrase.AllAdmissible body := by
  constructor
  · have hread : (Program.read (utf8 "forever (f) end")).toOption.map Program.bare =
        some ⟨.nowhere, [.times .nowhere (.forever .nowhere)
          (.of .nowhere [.call .nowhere (.symbol ⟨.nowhere, utf8 "f"⟩) []])]⟩ := by
      cbv
    cases hp : Program.read (utf8 "forever (f) end") with
    | error d =>
      rw [hp] at hread
      cases hread
    | ok p =>
      rw [hp] at hread
      obtain ⟨ts, body, hts, htokens, hbody, rfl⟩ := ((read_accepts_the_grammar _).1 p).mp hp
      exact ⟨ts, body, hts, htokens, hbody, Option.some.inj hread⟩
  · rintro ⟨ts, body, hts, htokens, hbody⟩
    have hread := ((read_accepts_the_grammar _).1 _).mpr ⟨ts, body, hts, htokens, hbody, rfl⟩
    have hnone : (Program.read (utf8 "forever (f)")).toOption.isNone := by
      cbv
    rw [hread] at hnone
    cases hnone

end Stepwise
