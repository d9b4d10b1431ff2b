import Stepwise.Proofs.Names
import Stepwise.Proofs.Spelling
import Stepwise.Tree.Read

/-! Trees that have been read. Nothing is missing in them but the `else` of a condition that has none,
and every name in them is one that can be written; so none of them is the name of a loop stack. A text
that cannot be read has a bad form, and nothing else is ever wrong with it; the place of the error is
that of a token, or of an opening parenthesis through the token after it. -/

namespace Stepwise

mutual

/-- As a reader makes it: all parts are there, and the names are symbols. -/
def Expr.Proper : Expr → Prop
  | .missing => False
  | .symbol s => isSymbol s.name
  | .call _ callee args => callee.Proper ∧ Expr.AllProper args
  | .function _ params body => (∀ name ∈ Params.names params, isSymbol name) ∧ body.Proper
  | .number _ _ | .boolean _ _ | .null _ | .string _ _ | .forever _ => True

def Expr.AllProper : List Expr → Prop
  | [] => True
  | e :: es => e.Proper ∧ Expr.AllProper es

def Block.Proper : Block → Prop
  | .missing => False
  | .of _ body => Stmt.AllProper body

def Stmt.Proper : Stmt → Prop
  | .missing => False
  | .set _ target value => (∀ s ∈ target, isSymbol s.name) ∧ value.Proper
  | .branch _ condition thenBlock elseBlock =>
    condition.Proper ∧ thenBlock.Proper ∧ (elseBlock = .missing ∨ elseBlock.Proper)
  | .times _ count body => count.Proper ∧ body.Proper
  | .call _ callee args => callee.Proper ∧ Expr.AllProper args

def Stmt.AllProper : List Stmt → Prop
  | [] => True
  | s :: rest => s.Proper ∧ Stmt.AllProper rest

end

def Program.Proper (p : Program) : Prop := Stmt.AllProper p.body

theorem Stmt.AllProper.proper {body : List Stmt} (h : Stmt.AllProper body) {s : Stmt}
    (hs : s ∈ body) : s.Proper := by
  induction body with
  | nil => cases hs
  | cons s' rest ih =>
    obtain rfl | hs := List.mem_cons.mp hs
    · exact h.1
    · exact ih h.2 hs

section

theorem ne_loopBinding_of_isSymbol {name : Name} (h : isSymbol name) : name ≠ loopBinding := by
  rintro rfl
  revert h
  decide

variable {name : Name}

mutual

theorem Expr.Proper.isSymbol (e : Expr) (h : e.Proper) (hname : name ∈ e.names) : isSymbol name := by
  cases e with
  | missing => exact h.elim
  | symbol s =>
    obtain rfl := List.mem_singleton.mp hname
    exact h
  | call sp callee args =>
    obtain hname | hname := List.mem_append.mp hname
    · exact Expr.Proper.isSymbol callee h.1 hname
    · exact Expr.AllProper.isSymbol args h.2 hname
  | function sp params body =>
    obtain hname | hname := List.mem_append.mp hname
    · exact h.1 name hname
    · exact Block.Proper.isSymbol body h.2 hname
  | number | boolean | null | string | forever => cases hname

theorem Expr.AllProper.isSymbol (es : List Expr) (h : Expr.AllProper es) (hname : name ∈ Expr.namesOf es) :
    isSymbol name := by
  cases es with
  | nil => cases hname
  | cons e es =>
    obtain hname | hname := List.mem_append.mp hname
    · exact Expr.Proper.isSymbol e h.1 hname
    · exact Expr.AllProper.isSymbol es h.2 hname

theorem Block.Proper.isSymbol (b : Block) (h : b.Proper) (hname : name ∈ b.names) : isSymbol name := by
  cases b with
  | missing => exact h.elim
  | of sp body => exact Stmt.AllProper.isSymbol body h hname

theorem Stmt.Proper.isSymbol (s : Stmt) (h : s.Proper) (hname : name ∈ s.names) : isSymbol name := by
  cases s with
  | missing => exact h.elim
  | set sp target value =>
    obtain hname | hname := List.mem_append.mp hname
    · obtain ⟨symbol, hsymbol, rfl⟩ : ∃ symbol, target = some symbol ∧ symbol.name = name := by
        simpa using hname
      exact h.1 symbol hsymbol
    · exact Expr.Proper.isSymbol value h.2 hname
  | branch sp condition thenBlock elseBlock =>
    obtain hname | hname := List.mem_append.mp hname
    · exact Expr.Proper.isSymbol condition h.1 hname
    obtain hname | hname := List.mem_append.mp hname
    · exact Block.Proper.isSymbol thenBlock h.2.1 hname
    · obtain rfl | helse := h.2.2
      · cases hname
      · exact Block.Proper.isSymbol elseBlock helse hname
  | times sp count body =>
    obtain hname | hname := List.mem_append.mp hname
    · exact Expr.Proper.isSymbol count h.1 hname
    · exact Block.Proper.isSymbol body h.2 hname
  | call sp callee args =>
    obtain hname | hname := List.mem_append.mp hname
    · exact Expr.Proper.isSymbol callee h.1 hname
    · exact Expr.AllProper.isSymbol args h.2 hname

theorem Stmt.AllProper.isSymbol (body : List Stmt) (h : Stmt.AllProper body)
    (hname : name ∈ Stmt.namesOf body) : isSymbol name := by
  cases body with
  | nil => cases hname
  | cons s rest =>
    obtain hname | hname := List.mem_append.mp hname
    · exact Stmt.Proper.isSymbol s h.1 hname
    · exact Stmt.AllProper.isSymbol rest h.2 hname

end

end

theorem Program.Proper.isSymbol {p : Program} (h : p.Proper) {name : Name} (hname : name ∈ p.names) :
    isSymbol name :=
  Stmt.AllProper.isSymbol p.body h hname

theorem Program.Proper.not_mem_names {p : Program} (h : p.Proper) : loopBinding ∉ p.names :=
  fun hname => ne_loopBinding_of_isSymbol (h.isSymbol hname) rfl

/-- Tokens, and the end of input after them, as a text has them: an identifier is a symbol, and tokens
stand where tokens can stand. -/
structure Lexed (place : Span → Prop) (eof : Token) (ts : List Token) : Prop where
  symbols : ∀ t ∈ ts, t.kind = .ident → isSymbol t.raw
  placed : ∀ t ∈ ts ++ [eof], place t.span
  spanned : (ts ++ [eof]).Pairwise fun t t' => place (t.span.through t'.span)

namespace Lexed

variable {place : Span → Prop} {eof t : Token} {ts : List Token}

theorem tail (h : Lexed place eof (t :: ts)) : Lexed place eof ts where
  symbols t' ht' := h.symbols t' (List.mem_cons_of_mem t ht')
  placed t' ht' := h.placed t' (List.mem_cons_of_mem t ht')
  spanned := (List.pairwise_cons.mp h.spanned).2

theorem head (h : Lexed place eof (t :: ts)) (hk : t.kind = .ident) : isSymbol t.raw :=
  h.symbols t List.mem_cons_self hk

theorem here (h : Lexed place eof (t :: ts)) : place t.span := h.placed t List.mem_cons_self

theorem atEnd (h : Lexed place eof ts) : place eof.span := h.placed eof (by simp)

theorem next (h : Lexed place eof (t :: ts)) : place (t.span.through (peek eof ts).span) := by
  refine (List.pairwise_cons.mp h.spanned).1 _ ?_
  cases ts with
  | nil => exact List.mem_singleton_self eof
  | cons t' ts => exact List.mem_cons_self

end Lexed

theorem scanFrom_symbols (c : Cursor) (text : Bytes) {ts : Tokens} (h : scanFrom c text = .ok ts) :
    ∀ t ∈ ts.items, t.kind = .ident → isSymbol t.raw := by
  intro t ht hkind
  have hspelled := scanFrom_spelled c text h t ht
  rwa [Token.Spelled, hkind] at hspelled

theorem scanFrom_error (c : Cursor) (text : Bytes) {d : Diagnostic} (h : scanFrom c text = .error d) :
    d.kind = .badForm := by
  fun_induction scanFrom c text generalizing d with
  | case1 => cases h
  | case2 =>
    rename_i hlex
    cases h
    exact lexeme_fault hlex
  | case3 c text skipped here b rest hdrop hlt kind raw hlex past =>
    rename_i ih
    obtain h | ⟨ts', -, h⟩ := except_bind_eq_error h
    · exact ih h
    · cases h

theorem scan_lexed {source : Bytes} {ts : Tokens} (h : scan source = .ok ts) :
    Lexed (fun _ => True) ts.eof ts.items where
  symbols := scanFrom_symbols .origin source h
  placed _ _ := trivial
  spanned := List.pairwise_of_forall fun _ _ => trivial

/-- A part that has been read is such a one, and the tokens after it are good to go on with. -/
def Reading.Sound {α : Type} {before : List Token} (place : Span → Prop) (eof : Token)
    (P : α → Prop) (r : Reading α before) : Prop :=
  P r.value ∧ Lexed place eof r.rest

/-- What has been read is such a part, or the tokens have a bad form in one place. -/
def Sound {α : Type} {before : List Token} (place : Span → Prop) (eof : Token) (P : α → Prop)
    (x : ReadResult α before) : Prop :=
  (∀ r, x = .ok r → r.Sound place eof P) ∧ ∀ d, x = .error d → d.kind = .badForm ∧ place d.span

section

variable {place : Span → Prop} {eof : Token} {α β : Type} {before before' : List Token}
  {P : α → Prop} {Q : β → Prop}

theorem sound_error {d : Diagnostic} (h : d.kind = .badForm) (hplace : place d.span) :
    Sound place eof P (.error d : ReadResult α before) := by
  constructor
  · rintro r ⟨⟩
  · rintro _ ⟨⟩
    exact ⟨h, hplace⟩

theorem sound_ok {r : Reading α before} (h : r.Sound place eof P) : Sound place eof P (.ok r) := by
  constructor
  · rintro _ ⟨⟩
    exact h
  · rintro d ⟨⟩

theorem Sound.bind {x : ReadResult α before} {f : Reading α before → ReadResult β before'}
    (hx : Sound place eof P x) (hf : ∀ r, r.Sound place eof P → Sound place eof Q (f r)) :
    Sound place eof Q (x >>= f) := by
  constructor
  · intro r h
    obtain ⟨a, ha, h⟩ := except_bind_eq_ok h
    exact (hf a (hx.1 a ha)).1 r h
  · intro d h
    obtain h | ⟨a, ha, h⟩ := except_bind_eq_error h
    · exact hx.2 d h
    · exact (hf a (hx.1 a ha)).2 d h

theorem sound_single {a : α} {t : Token} {rest : List Token} (h : P a)
    (hrest : Lexed place eof (t :: rest)) : Sound place eof P (.ok (Reading.single a t rest)) :=
  sound_ok ⟨h, hrest.tail⟩

theorem readNumber_sound {t : Token} {rest : List Token} (h : Lexed place eof (t :: rest)) :
    Sound place eof Expr.Proper (readNumber t rest) := by
  rw [readNumber]
  split
  · exact sound_single trivial h
  · exact sound_error rfl h.here

theorem readTarget_sound {ts : List Token} (h : Lexed place eof ts) :
    Sound place eof (fun s => isSymbol s.name) (readTarget eof ts) := by
  cases ts with
  | nil => exact sound_error rfl h.atEnd
  | cons t rest =>
    rw [readTarget]
    split
    · next hk => exact sound_single (h.head hk) h
    all_goals exact sound_error rfl h.here

theorem readSetEnd_sound {ts : List Token} (h : Lexed place eof ts) :
    Sound place eof (fun _ => True) (readSetEnd eof ts) := by
  cases ts with
  | nil => exact sound_error rfl h.atEnd
  | cons t rest =>
    rw [readSetEnd]
    split
    · exact sound_single trivial h
    · exact sound_error rfl h.here

theorem readParamsOpen_sound {ts : List Token} (h : Lexed place eof ts) :
    Sound place eof (fun t => place t.span) (readParamsOpen eof ts) := by
  cases ts with
  | nil => exact sound_error rfl h.atEnd
  | cons t rest =>
    rw [readParamsOpen]
    split
    · exact sound_single h.here h
    · exact sound_error rfl h.here

theorem readParams_sound {opener : Token} (hopener : place opener.span) (seen : List Name)
    {ts : List Token} (h : Lexed place eof ts) :
    Sound place eof (fun ps => ∀ s ∈ ps.1, isSymbol s.name) (readParams opener seen ts) := by
  induction ts generalizing seen with
  | nil => exact sound_error rfl hopener
  | cons t rest ih =>
    rw [readParams]
    split
    · exact sound_single nofun h
    · next hk =>
      split
      · exact sound_error rfl h.here
      · refine (ih (t.raw :: seen) h.tail).bind fun r hr => sound_ok ⟨?_, hr.2⟩
        rintro s (_ | ⟨_, hs⟩)
        · exact h.head hk
        · exact hr.1 s hs
    all_goals exact sound_error rfl h.here

end

def CallParts.Proper (c : CallParts) : Prop := c.callee.Proper ∧ Expr.AllProper c.args.exprs

section

variable {place : Span → Prop}

mutual

theorem readExpr_sound (eof : Token) (ts : List Token) (h : Lexed place eof ts) :
    Sound place eof Expr.Proper (readExpr eof ts) := by
  rw [readExpr.eq_def]
  match ts, h with
  | [], h => exact sound_error rfl h.atEnd
  | t :: rest, h =>
    dsimp only
    split
    · exact readNumber_sound h
    · exact sound_single trivial h
    · next hk => exact sound_single (h.head hk) h
    · exact sound_single trivial h
    · exact sound_single trivial h
    · exact sound_single trivial h
    · exact sound_single trivial h
    · exact (readFunction_sound eof t rest h.here h.tail).bind fun r hr => sound_ok hr
    · exact (readCall_sound eof t rest h).bind fun r hr => sound_ok hr
    all_goals exact sound_error rfl h.here
termination_by 2 * ts.length

theorem readCall_sound (eof opener : Token) (ts : List Token) (h : Lexed place eof (opener :: ts)) :
    Sound place eof CallParts.Proper (readCall eof opener ts) := by
  rw [readCall]
  split
  · exact sound_error rfl h.next
  · refine (readExpr_sound eof ts h.tail).bind fun callee hcallee => ?_
    have := callee.shorter
    refine (readArgs_sound eof opener callee.rest h.here hcallee.2).bind fun args hargs => ?_
    exact sound_ok ⟨⟨hcallee.1, hargs.1⟩, hargs.2⟩
termination_by 2 * ts.length + 1

theorem readArgs_sound (eof opener : Token) (ts : List Token) (hopener : place opener.span)
    (h : Lexed place eof ts) :
    Sound place eof (fun a => Expr.AllProper a.exprs) (readArgs eof opener ts) := by
  rw [readArgs.eq_def]
  match ts, h with
  | [], _ => exact sound_error rfl hopener
  | t :: rest, h =>
    dsimp only
    split
    · exact sound_single trivial h
    · refine (readExpr_sound eof (t :: rest) h).bind fun e he => ?_
      have := e.length_rest_le
      refine (readArgs_sound eof opener e.rest hopener he.2).bind fun more hmore => ?_
      exact sound_ok ⟨⟨he.1, hmore.1⟩, hmore.2⟩
termination_by 2 * ts.length + 1

theorem readFunction_sound (eof opener : Token) (ts : List Token) (hopener : place opener.span)
    (h : Lexed place eof ts) : Sound place eof Expr.Proper (readFunction eof opener ts) := by
  rw [readFunction]
  refine (readParamsOpen_sound h).bind fun paren hparen => ?_
  have := paren.shorter
  refine (readParams_sound hparen.1 [] hparen.2).bind fun params hparams => ?_
  have := params.shorter
  refine (readBody_sound eof opener false params.rest hopener hparams.2).bind fun body hbody => ?_
  refine sound_ok ⟨⟨fun name hname => ?_, hbody.1.1⟩, hbody.2⟩
  obtain ⟨s, hs, rfl⟩ := List.mem_map.mp hname
  exact hparams.1 s hs
termination_by 2 * ts.length + 1

theorem readBody_sound (eof opener : Token) (elseAllowed : Bool) (ts : List Token)
    (hopener : place opener.span) (h : Lexed place eof ts) :
    Sound place eof (fun b => Stmt.AllProper b.stmts ∧ place b.close.span)
      (readBody eof opener elseAllowed ts) := by
  rw [readBody.eq_def]
  match ts, h with
  | [], _ => exact sound_error rfl hopener
  | t :: rest, h =>
    dsimp only
    split
    · exact sound_single ⟨trivial, h.here⟩ h
    · refine (readStmt_sound eof (t :: rest) h).bind fun s hs => ?_
      have := s.length_rest_le
      refine (readBody_sound eof opener elseAllowed s.rest hopener hs.2).bind fun more hmore => ?_
      exact sound_ok ⟨⟨⟨hs.1, hmore.1.1⟩, hmore.1.2⟩, hmore.2⟩
termination_by 2 * ts.length + 1

theorem readStmt_sound (eof : Token) (ts : List Token) (h : Lexed place eof ts) :
    Sound place eof Stmt.Proper (readStmt eof ts) := by
  rw [readStmt.eq_def]
  match ts, h with
  | [], h => exact sound_error rfl h.atEnd
  | t :: rest, h =>
    dsimp only
    split
    · refine (readTarget_sound h.tail).bind fun target htarget => ?_
      have := target.shorter
      refine (readExpr_sound eof target.rest htarget.2).bind fun value hvalue => ?_
      refine (readSetEnd_sound hvalue.2).bind fun close hclose => ?_
      refine sound_ok ⟨⟨?_, hvalue.1⟩, hclose.2⟩
      rintro s ⟨⟩
      exact htarget.1
    · refine (readExpr_sound eof rest h.tail).bind fun cond hcond => ?_
      have := cond.shorter
      refine (readBody_sound eof t true cond.rest h.here hcond.2).bind fun thenBody hthen => ?_
      have := thenBody.shorter
      split
      · refine (readBody_sound eof _ false thenBody.rest hthen.1.2 hthen.2).bind fun elseBody helse => ?_
        exact sound_ok ⟨⟨hcond.1, hthen.1.1, .inr helse.1.1⟩, helse.2⟩
      · exact sound_ok ⟨⟨hcond.1, hthen.1.1, .inl rfl⟩, hthen.2⟩
    · refine (readExpr_sound eof rest h.tail).bind fun count hcount => ?_
      have := count.shorter
      refine (readBody_sound eof t false count.rest h.here hcount.2).bind fun body hbody => ?_
      exact sound_ok ⟨⟨hcount.1, hbody.1.1⟩, hbody.2⟩
    · refine (readBody_sound eof t false rest h.here h.tail).bind fun body hbody => ?_
      exact sound_ok ⟨⟨trivial, hbody.1.1⟩, hbody.2⟩
    · exact (readCall_sound eof t rest h).bind fun r hr => sound_ok hr
    all_goals exact sound_error rfl h.here
termination_by 2 * ts.length

end

theorem readStmts_sound (eof : Token) (ts : List Token) (h : Lexed place eof ts) :
    (∀ body, readStmts eof ts = .ok body → Stmt.AllProper body) ∧
      ∀ d, readStmts eof ts = .error d → d.kind = .badForm ∧ place d.span := by
  match ts, h with
  | [], _ =>
    rw [readStmts]
    constructor
    · rintro _ ⟨⟩
      trivial
    · rintro d ⟨⟩
  | t :: rest, h =>
    have hsound := readStmt_sound eof (t :: rest) h
    rw [readStmts]
    constructor
    · intro body hbody
      obtain ⟨s, hs, hbody⟩ := except_bind_eq_ok hbody
      obtain ⟨hproper, hrest⟩ := hsound.1 s hs
      have := s.length_rest_le
      obtain ⟨more, hmore, hbody⟩ := except_bind_eq_ok hbody
      cases hbody
      exact ⟨hproper, (readStmts_sound eof s.rest hrest).1 more hmore⟩
    · intro d hd
      obtain hd | ⟨s, hs, hd⟩ := except_bind_eq_error hd
      · exact hsound.2 d hd
      · have := s.length_rest_le
        obtain hd | ⟨more, -, hd⟩ := except_bind_eq_error hd
        · exact (readStmts_sound eof s.rest (hsound.1 s hs).2).2 d hd
        · cases hd
termination_by ts.length

end

theorem read_proper {source : Bytes} {p : Program} (h : Program.read source = .ok p) : p.Proper := by
  obtain ⟨ts, hts, h⟩ := except_bind_eq_ok h
  obtain ⟨body, hbody, h⟩ := except_bind_eq_ok h
  cases h
  exact (readStmts_sound ts.eof ts.items (scan_lexed hts)).1 body hbody

/-- A text that cannot be read does not consist of tokens, or its tokens have a bad form in a place
where tokens stand. -/
theorem read_error {place : Span → Prop} {source : Bytes} {d : Diagnostic}
    (hlexed : ∀ ts, scan source = .ok ts → Lexed place ts.eof ts.items)
    (h : Program.read source = .error d) :
    scan source = .error d ∨ d.kind = .badForm ∧ place d.span := by
  obtain h | ⟨ts, hts, h⟩ := except_bind_eq_error h
  · exact .inl h
  · obtain h | ⟨body, -, h⟩ := except_bind_eq_error h
    · exact .inr ((readStmts_sound ts.eof ts.items (hlexed ts hts)).2 d h)
    · cases h

theorem read_error_kind {source : Bytes} {d : Diagnostic} (h : Program.read source = .error d) :
    d.kind = .badForm := by
  obtain h | ⟨hkind, -⟩ := read_error (fun _ => scan_lexed) h
  · exact scanFrom_error .origin source h
  · exact hkind

end Stepwise
