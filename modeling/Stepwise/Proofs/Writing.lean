import Stepwise.Proofs.Derivation

/-! Writing a program out. A tree can be written as lexemes in more than one way, and the lexemes stand
apart by blanks and comments as one likes; reading the text gives the tree back. -/

namespace Stepwise

/-- Blanks and comments, every comment with the end of its line. -/
inductive Trivia : Bytes → Prop
  | nil : Trivia []
  | blank {b : UInt8} {rest : Bytes} : isTriviaByte b → Trivia rest → Trivia (b :: rest)
  | comment {text rest : Bytes} :
      10 ∉ text → Trivia rest → Trivia (47 :: 47 :: (text ++ 10 :: rest))

/-- Trivia at the end of a text, where the line of a last comment may be left open. -/
def ClosingTrivia (text : Bytes) : Prop :=
  Trivia text ∨ ∃ before comment, Trivia before ∧ 10 ∉ comment ∧ text = before ++ 47 :: 47 :: comment

/-- Lexemes with trivia before every one of them. -/
def SpacedAfter : List Bytes → Bytes → Prop
  | [], text => ClosingTrivia text
  | raw :: raws, text =>
    ∃ gap rest, gap ≠ [] ∧ Trivia gap ∧ text = gap ++ (raw ++ rest) ∧ SpacedAfter raws rest

/-- Lexemes with trivia between them, and as one likes at both ends. -/
def Spaced : List Bytes → Bytes → Prop
  | [], text => ClosingTrivia text
  | raw :: raws, text =>
    ∃ lead rest, Trivia lead ∧ text = lead ++ (raw ++ rest) ∧ SpacedAfter raws rest

theorem SpacedAfter.spaced {raws : List Bytes} {text : Bytes} (h : SpacedAfter raws text) :
    Spaced raws text := by
  cases raws with
  | nil => exact h
  | cons raw raws =>
    obtain ⟨gap, rest, -, hgap, htext, hrest⟩ := h
    exact ⟨gap, rest, hgap, htext, hrest⟩

theorem trivia_inside (b : UInt8) (rest : Bytes) :
    trivia true (b :: rest) = b :: trivia (b != 10) rest := by
  rw [trivia.eq_def]
  rfl

theorem trivia_blank {b : UInt8} (h : isTriviaByte b) (rest : Bytes) :
    trivia false (b :: rest) = b :: trivia false rest := by
  rw [trivia.eq_def]
  simp [h]

theorem trivia_slashes (rest : Bytes) :
    trivia false (47 :: 47 :: rest) = 47 :: 47 :: trivia true rest := by
  rw [trivia.eq_def]
  rfl

theorem trivia_other {b : UInt8} (h : isTriviaByte b = false) (hslash : b ≠ 47) (rest : Bytes) :
    trivia false (b :: rest) = [] := by
  rw [trivia.eq_def]
  simp [h, hslash]

theorem trivia_comment {text : Bytes} (h : 10 ∉ text) (rest : Bytes) :
    trivia true (text ++ 10 :: rest) = text ++ 10 :: trivia false rest := by
  induction text with
  | nil => rw [List.nil_append, trivia_inside]; rfl
  | cons b text ih =>
    have hb : (b != 10) = true := bne_iff_ne.mpr fun hb => h (by simp [hb])
    rw [List.cons_append, trivia_inside, hb, ih fun hmem => h (List.mem_cons_of_mem b hmem),
      List.cons_append]

theorem trivia_open_comment {text : Bytes} (h : 10 ∉ text) : trivia true text = text := by
  induction text with
  | nil => rfl
  | cons b text ih =>
    have hb : (b != 10) = true := bne_iff_ne.mpr fun hb => h (by simp [hb])
    rw [trivia_inside, hb, ih fun hmem => h (List.mem_cons_of_mem b hmem)]

theorem Trivia.append {lead : Bytes} (h : Trivia lead) (rest : Bytes) :
    trivia false (lead ++ rest) = lead ++ trivia false rest := by
  induction h with
  | nil => rfl
  | blank hb _ ih => rw [List.cons_append, trivia_blank hb, ih, List.cons_append]
  | comment htext _ ih =>
    simp only [List.cons_append, List.append_assoc]
    rw [trivia_slashes, trivia_comment htext, ih]

theorem ClosingTrivia.all {text : Bytes} (h : ClosingTrivia text) : trivia false text = text := by
  obtain h | ⟨before, comment, hbefore, hcomment, rfl⟩ := h
  · have happend := h.append []
    rwa [List.append_nil, trivia, List.append_nil] at happend
  · rw [hbefore.append, trivia_slashes, trivia_open_comment hcomment]

theorem Trivia.bounded {lead : Bytes} (h : Trivia lead) (hne : lead ≠ []) (rest : Bytes) :
    Bounded (lead ++ rest) := by
  cases h with
  | nil => exact absurd rfl hne
  | blank hb _ =>
    simp only [isTriviaByte, Bool.or_eq_true, beq_iff_eq] at hb
    obtain ((rfl | rfl) | rfl) | rfl := hb <;> rfl
  | comment => rfl

theorem SpacedAfter.bounded {raws : List Bytes} {text : Bytes} (h : SpacedAfter raws text) :
    Bounded text := by
  cases raws with
  | nil =>
    obtain h | ⟨before, comment, hbefore, -, rfl⟩ := h
    · by_cases hne : text = []
      · rw [hne]
        rfl
      · rw [← List.append_nil text]
        exact h.bounded hne []
    · by_cases hne : before = []
      · rw [hne]
        rfl
      · exact hbefore.bounded hne _
  | cons raw raws =>
    obtain ⟨gap, rest, hne, hgap, rfl, -⟩ := h
    exact hgap.bounded hne _

/-- A text that the scanner takes for one token. -/
def IsLexeme (raw : Bytes) : Prop := ∃ kind : TokenKind, kind ≠ .eof ∧ kind.Spells raw

/-- No lexeme starts like trivia. -/
theorem trivia_of_lexeme {first : UInt8} {rest raw : Bytes} {kind : TokenKind}
    (h : lexeme first rest = .token kind raw) : trivia false (first :: rest) = [] := by
  have hne {b : UInt8} (hb : ∀ rest', ∃ cause, lexeme b rest' = .fault cause [b]) : first ≠ b := by
    rintro rfl
    obtain ⟨cause, hfault⟩ := hb rest
    rw [h] at hfault
    cases hfault
  refine trivia_other ?_ (hne fun _ => ⟨_, rfl⟩) rest
  simp only [isTriviaByte, Bool.or_eq_false_iff, beq_eq_false_iff_ne]
  exact ⟨⟨⟨hne fun _ => ⟨_, rfl⟩, hne fun _ => ⟨_, rfl⟩⟩, hne fun _ => ⟨_, rfl⟩⟩, hne fun _ => ⟨_, rfl⟩⟩

theorem scanFrom_closing (c : Cursor) {text : Bytes} (h : ClosingTrivia text) :
    scanFrom c text = .ok (Tokens.endAt (c.advance text)) := by
  rw [scanFrom]
  split
  · rw [h.all]
  · next hdrop =>
    rw [h.all, List.drop_length] at hdrop
    cases hdrop

theorem scanFrom_token (c : Cursor) {lead raw rest : Bytes} {kind : TokenKind} (hlead : Trivia lead)
    (hkind : kind ≠ .eof) (hspells : kind.Spells raw) (hrest : kind.isOpenEnded → Bounded rest) :
    scanFrom c (lead ++ (raw ++ rest)) =
      (scanFrom ((c.advance lead).advance raw) rest).map
        (Tokens.push ⟨kind, raw, (c.advance lead).span ((c.advance lead).advance raw)⟩) := by
  obtain ⟨first, more, rfl, hlex⟩ := lexeme_of_spells hkind hspells hrest
  have hskip : trivia false (lead ++ (first :: more ++ rest)) = lead := by
    rw [hlead.append, List.cons_append, trivia_of_lexeme hlex, List.append_nil]
  have hdrop : (lead ++ (first :: more ++ rest)).drop lead.length = first :: (more ++ rest) :=
    List.drop_left
  rw [scanFrom]
  split
  · next hnil =>
    rw [hskip, hdrop] at hnil
    cases hnil
  · next b rest' hcons =>
    obtain ⟨rfl, rfl⟩ := List.cons.inj (hdrop.symm.trans (hskip ▸ hcons))
    simp only [hlex, hskip, List.length_cons, Nat.add_sub_cancel, List.drop_left]
    cases scanFrom ((c.advance lead).advance (first :: more)) rest with
    | ok ts => rfl
    | error d => rfl

theorem scanFrom_spaced (c : Cursor) {raws : List Bytes} (hraws : ∀ raw ∈ raws, IsLexeme raw)
    {text : Bytes} (h : Spaced raws text) :
    ∃ ts, scanFrom c text = .ok ts ∧ ts.items.map Token.raw = raws := by
  induction raws generalizing c text with
  | nil =>
    exact ⟨_, scanFrom_closing c h, rfl⟩
  | cons raw raws ih =>
    obtain ⟨lead, rest, hlead, rfl, hrest⟩ := h
    obtain ⟨kind, hkind, hspells⟩ := hraws raw List.mem_cons_self
    have hscan := scanFrom_token c hlead hkind hspells fun _ => hrest.bounded
    obtain ⟨ts, hts, hitems⟩ := ih ((c.advance lead).advance raw)
      (fun raw' hmem => hraws raw' (List.mem_cons_of_mem raw hmem)) hrest.spaced
    refine ⟨ts.push ⟨kind, raw, (c.advance lead).span ((c.advance lead).advance raw)⟩, ?_, ?_⟩
    · rw [hscan, hts]
      rfl
    · rw [Tokens.push, List.map_cons, hitems]

/-- A parameter list that can be written: it is there, and its names are different symbols. -/
def Params.Writable (params : Option Params) : Prop :=
  ∃ ps, params = some ps ∧ (∀ s ∈ ps.symbols, isSymbol s.name) ∧ (ps.symbols.map Symbol.name).Nodup

mutual

/-- Trees that can be written: nothing is missing in them but an `else`, names are symbols, strings
have no quote in them, and the parameters of a function have different names. -/
def Expr.Writable : Expr → Prop
  | .missing => False
  | .symbol s => isSymbol s.name
  | .string _ value => 34 ∉ value
  | .call _ callee args => callee.Writable ∧ Expr.AllWritable args
  | .function _ params body => Params.Writable params ∧ body.Writable
  | .number _ _ | .boolean _ _ | .null _ | .forever _ => True

def Expr.AllWritable : List Expr → Prop
  | [] => True
  | e :: es => e.Writable ∧ Expr.AllWritable es

def Block.Writable : Block → Prop
  | .missing => False
  | .of _ body => Stmt.AllWritable body

def Stmt.Writable : Stmt → Prop
  | .missing => False
  | .set _ target value => (∃ s, target = some s ∧ isSymbol s.name) ∧ value.Writable
  | .branch _ condition thenBlock elseBlock =>
    condition.Writable ∧ thenBlock.Writable ∧ (elseBlock = .missing ∨ elseBlock.Writable)
  | .times _ count body => count.Writable ∧ body.Writable
  | .call _ callee args => callee.Writable ∧ Expr.AllWritable args

def Stmt.AllWritable : List Stmt → Prop
  | [] => True
  | s :: rest => s.Writable ∧ Stmt.AllWritable rest

end

def Program.Writable (p : Program) : Prop := Stmt.AllWritable p.body

mutual

/-- The lexemes that an expression can be written as. -/
def Expr.Written : Expr → List Bytes → Prop
  | .missing, _ => False
  | .symbol s, raws => raws = [s.name]
  | .number _ n, raws => ∃ raw, IsNumeral raw ∧ numeralValue raw = n.toInt ∧ raws = [raw]
  | .boolean _ value, raws =>
    raws = [if value then Keyword.trueWord.word else Keyword.falseWord.word]
  | .null _, raws => raws = [Keyword.null.word]
  | .string _ value, raws => raws = [34 :: value ++ [34]]
  | .forever _, raws => raws = [Keyword.forever.word]
  | .call _ callee args, raws => ∃ c as, callee.Written c ∧ Expr.AllWritten args as ∧
    raws = [40] :: (c ++ (as ++ [[41]]))
  | .function _ params body, raws => ∃ b, body.Written b ∧
    raws = Keyword.function.word :: [40] ::
      (Params.names params ++ [41] :: (b ++ [Keyword.endWord.word]))

def Expr.AllWritten : List Expr → List Bytes → Prop
  | [], raws => raws = []
  | e :: es, raws => ∃ first more, e.Written first ∧ Expr.AllWritten es more ∧ raws = first ++ more

def Block.Written : Block → List Bytes → Prop
  | .missing, _ => False
  | .of _ body, raws => Stmt.AllWritten body raws

/-- The lexemes that a statement can be written as; an endless loop can be written in two ways. -/
def Stmt.Written : Stmt → List Bytes → Prop
  | .missing, _ => False
  | .set _ target value, raws => ∃ s v, target = some s ∧ value.Written v ∧
    raws = Keyword.set.word :: s.name :: (v ++ [Keyword.endWord.word])
  | .branch _ condition thenBlock elseBlock, raws =>
    ∃ c t, condition.Written c ∧ thenBlock.Written t ∧
      ((elseBlock = .missing ∧ raws = Keyword.ifWord.word :: (c ++ (t ++ [Keyword.endWord.word]))) ∨
        ∃ e, elseBlock.Written e ∧ raws = Keyword.ifWord.word ::
          (c ++ (t ++ Keyword.elseWord.word :: (e ++ [Keyword.endWord.word]))))
  | .times _ count body, raws => ∃ b, body.Written b ∧
    ((∃ c, count.Written c ∧ raws = Keyword.times.word :: (c ++ (b ++ [Keyword.endWord.word]))) ∨
      (∃ sp, count = .forever sp) ∧ raws = Keyword.forever.word :: (b ++ [Keyword.endWord.word]))
  | .call _ callee args, raws => ∃ c as, callee.Written c ∧ Expr.AllWritten args as ∧
    raws = [40] :: (c ++ (as ++ [[41]]))

def Stmt.AllWritten : List Stmt → List Bytes → Prop
  | [], raws => raws = []
  | s :: rest, raws => ∃ first more, s.Written first ∧ Stmt.AllWritten rest more ∧ raws = first ++ more

end

def Program.Written (p : Program) (raws : List Bytes) : Prop := Stmt.AllWritten p.body raws

@[simp] theorem isLexeme_keyword (k : Keyword) : IsLexeme k.word := ⟨.keyword k, nofun, rfl⟩

@[simp] theorem isLexeme_lparen : IsLexeme [40] := ⟨.lparen, nofun, rfl⟩

@[simp] theorem isLexeme_rparen : IsLexeme [41] := ⟨.rparen, nofun, rfl⟩

theorem isLexeme_symbol {name : Name} (h : isSymbol name) : IsLexeme name := ⟨.ident, nofun, h⟩

def AllLexemes (raws : List Bytes) : Prop := ∀ raw ∈ raws, IsLexeme raw

@[simp] theorem allLexemes_nil : AllLexemes [] := nofun

@[simp] theorem allLexemes_cons {raw : Bytes} {raws : List Bytes} :
    AllLexemes (raw :: raws) ↔ IsLexeme raw ∧ AllLexemes raws :=
  List.forall_mem_cons

@[simp] theorem allLexemes_append {raws raws' : List Bytes} :
    AllLexemes (raws ++ raws') ↔ AllLexemes raws ∧ AllLexemes raws' :=
  List.forall_mem_append

mutual

theorem Expr.Written.lexemes (e : Expr) (he : e.Writable) {raws : List Bytes} (h : e.Written raws) :
    AllLexemes raws := by
  cases e with
  | missing => exact he.elim
  | symbol s =>
    obtain rfl : raws = [s.name] := h
    simpa using isLexeme_symbol he
  | number sp n =>
    obtain ⟨raw, hraw, -, rfl⟩ := h
    have hlexeme : IsLexeme raw := ⟨.int, nofun, hraw⟩
    simpa using hlexeme
  | boolean sp value =>
    cases value <;> · obtain rfl := h; simp
  | null sp | forever sp =>
    obtain rfl := h
    simp
  | string sp value =>
    obtain rfl : raws = [34 :: value ++ [34]] := h
    have hlexeme : IsLexeme (34 :: value ++ [34]) := ⟨.string, nofun, value, he, rfl⟩
    simpa using hlexeme
  | call sp callee args =>
    obtain ⟨c, as, hc, has, rfl⟩ := h
    simp [Expr.Written.lexemes callee he.1 hc, Expr.AllWritten.lexemes args he.2 has]
  | function sp params body =>
    obtain ⟨b, hb, rfl⟩ := h
    obtain ⟨⟨ps, rfl, hsymbols, -⟩, hbody⟩ := he
    have hnames : AllLexemes (Params.names (some ps)) := by
      intro name hname
      obtain ⟨s, hs, rfl⟩ := List.mem_map.mp hname
      exact isLexeme_symbol (hsymbols s hs)
    simp [hnames, Block.Written.lexemes body hbody hb]
termination_by structural e

theorem Expr.AllWritten.lexemes (es : List Expr) (hes : Expr.AllWritable es) {raws : List Bytes}
    (h : Expr.AllWritten es raws) : AllLexemes raws := by
  cases es with
  | nil =>
    obtain rfl : raws = [] := h
    simp
  | cons e es =>
    obtain ⟨first, more, hfirst, hmore, rfl⟩ := h
    simp [Expr.Written.lexemes e hes.1 hfirst, Expr.AllWritten.lexemes es hes.2 hmore]
termination_by structural es

theorem Block.Written.lexemes (b : Block) (hb : b.Writable) {raws : List Bytes} (h : b.Written raws) :
    AllLexemes raws := by
  cases b with
  | missing => exact hb.elim
  | of sp body => exact Stmt.AllWritten.lexemes body hb h
termination_by structural b

theorem Stmt.Written.lexemes (s : Stmt) (hs : s.Writable) {raws : List Bytes} (h : s.Written raws) :
    AllLexemes raws := by
  cases s with
  | missing => exact hs.elim
  | set sp target value =>
    obtain ⟨symbol, v, rfl, hv, rfl⟩ := h
    obtain ⟨⟨symbol', hsome, hsymbol⟩, hvalue⟩ := hs
    cases hsome
    simp [isLexeme_symbol hsymbol, Expr.Written.lexemes value hvalue hv]
  | branch sp condition thenBlock elseBlock =>
    obtain ⟨c, t, hc, ht, ⟨-, rfl⟩ | ⟨e, he, rfl⟩⟩ := h
    · simp [Expr.Written.lexemes condition hs.1 hc, Block.Written.lexemes thenBlock hs.2.1 ht]
    · obtain rfl | helse := hs.2.2
      · exact he.elim
      · simp [Expr.Written.lexemes condition hs.1 hc, Block.Written.lexemes thenBlock hs.2.1 ht,
          Block.Written.lexemes elseBlock helse he]
  | times sp count body =>
    obtain ⟨b, hb, ⟨c, hc, rfl⟩ | ⟨-, rfl⟩⟩ := h
    · simp [Expr.Written.lexemes count hs.1 hc, Block.Written.lexemes body hs.2 hb]
    · simp [Block.Written.lexemes body hs.2 hb]
  | call sp callee args =>
    obtain ⟨c, as, hc, has, rfl⟩ := h
    simp [Expr.Written.lexemes callee hs.1 hc, Expr.AllWritten.lexemes args hs.2 has]
termination_by structural s

theorem Stmt.AllWritten.lexemes (body : List Stmt) (hbody : Stmt.AllWritable body)
    {raws : List Bytes} (h : Stmt.AllWritten body raws) : AllLexemes raws := by
  cases body with
  | nil =>
    obtain rfl : raws = [] := h
    simp
  | cons s rest =>
    obtain ⟨first, more, hfirst, hmore, rfl⟩ := h
    simp [Stmt.Written.lexemes s hbody.1 hfirst, Stmt.AllWritten.lexemes rest hbody.2 hmore]
termination_by structural body

end

section

variable {raw : Bytes} {raws : List Bytes} {ts : List Token}

theorem exists_token (kind : TokenKind) (hkind : kind ≠ .eof) (h : kind.Spells raw)
    (hts : AllSpelled ts) (hraws : ts.map Token.raw = raw :: raws) :
    ∃ (t : TokenOf kind) (rest : List Token), ts = t.token :: rest ∧ t.token.raw = raw ∧
      AllSpelled rest ∧ rest.map Token.raw = raws := by
  obtain ⟨t, rest, rfl, rfl, hrest⟩ := List.map_eq_cons_iff.mp hraws
  have hspelled : t.kind.Spells t.raw := hts t List.mem_cons_self
  exact ⟨⟨t, (TokenKind.eq_of_spells hkind h hspelled).symm, h⟩, rest, rfl, rfl, hts.tail, hrest⟩

theorem exists_params {symbols : List Symbol} (hsymbols : ∀ s ∈ symbols, isSymbol s.name)
    (hts : AllSpelled ts) (hraws : ts.map Token.raw = symbols.map Symbol.name ++ raws) :
    ∃ (params : List (TokenOf .ident)) (rest : List Token),
      ts = params.map TokenOf.token ++ rest ∧
      params.map (fun t => t.token.raw) = symbols.map Symbol.name ∧
      AllSpelled rest ∧ rest.map Token.raw = raws := by
  induction symbols generalizing ts with
  | nil => exact ⟨[], ts, rfl, rfl, hts, hraws⟩
  | cons s symbols ih =>
    rw [List.forall_mem_cons] at hsymbols
    obtain ⟨t, rest, rfl, ht, hrest, hraws⟩ := exists_token .ident nofun hsymbols.1 hts hraws
    obtain ⟨params, rest', rfl, hparams, hrest', hraws⟩ := ih hsymbols.2 hrest hraws
    exact ⟨t :: params, rest', rfl, by rw [List.map_cons, ht, hparams, List.map_cons], hrest', hraws⟩

end

theorem map_bare_eq {params : List (TokenOf .ident)} {symbols : List Symbol}
    (h : params.map (fun t => t.token.raw) = symbols.map Symbol.name) :
    (params.map TokenOf.symbol).map Symbol.bare = symbols.map Symbol.bare := by
  have hbare := congrArg (List.map (Symbol.mk .nowhere)) h
  rw [List.map_map, List.map_map] at hbare
  rw [List.map_map]
  exact hbare

mutual

theorem Expr.Written.exists_phrase (e : Expr) (he : e.Writable) {raws raws' : List Bytes}
    (h : e.Written raws) {ts : List Token} (hts : AllSpelled ts)
    (hraws : ts.map Token.raw = raws ++ raws') :
    ∃ (d : ExprPhrase) (rest : List Token), ts = d.tokens ++ rest ∧ d.Admissible ∧
      d.tree.bare = e.bare ∧ AllSpelled rest ∧ rest.map Token.raw = raws' := by
  cases e with
  | missing => exact he.elim
  | symbol s =>
    obtain rfl : raws = [s.name] := h
    obtain ⟨t, rest, rfl, ht, hrest, hraws⟩ := exists_token .ident nofun he hts hraws
    refine ⟨.atom (.symbol t), rest, rfl, trivial, ?_, hrest, hraws⟩
    simp only [ExprPhrase.tree, Atom.tree, Expr.bare, Symbol.bare, ht]
  | number sp n =>
    obtain ⟨raw, hraw, hvalue, rfl⟩ := h
    obtain ⟨t, rest, rfl, rfl, hrest, hraws⟩ := exists_token .int nofun hraw hts hraws
    refine ⟨.atom (.number t), rest, rfl, ?_, ?_, hrest, hraws⟩
    · rw [ExprPhrase.Admissible, Atom.Admissible, hvalue]
      exact fitsInt64_toInt n
    · simp only [ExprPhrase.tree, Atom.tree, Expr.bare, hvalue, Int64.ofInt_toInt]
  | boolean sp value =>
    cases value with
    | true =>
      obtain rfl : raws = [Keyword.trueWord.word] := h
      obtain ⟨t, rest, rfl, -, hrest, hraws⟩ :=
        exists_token (.keyword .trueWord) nofun rfl hts hraws
      exact ⟨.atom (.yes t), rest, rfl, trivial, rfl, hrest, hraws⟩
    | false =>
      obtain rfl : raws = [Keyword.falseWord.word] := h
      obtain ⟨t, rest, rfl, -, hrest, hraws⟩ :=
        exists_token (.keyword .falseWord) nofun rfl hts hraws
      exact ⟨.atom (.no t), rest, rfl, trivial, rfl, hrest, hraws⟩
  | null sp =>
    obtain rfl : raws = [Keyword.null.word] := h
    obtain ⟨t, rest, rfl, -, hrest, hraws⟩ := exists_token (.keyword .null) nofun rfl hts hraws
    exact ⟨.atom (.null t), rest, rfl, trivial, rfl, hrest, hraws⟩
  | string sp value =>
    obtain rfl : raws = [34 :: value ++ [34]] := h
    obtain ⟨t, rest, rfl, ht, hrest, hraws⟩ := exists_token .string nofun ⟨value, he, rfl⟩ hts hraws
    refine ⟨.atom (.string t), rest, rfl, trivial, ?_, hrest, hraws⟩
    simp only [ExprPhrase.tree, Atom.tree, Expr.bare, ht, unquoted, List.cons_append, List.tail_cons,
      List.dropLast_concat]
  | forever sp =>
    obtain rfl : raws = [Keyword.forever.word] := h
    obtain ⟨t, rest, rfl, -, hrest, hraws⟩ := exists_token (.keyword .forever) nofun rfl hts hraws
    exact ⟨.atom (.forever t), rest, rfl, trivial, rfl, hrest, hraws⟩
  | call sp callee args =>
    obtain ⟨c, as, hc, has, rfl⟩ := h
    simp only [List.cons_append, List.append_assoc, List.nil_append] at hraws
    obtain ⟨opener, ts, rfl, -, hts, hraws⟩ := exists_token .lparen nofun rfl hts hraws
    obtain ⟨d, ts, rfl, hd, hcallee, hts, hraws⟩ :=
      Expr.Written.exists_phrase callee he.1 hc hts hraws
    obtain ⟨ds, ts, rfl, hds, hargs, hts, hraws⟩ :=
      Expr.AllWritten.exists_phrases args he.2 has hts hraws
    obtain ⟨close, ts, rfl, -, hts, hraws⟩ := exists_token .rparen nofun rfl hts hraws
    refine ⟨.call opener d ds close, ts, by simp [ExprPhrase.tokens], ⟨hd, hds⟩, ?_, hts, hraws⟩
    simp only [ExprPhrase.tree, Expr.bare, hcallee, hargs]
  | function sp params body =>
    obtain ⟨b, hb, rfl⟩ := h
    obtain ⟨⟨ps, rfl, hsymbols, hnodup⟩, hbody⟩ := he
    simp only [Params.names, List.cons_append, List.append_assoc, List.nil_append] at hraws
    obtain ⟨word, ts, rfl, -, hts, hraws⟩ :=
      exists_token (.keyword .function) nofun rfl hts hraws
    obtain ⟨opener, ts, rfl, -, hts, hraws⟩ := exists_token .lparen nofun rfl hts hraws
    obtain ⟨params, ts, rfl, hparams, hts, hraws⟩ := exists_params hsymbols hts hraws
    obtain ⟨close, ts, rfl, -, hts, hraws⟩ := exists_token .rparen nofun rfl hts hraws
    obtain ⟨ds, ts, rfl, hds, hblock, hts, hraws⟩ :=
      Block.Written.exists_phrases body hbody hb hts hraws
    obtain ⟨stop, ts, rfl, -, hts, hraws⟩ := exists_token (.keyword .endWord) nofun rfl hts hraws
    refine ⟨.function word opener params close ds stop, ts, by simp [ExprPhrase.tokens],
      ⟨hparams ▸ hnodup, hds⟩, ?_, hts, hraws⟩
    simp only [ExprPhrase.tree, Expr.bare, Option.map_some, map_bare_eq hparams, hblock]
termination_by structural e

theorem Expr.AllWritten.exists_phrases (es : List Expr) (hes : Expr.AllWritable es)
    {raws raws' : List Bytes} (h : Expr.AllWritten es raws) {ts : List Token} (hts : AllSpelled ts)
    (hraws : ts.map Token.raw = raws ++ raws') :
    ∃ (ds : List ExprPhrase) (rest : List Token), ts = ExprPhrase.tokensOf ds ++ rest ∧
      ExprPhrase.AllAdmissible ds ∧ Expr.bareAll (ExprPhrase.trees ds) = Expr.bareAll es ∧
      AllSpelled rest ∧ rest.map Token.raw = raws' := by
  cases es with
  | nil =>
    obtain rfl : raws = [] := h
    exact ⟨[], ts, rfl, trivial, rfl, hts, hraws⟩
  | cons e es =>
    obtain ⟨first, more, hfirst, hmore, rfl⟩ := h
    rw [List.append_assoc] at hraws
    obtain ⟨d, ts, rfl, hd, hbare, hts, hraws⟩ :=
      Expr.Written.exists_phrase e hes.1 hfirst hts hraws
    obtain ⟨ds, ts, rfl, hds, hbares, hts, hraws⟩ :=
      Expr.AllWritten.exists_phrases es hes.2 hmore hts hraws
    refine ⟨d :: ds, ts, by simp [ExprPhrase.tokensOf], ⟨hd, hds⟩, ?_, hts, hraws⟩
    simp only [ExprPhrase.trees, Expr.bareAll, hbare, hbares]
termination_by structural es

theorem Block.Written.exists_phrases (b : Block) (hb : b.Writable) {raws raws' : List Bytes}
    (h : b.Written raws) {ts : List Token} (hts : AllSpelled ts)
    (hraws : ts.map Token.raw = raws ++ raws') :
    ∃ (ds : List StmtPhrase) (rest : List Token), ts = StmtPhrase.tokensOf ds ++ rest ∧
      StmtPhrase.AllAdmissible ds ∧
      (∀ stop, (blockBefore stop (StmtPhrase.tokensOf ds) (StmtPhrase.trees ds)).bare = b.bare) ∧
      AllSpelled rest ∧ rest.map Token.raw = raws' := by
  cases b with
  | missing => exact hb.elim
  | of sp body =>
    obtain ⟨ds, rest, hds, hadm, hbare, hrest⟩ :=
      Stmt.AllWritten.exists_phrases body hb h hts hraws
    exact ⟨ds, rest, hds, hadm, fun stop => by rw [blockBefore, Block.bare, hbare, Block.bare], hrest⟩
termination_by structural b

theorem Stmt.Written.exists_phrase (s : Stmt) (hs : s.Writable) {raws raws' : List Bytes}
    (h : s.Written raws) {ts : List Token} (hts : AllSpelled ts)
    (hraws : ts.map Token.raw = raws ++ raws') :
    ∃ (d : StmtPhrase) (rest : List Token), ts = d.tokens ++ rest ∧ d.Admissible ∧
      d.tree.bare = s.bare ∧ AllSpelled rest ∧ rest.map Token.raw = raws' := by
  cases s with
  | missing => exact hs.elim
  | set sp target value =>
    obtain ⟨symbol, v, rfl, hv, rfl⟩ := h
    obtain ⟨⟨symbol', hsome, hsymbol⟩, hvalue⟩ := hs
    cases hsome
    simp only [List.cons_append, List.append_assoc, List.nil_append] at hraws
    obtain ⟨word, ts, rfl, -, hts, hraws⟩ := exists_token (.keyword .set) nofun rfl hts hraws
    obtain ⟨name, ts, rfl, hname, hts, hraws⟩ := exists_token .ident nofun hsymbol hts hraws
    obtain ⟨d, ts, rfl, hd, hbare, hts, hraws⟩ :=
      Expr.Written.exists_phrase value hvalue hv hts hraws
    obtain ⟨stop, ts, rfl, -, hts, hraws⟩ := exists_token (.keyword .endWord) nofun rfl hts hraws
    refine ⟨.set word name d stop, ts, by simp [StmtPhrase.tokens], hd, ?_, hts, hraws⟩
    simp only [StmtPhrase.tree, Stmt.bare, Option.map_some, TokenOf.symbol, Symbol.bare, hname, hbare]
  | branch sp condition thenBlock elseBlock =>
    obtain ⟨c, t, hc, ht, ⟨rfl, rfl⟩ | ⟨e, he, rfl⟩⟩ := h
    all_goals
      simp only [List.cons_append, List.append_assoc, List.nil_append] at hraws
      obtain ⟨word, ts, rfl, -, hts, hraws⟩ := exists_token (.keyword .ifWord) nofun rfl hts hraws
      obtain ⟨d, ts, rfl, hd, hbare, hts, hraws⟩ :=
        Expr.Written.exists_phrase condition hs.1 hc hts hraws
      obtain ⟨ds, ts, rfl, hds, hthen, hts, hraws⟩ :=
        Block.Written.exists_phrases thenBlock hs.2.1 ht hts hraws
    · obtain ⟨stop, ts, rfl, -, hts, hraws⟩ := exists_token (.keyword .endWord) nofun rfl hts hraws
      refine ⟨.branch word d ds stop, ts, by simp [StmtPhrase.tokens], ⟨hd, hds⟩, ?_, hts, hraws⟩
      simp only [StmtPhrase.tree, Stmt.bare, hbare, hthen]
    · obtain ⟨middle, ts, rfl, -, hts, hraws⟩ :=
        exists_token (.keyword .elseWord) nofun rfl hts hraws
      obtain rfl | helse := hs.2.2
      · exact he.elim
      obtain ⟨ds', ts, rfl, hds', hbare', hts, hraws⟩ :=
        Block.Written.exists_phrases elseBlock helse he hts hraws
      obtain ⟨stop, ts, rfl, -, hts, hraws⟩ := exists_token (.keyword .endWord) nofun rfl hts hraws
      refine ⟨.branchElse word d ds middle ds' stop, ts, by simp [StmtPhrase.tokens],
        ⟨hd, hds, hds'⟩, ?_, hts, hraws⟩
      simp only [StmtPhrase.tree, Stmt.bare, hbare, hthen, hbare']
  | times sp count body =>
    obtain ⟨b, hb, ⟨c, hc, rfl⟩ | ⟨⟨sp', rfl⟩, rfl⟩⟩ := h
    all_goals simp only [List.cons_append, List.append_assoc, List.nil_append] at hraws
    · obtain ⟨word, ts, rfl, -, hts, hraws⟩ := exists_token (.keyword .times) nofun rfl hts hraws
      obtain ⟨d, ts, rfl, hd, hbare, hts, hraws⟩ :=
        Expr.Written.exists_phrase count hs.1 hc hts hraws
      obtain ⟨ds, ts, rfl, hds, hbody, hts, hraws⟩ :=
        Block.Written.exists_phrases body hs.2 hb hts hraws
      obtain ⟨stop, ts, rfl, -, hts, hraws⟩ := exists_token (.keyword .endWord) nofun rfl hts hraws
      refine ⟨.times word d ds stop, ts, by simp [StmtPhrase.tokens], ⟨hd, hds⟩, ?_, hts, hraws⟩
      simp only [StmtPhrase.tree, Stmt.bare, hbare, hbody]
    · obtain ⟨word, ts, rfl, -, hts, hraws⟩ := exists_token (.keyword .forever) nofun rfl hts hraws
      obtain ⟨ds, ts, rfl, hds, hbody, hts, hraws⟩ :=
        Block.Written.exists_phrases body hs.2 hb hts hraws
      obtain ⟨stop, ts, rfl, -, hts, hraws⟩ := exists_token (.keyword .endWord) nofun rfl hts hraws
      refine ⟨.forever word ds stop, ts, by simp [StmtPhrase.tokens], hds, ?_, hts, hraws⟩
      simp only [StmtPhrase.tree, Stmt.bare, Expr.bare, hbody]
  | call sp callee args =>
    obtain ⟨c, as, hc, has, rfl⟩ := h
    simp only [List.cons_append, List.append_assoc, List.nil_append] at hraws
    obtain ⟨opener, ts, rfl, -, hts, hraws⟩ := exists_token .lparen nofun rfl hts hraws
    obtain ⟨d, ts, rfl, hd, hcallee, hts, hraws⟩ :=
      Expr.Written.exists_phrase callee hs.1 hc hts hraws
    obtain ⟨ds, ts, rfl, hds, hargs, hts, hraws⟩ :=
      Expr.AllWritten.exists_phrases args hs.2 has hts hraws
    obtain ⟨close, ts, rfl, -, hts, hraws⟩ := exists_token .rparen nofun rfl hts hraws
    refine ⟨.call opener d ds close, ts, by simp [StmtPhrase.tokens], ⟨hd, hds⟩, ?_, hts, hraws⟩
    simp only [StmtPhrase.tree, Stmt.bare, hcallee, hargs]
termination_by structural s

theorem Stmt.AllWritten.exists_phrases (body : List Stmt) (hbody : Stmt.AllWritable body)
    {raws raws' : List Bytes} (h : Stmt.AllWritten body raws) {ts : List Token} (hts : AllSpelled ts)
    (hraws : ts.map Token.raw = raws ++ raws') :
    ∃ (ds : List StmtPhrase) (rest : List Token), ts = StmtPhrase.tokensOf ds ++ rest ∧
      StmtPhrase.AllAdmissible ds ∧ Stmt.bareAll (StmtPhrase.trees ds) = Stmt.bareAll body ∧
      AllSpelled rest ∧ rest.map Token.raw = raws' := by
  cases body with
  | nil =>
    obtain rfl : raws = [] := h
    exact ⟨[], ts, rfl, trivial, rfl, hts, hraws⟩
  | cons s body =>
    obtain ⟨first, more, hfirst, hmore, rfl⟩ := h
    rw [List.append_assoc] at hraws
    obtain ⟨d, ts, rfl, hd, hbare, hts, hraws⟩ :=
      Stmt.Written.exists_phrase s hbody.1 hfirst hts hraws
    obtain ⟨ds, ts, rfl, hds, hbares, hts, hraws⟩ :=
      Stmt.AllWritten.exists_phrases body hbody.2 hmore hts hraws
    refine ⟨d :: ds, ts, by simp [StmtPhrase.tokensOf], ⟨hd, hds⟩, ?_, hts, hraws⟩
    simp only [StmtPhrase.trees, Stmt.bareAll, hbare, hbares]
termination_by structural body

end

mutual

theorem Expr.Writable.exists_written (e : Expr) (h : e.Writable) : ∃ raws, e.Written raws := by
  cases e with
  | missing => exact h.elim
  | number sp n =>
    exact ⟨[Decimal.ofWord n], _, isNumeral_ofInt n.toInt, numeralValue_ofInt n.toInt, rfl⟩
  | symbol | boolean | null | string | forever => exact ⟨_, rfl⟩
  | call sp callee args =>
    obtain ⟨c, hc⟩ := Expr.Writable.exists_written callee h.1
    obtain ⟨as, has⟩ := Expr.AllWritable.exists_written args h.2
    exact ⟨_, c, as, hc, has, rfl⟩
  | function sp params body =>
    obtain ⟨b, hb⟩ := Block.Writable.exists_written body h.2
    exact ⟨_, b, hb, rfl⟩
termination_by structural e

theorem Expr.AllWritable.exists_written (es : List Expr) (h : Expr.AllWritable es) :
    ∃ raws, Expr.AllWritten es raws := by
  cases es with
  | nil => exact ⟨[], rfl⟩
  | cons e es =>
    obtain ⟨first, hfirst⟩ := Expr.Writable.exists_written e h.1
    obtain ⟨more, hmore⟩ := Expr.AllWritable.exists_written es h.2
    exact ⟨_, first, more, hfirst, hmore, rfl⟩
termination_by structural es

theorem Block.Writable.exists_written (b : Block) (h : b.Writable) : ∃ raws, b.Written raws := by
  cases b with
  | missing => exact h.elim
  | of sp body => exact Stmt.AllWritable.exists_written body h
termination_by structural b

theorem Stmt.Writable.exists_written (s : Stmt) (h : s.Writable) : ∃ raws, s.Written raws := by
  cases s with
  | missing => exact h.elim
  | set sp target value =>
    obtain ⟨symbol, htarget, -⟩ := h.1
    obtain ⟨v, hv⟩ := Expr.Writable.exists_written value h.2
    exact ⟨_, symbol, v, htarget, hv, rfl⟩
  | branch sp condition thenBlock elseBlock =>
    obtain ⟨c, hc⟩ := Expr.Writable.exists_written condition h.1
    obtain ⟨t, ht⟩ := Block.Writable.exists_written thenBlock h.2.1
    obtain helse | helse := h.2.2
    · exact ⟨_, c, t, hc, ht, .inl ⟨helse, rfl⟩⟩
    · obtain ⟨e, he⟩ := Block.Writable.exists_written elseBlock helse
      exact ⟨_, c, t, hc, ht, .inr ⟨e, he, rfl⟩⟩
  | times sp count body =>
    obtain ⟨c, hc⟩ := Expr.Writable.exists_written count h.1
    obtain ⟨b, hb⟩ := Block.Writable.exists_written body h.2
    exact ⟨_, b, hb, .inl ⟨c, hc, rfl⟩⟩
  | call sp callee args =>
    obtain ⟨c, hc⟩ := Expr.Writable.exists_written callee h.1
    obtain ⟨as, has⟩ := Expr.AllWritable.exists_written args h.2
    exact ⟨_, c, as, hc, has, rfl⟩
termination_by structural s

theorem Stmt.AllWritable.exists_written (body : List Stmt) (h : Stmt.AllWritable body) :
    ∃ raws, Stmt.AllWritten body raws := by
  cases body with
  | nil => exact ⟨[], rfl⟩
  | cons s body =>
    obtain ⟨first, hfirst⟩ := Stmt.Writable.exists_written s h.1
    obtain ⟨more, hmore⟩ := Stmt.AllWritable.exists_written body h.2
    exact ⟨_, first, more, hfirst, hmore, rfl⟩
termination_by structural body

end

/-- A tree that can be written is read back, but for its places, from every text that its lexemes are
spaced out to. -/
theorem reading_undoes_writing (p : Program) (hp : p.Writable) :
    (∃ raws, p.Written raws) ∧
    ∀ raws text, p.Written raws → Spaced raws text →
      ∃ p', Program.read text = .ok p' ∧ p'.bare = p.bare := by
  refine ⟨Stmt.AllWritable.exists_written p.body hp, fun raws text hraws htext => ?_⟩
  obtain ⟨ts, hts, hitems⟩ :=
    scanFrom_spaced .origin (Stmt.AllWritten.lexemes p.body hp hraws) htext
  obtain ⟨body, rest, htokens, hbody, hbare, -, hrest⟩ :=
    Stmt.AllWritten.exists_phrases p.body hp hraws (scanFrom_spelled .origin text hts)
      (hitems.trans (List.append_nil raws).symm)
  obtain rfl : rest = [] := List.map_eq_nil_iff.mp hrest
  rw [List.append_nil] at htokens
  exact ⟨_, Program.read_yields hts htokens hbody, by rw [Program.bare, Program.bare, ← hbare]; rfl⟩

theorem reading_undoes_writing_comments :
    ∃ p', Program.read (utf8 "times forever// loop\n( f \"a // b\" -07 ) end // done") = .ok p' ∧
      p'.bare = ⟨.nowhere, [.times .nowhere (.forever .nowhere) (.of .nowhere
        [.call .nowhere (.symbol ⟨.nowhere, utf8 "f"⟩)
          [.string .nowhere (utf8 "a // b"), .number .nowhere (-7)]])]⟩ := by
  let p : Program := ⟨.nowhere, [.times .nowhere (.forever .nowhere) (.of .nowhere
    [.call .nowhere (.symbol ⟨.nowhere, utf8 "f"⟩)
      [.string .nowhere (utf8 "a // b"), .number .nowhere (-7)]])]⟩
  have hp : p.Writable := by
    simp [p, Program.Writable, Stmt.AllWritable, Stmt.Writable, Expr.Writable, Block.Writable,
      Expr.AllWritable]
    decide
  have hwritten : p.Written [utf8 "times", utf8 "forever", [40], utf8 "f", utf8 "\"a // b\"",
      utf8 "-07", [41], utf8 "end"] := by
    have hnumber : IsNumeral (utf8 "-07") := ⟨utf8 "07", by decide, by decide, .inr rfl⟩
    have hcall : Stmt.AllWritten [.call .nowhere (.symbol ⟨.nowhere, utf8 "f"⟩)
        [.string .nowhere (utf8 "a // b"), .number .nowhere (-7)]]
        [[40], utf8 "f", utf8 "\"a // b\"", utf8 "-07", [41]] :=
      ⟨_, [], ⟨[utf8 "f"], [utf8 "\"a // b\"", utf8 "-07"], rfl,
        ⟨[utf8 "\"a // b\""], [utf8 "-07"], rfl,
          ⟨[utf8 "-07"], [], ⟨_, hnumber, rfl, rfl⟩, rfl, rfl⟩, rfl⟩, rfl⟩, rfl, rfl⟩
    exact ⟨_, [], ⟨_, hcall, .inl ⟨[utf8 "forever"], rfl, rfl⟩⟩, rfl, rfl⟩
  have hblank : Trivia (utf8 " ") := .blank rfl .nil
  have hloop : Trivia (utf8 "// loop\n") :=
    show Trivia (47 :: 47 :: (utf8 " loop" ++ 10 :: [])) from .comment (by decide) .nil
  have hdone : ClosingTrivia (utf8 " // done") := .inr ⟨_, utf8 " done", hblank, by decide, rfl⟩
  refine (reading_undoes_writing p hp).2 _ _ hwritten ?_
  refine ⟨[], utf8 " forever// loop\n( f \"a // b\" -07 ) end // done", .nil, by decide, ?_⟩
  refine ⟨_, utf8 "// loop\n( f \"a // b\" -07 ) end // done", by decide, hblank, by decide, ?_⟩
  refine ⟨_, utf8 " f \"a // b\" -07 ) end // done", by decide, hloop, by decide, ?_⟩
  refine ⟨_, utf8 " \"a // b\" -07 ) end // done", by decide, hblank, by decide, ?_⟩
  refine ⟨_, utf8 " -07 ) end // done", by decide, hblank, by decide, ?_⟩
  refine ⟨_, utf8 " ) end // done", by decide, hblank, by decide, ?_⟩
  refine ⟨_, utf8 " end // done", by decide, hblank, by decide, ?_⟩
  exact ⟨_, utf8 " // done", by decide, hblank, by decide, hdone⟩

end Stepwise
