import Mathlib
import Stepwise.Proofs.Parts

/-! A statement cut out of its text. Its tokens lie in the piece as they lay in the text, only that they
are counted from where the piece starts; so the piece is read as the statement alone. -/

namespace Stepwise

/-- A place as it is counted from where another one starts. Only on its first line does a piece of text
change the columns. -/
def Span.since (base s : Span) : Span :=
  ⟨s.start - base.start, s.stop - base.start, s.line - base.line + 1,
    if s.line = base.line then s.column - base.column + 1 else s.column⟩

def Token.relocate (f : Span → Span) (t : Token) : Token := { t with span := f t.span }

def TokenOf.relocate (f : Span → Span) {kind : TokenKind} (t : TokenOf kind) : TokenOf kind :=
  ⟨t.token.relocate f, t.kind_eq, t.spells⟩

def Symbol.relocate (f : Span → Span) (s : Symbol) : Symbol := { s with span := f s.span }

def Params.relocate (f : Span → Span) (ps : Params) : Params := ⟨f ps.span, ps.symbols.map (.relocate f)⟩

mutual

/-- A tree with the places of its parts changed. -/
def Expr.relocate (f : Span → Span) : Expr → Expr
  | .missing => .missing
  | .symbol s => .symbol (s.relocate f)
  | .number sp value => .number (f sp) value
  | .boolean sp value => .boolean (f sp) value
  | .null sp => .null (f sp)
  | .string sp value => .string (f sp) value
  | .forever sp => .forever (f sp)
  | .call sp callee args => .call (f sp) (callee.relocate f) (Expr.relocateAll f args)
  | .function sp params body => .function (f sp) (params.map (.relocate f)) (body.relocate f)

def Expr.relocateAll (f : Span → Span) : List Expr → List Expr
  | [] => []
  | e :: es => e.relocate f :: Expr.relocateAll f es

def Block.relocate (f : Span → Span) : Block → Block
  | .missing => .missing
  | .of sp body => .of (f sp) (Stmt.relocateAll f body)

def Stmt.relocate (f : Span → Span) : Stmt → Stmt
  | .missing => .missing
  | .set sp target value => .set (f sp) (target.map (.relocate f)) (value.relocate f)
  | .branch sp condition thenBlock elseBlock =>
    .branch (f sp) (condition.relocate f) (thenBlock.relocate f) (elseBlock.relocate f)
  | .times sp count body => .times (f sp) (count.relocate f) (body.relocate f)
  | .call sp callee args => .call (f sp) (callee.relocate f) (Expr.relocateAll f args)

def Stmt.relocateAll (f : Span → Span) : List Stmt → List Stmt
  | [] => []
  | s :: rest => s.relocate f :: Stmt.relocateAll f rest

end

def Atom.relocate (f : Span → Span) : Atom → Atom
  | .number t => .number (t.relocate f)
  | .string t => .string (t.relocate f)
  | .yes t => .yes (t.relocate f)
  | .no t => .no (t.relocate f)
  | .null t => .null (t.relocate f)
  | .symbol t => .symbol (t.relocate f)
  | .forever t => .forever (t.relocate f)

mutual

/-- The same phrase of tokens in other places. -/
def ExprPhrase.relocate (f : Span → Span) : ExprPhrase → ExprPhrase
  | .atom a => .atom (a.relocate f)
  | .call opener callee args close =>
    .call (opener.relocate f) (callee.relocate f) (ExprPhrase.relocateAll f args) (close.relocate f)
  | .function word opener params close body stop =>
    .function (word.relocate f) (opener.relocate f) (params.map (.relocate f)) (close.relocate f)
      (StmtPhrase.relocateAll f body) (stop.relocate f)

def ExprPhrase.relocateAll (f : Span → Span) : List ExprPhrase → List ExprPhrase
  | [] => []
  | d :: ds => d.relocate f :: ExprPhrase.relocateAll f ds

def StmtPhrase.relocate (f : Span → Span) : StmtPhrase → StmtPhrase
  | .set word target value stop =>
    .set (word.relocate f) (target.relocate f) (value.relocate f) (stop.relocate f)
  | .branch word condition body stop =>
    .branch (word.relocate f) (condition.relocate f) (StmtPhrase.relocateAll f body) (stop.relocate f)
  | .branchElse word condition thenBody middle elseBody stop =>
    .branchElse (word.relocate f) (condition.relocate f) (StmtPhrase.relocateAll f thenBody)
      (middle.relocate f) (StmtPhrase.relocateAll f elseBody) (stop.relocate f)
  | .times word count body stop =>
    .times (word.relocate f) (count.relocate f) (StmtPhrase.relocateAll f body) (stop.relocate f)
  | .forever word body stop => .forever (word.relocate f) (StmtPhrase.relocateAll f body) (stop.relocate f)
  | .call opener callee args close =>
    .call (opener.relocate f) (callee.relocate f) (ExprPhrase.relocateAll f args) (close.relocate f)

def StmtPhrase.relocateAll (f : Span → Span) : List StmtPhrase → List StmtPhrase
  | [] => []
  | d :: ds => d.relocate f :: StmtPhrase.relocateAll f ds

end

section Relocation

variable (f : Span → Span)

theorem Atom.token_relocate (a : Atom) : (a.relocate f).token = a.token.relocate f := by
  cases a <;> rfl

theorem TokenOf.map_token_relocate {kind : TokenKind} (ts : List (TokenOf kind)) :
    (ts.map (.relocate f)).map TokenOf.token = (ts.map TokenOf.token).map (.relocate f) := by
  simp only [List.map_map]
  rfl

mutual

theorem ExprPhrase.tokens_relocate (d : ExprPhrase) :
    (d.relocate f).tokens = d.tokens.map (.relocate f) := by
  cases d with
  | atom a => rw [ExprPhrase.relocate, ExprPhrase.tokens, ExprPhrase.tokens, a.token_relocate]; rfl
  | call opener callee args close =>
    simp only [ExprPhrase.relocate, ExprPhrase.tokens, List.map_cons, List.map_append, List.map_nil,
      ExprPhrase.tokens_relocate callee, ExprPhrase.tokensOf_relocate args, TokenOf.relocate]
  | function word opener params close body stop =>
    simp only [ExprPhrase.relocate, ExprPhrase.tokens, List.map_cons, List.map_append, List.map_nil,
      TokenOf.map_token_relocate, StmtPhrase.tokensOf_relocate body]
    rfl
termination_by structural d

theorem ExprPhrase.tokensOf_relocate (ds : List ExprPhrase) :
    ExprPhrase.tokensOf (ExprPhrase.relocateAll f ds) = (ExprPhrase.tokensOf ds).map (.relocate f) := by
  cases ds with
  | nil => rfl
  | cons d ds =>
    simp only [ExprPhrase.relocateAll, ExprPhrase.tokensOf, List.map_append,
      ExprPhrase.tokens_relocate d, ExprPhrase.tokensOf_relocate ds]
termination_by structural ds

theorem StmtPhrase.tokens_relocate (d : StmtPhrase) :
    (d.relocate f).tokens = d.tokens.map (.relocate f) := by
  cases d with
  | set word target value stop =>
    simp only [StmtPhrase.relocate, StmtPhrase.tokens, List.map_cons, List.map_append, List.map_nil,
      ExprPhrase.tokens_relocate value, TokenOf.relocate]
  | branch word condition body stop =>
    simp only [StmtPhrase.relocate, StmtPhrase.tokens, List.map_cons, List.map_append, List.map_nil,
      ExprPhrase.tokens_relocate condition, StmtPhrase.tokensOf_relocate body, TokenOf.relocate]
  | branchElse word condition thenBody middle elseBody stop =>
    simp only [StmtPhrase.relocate, StmtPhrase.tokens, List.map_cons, List.map_append, List.map_nil,
      ExprPhrase.tokens_relocate condition, StmtPhrase.tokensOf_relocate thenBody,
      StmtPhrase.tokensOf_relocate elseBody, TokenOf.relocate]
  | times word count body stop =>
    simp only [StmtPhrase.relocate, StmtPhrase.tokens, List.map_cons, List.map_append, List.map_nil,
      ExprPhrase.tokens_relocate count, StmtPhrase.tokensOf_relocate body, TokenOf.relocate]
  | forever word body stop =>
    simp only [StmtPhrase.relocate, StmtPhrase.tokens, List.map_cons, List.map_append, List.map_nil,
      StmtPhrase.tokensOf_relocate body, TokenOf.relocate]
  | call opener callee args close =>
    simp only [StmtPhrase.relocate, StmtPhrase.tokens, List.map_cons, List.map_append, List.map_nil,
      ExprPhrase.tokens_relocate callee, ExprPhrase.tokensOf_relocate args, TokenOf.relocate]
termination_by structural d

theorem StmtPhrase.tokensOf_relocate (ds : List StmtPhrase) :
    StmtPhrase.tokensOf (StmtPhrase.relocateAll f ds) = (StmtPhrase.tokensOf ds).map (.relocate f) := by
  cases ds with
  | nil => rfl
  | cons d ds =>
    simp only [StmtPhrase.relocateAll, StmtPhrase.tokensOf, List.map_append,
      StmtPhrase.tokens_relocate d, StmtPhrase.tokensOf_relocate ds]
termination_by structural ds

end

theorem TokenOf.map_raw_relocate {kind : TokenKind} (ts : List (TokenOf kind)) :
    (ts.map (TokenOf.relocate f)).map (fun t => t.token.raw) = ts.map fun t => t.token.raw := by
  rw [List.map_map]
  rfl

mutual

theorem ExprPhrase.admissible_relocate (d : ExprPhrase) (h : d.Admissible) : (d.relocate f).Admissible := by
  cases d with
  | atom a => cases a <;> exact h
  | call opener callee args close =>
    exact ⟨ExprPhrase.admissible_relocate callee h.1, ExprPhrase.allAdmissible_relocate args h.2⟩
  | function word opener params close body stop =>
    refine ⟨?_, StmtPhrase.allAdmissible_relocate body h.2⟩
    rw [TokenOf.map_raw_relocate]
    exact h.1
termination_by structural d

theorem ExprPhrase.allAdmissible_relocate (ds : List ExprPhrase) (h : ExprPhrase.AllAdmissible ds) :
    ExprPhrase.AllAdmissible (ExprPhrase.relocateAll f ds) := by
  cases ds with
  | nil => exact trivial
  | cons d ds => exact ⟨ExprPhrase.admissible_relocate d h.1, ExprPhrase.allAdmissible_relocate ds h.2⟩
termination_by structural ds

theorem StmtPhrase.admissible_relocate (d : StmtPhrase) (h : d.Admissible) : (d.relocate f).Admissible := by
  cases d with
  | set word target value stop => exact ExprPhrase.admissible_relocate value h
  | branch word condition body stop =>
    exact ⟨ExprPhrase.admissible_relocate condition h.1, StmtPhrase.allAdmissible_relocate body h.2⟩
  | branchElse word condition thenBody middle elseBody stop =>
    exact ⟨ExprPhrase.admissible_relocate condition h.1, StmtPhrase.allAdmissible_relocate thenBody h.2.1,
      StmtPhrase.allAdmissible_relocate elseBody h.2.2⟩
  | times word count body stop =>
    exact ⟨ExprPhrase.admissible_relocate count h.1, StmtPhrase.allAdmissible_relocate body h.2⟩
  | forever word body stop => exact StmtPhrase.allAdmissible_relocate body h
  | call opener callee args close =>
    exact ⟨ExprPhrase.admissible_relocate callee h.1, ExprPhrase.allAdmissible_relocate args h.2⟩
termination_by structural d

theorem StmtPhrase.allAdmissible_relocate (ds : List StmtPhrase) (h : StmtPhrase.AllAdmissible ds) :
    StmtPhrase.AllAdmissible (StmtPhrase.relocateAll f ds) := by
  cases ds with
  | nil => exact trivial
  | cons d ds => exact ⟨StmtPhrase.admissible_relocate d h.1, StmtPhrase.allAdmissible_relocate ds h.2⟩
termination_by structural ds

end

variable {f : Span → Span}

/-- A change of places that lets ranges be put together before it or after it. -/
structure Shifts (f : Span → Span) : Prop where
  through (s s' : Span) : f (s.through s') = (f s).through (f s')
  opening (s : Span) : f s.opening = (f s).opening

theorem shifts_since (base : Span) : Shifts base.since := ⟨fun _ _ => rfl, fun _ => rfl⟩

theorem Stmt.relocateAll_eq_map (body : List Stmt) : Stmt.relocateAll f body = body.map (.relocate f) := by
  induction body with
  | nil => rfl
  | cons s rest ih => rw [Stmt.relocateAll, ih, List.map_cons]

theorem StmtPhrase.span_relocate (ds : List StmtPhrase) :
    ∀ s ∈ StmtPhrase.trees ds, (s.relocate f).span = f s.span := by
  induction ds with
  | nil => exact nofun
  | cons d ds ih => exact List.forall_mem_cons.mpr ⟨by cases d <;> rfl, ih⟩

theorem peek_relocate (stop : Token) (ts : List Token) :
    peek (stop.relocate f) (ts.map (.relocate f)) = (peek stop ts).relocate f := by
  cases ts <;> rfl

theorem Shifts.bodySpan (hf : Shifts f) (first : Token) {stmts : List Stmt}
    (h : ∀ s ∈ stmts, (s.relocate f).span = f s.span) :
    bodySpan (first.relocate f) (Stmt.relocateAll f stmts) = f (bodySpan first stmts) := by
  rw [Stmt.relocateAll_eq_map, Stepwise.bodySpan, Stepwise.bodySpan, List.getLast?_map]
  cases hlast : stmts.getLast? with
  | none => exact (hf.opening _).symm
  | some last =>
    have hspan := h last (List.mem_of_getLast? hlast)
    simp only [Option.map_some, hspan]
    exact (hf.through _ _).symm

theorem Shifts.blockBefore (hf : Shifts f) (stop : Token) (ds : List StmtPhrase) :
    blockBefore (stop.relocate f) ((StmtPhrase.tokensOf ds).map (.relocate f))
        (Stmt.relocateAll f (StmtPhrase.trees ds)) =
      (blockBefore stop (StmtPhrase.tokensOf ds) (StmtPhrase.trees ds)).relocate f := by
  rw [Stepwise.blockBefore, Stepwise.blockBefore, Block.relocate, peek_relocate,
    hf.bodySpan _ (StmtPhrase.span_relocate ds)]

theorem TokenOf.map_symbol_relocate (ts : List (TokenOf .ident)) :
    (ts.map (TokenOf.relocate f)).map TokenOf.symbol = (ts.map TokenOf.symbol).map (.relocate f) := by
  simp only [List.map_map]
  rfl

mutual

theorem ExprPhrase.tree_relocate (hf : Shifts f) (d : ExprPhrase) :
    (d.relocate f).tree = d.tree.relocate f := by
  cases d with
  | atom a => cases a <;> rfl
  | call opener callee args close =>
    simp only [ExprPhrase.relocate, ExprPhrase.tree, Expr.relocate, ExprPhrase.tree_relocate hf callee,
      ExprPhrase.trees_relocate hf args, hf.through, TokenOf.relocate, Token.relocate]
  | function word opener params close body stop =>
    simp only [ExprPhrase.relocate, ExprPhrase.tree, Expr.relocate, Option.map_some, Params.relocate,
      StmtPhrase.trees_relocate hf body, StmtPhrase.tokensOf_relocate, TokenOf.map_symbol_relocate,
      hf.through, ← hf.blockBefore]
    rfl
termination_by structural d

theorem ExprPhrase.trees_relocate (hf : Shifts f) (ds : List ExprPhrase) :
    ExprPhrase.trees (ExprPhrase.relocateAll f ds) = Expr.relocateAll f (ExprPhrase.trees ds) := by
  cases ds with
  | nil => rfl
  | cons d ds =>
    simp only [ExprPhrase.relocateAll, ExprPhrase.trees, Expr.relocateAll, ExprPhrase.tree_relocate hf d,
      ExprPhrase.trees_relocate hf ds]
termination_by structural ds

theorem StmtPhrase.tree_relocate (hf : Shifts f) (d : StmtPhrase) :
    (d.relocate f).tree = d.tree.relocate f := by
  cases d with
  | set word target value stop =>
    simp only [StmtPhrase.relocate, StmtPhrase.tree, Stmt.relocate, Option.map_some,
      ExprPhrase.tree_relocate hf value, hf.through]
    rfl
  | branch word condition body stop =>
    simp only [StmtPhrase.relocate, StmtPhrase.tree, Stmt.relocate, Block.relocate,
      ExprPhrase.tree_relocate hf condition, StmtPhrase.trees_relocate hf body,
      StmtPhrase.tokensOf_relocate, hf.through, ← hf.blockBefore]
    rfl
  | branchElse word condition thenBody middle elseBody stop =>
    simp only [StmtPhrase.relocate, StmtPhrase.tree, Stmt.relocate,
      ExprPhrase.tree_relocate hf condition, StmtPhrase.trees_relocate hf thenBody,
      StmtPhrase.trees_relocate hf elseBody, StmtPhrase.tokensOf_relocate, hf.through, ← hf.blockBefore]
    rfl
  | times word count body stop =>
    simp only [StmtPhrase.relocate, StmtPhrase.tree, Stmt.relocate, ExprPhrase.tree_relocate hf count,
      StmtPhrase.trees_relocate hf body, StmtPhrase.tokensOf_relocate, hf.through, ← hf.blockBefore]
    rfl
  | forever word body stop =>
    simp only [StmtPhrase.relocate, StmtPhrase.tree, Stmt.relocate, Expr.relocate,
      StmtPhrase.trees_relocate hf body, StmtPhrase.tokensOf_relocate, hf.through, ← hf.blockBefore]
    rfl
  | call opener callee args close =>
    simp only [StmtPhrase.relocate, StmtPhrase.tree, Stmt.relocate, ExprPhrase.tree_relocate hf callee,
      ExprPhrase.trees_relocate hf args, hf.through]
    rfl
termination_by structural d

theorem StmtPhrase.trees_relocate (hf : Shifts f) (ds : List StmtPhrase) :
    StmtPhrase.trees (StmtPhrase.relocateAll f ds) = Stmt.relocateAll f (StmtPhrase.trees ds) := by
  cases ds with
  | nil => rfl
  | cons d ds =>
    simp only [StmtPhrase.relocateAll, StmtPhrase.trees, Stmt.relocateAll, StmtPhrase.tree_relocate hf d,
      StmtPhrase.trees_relocate hf ds]
termination_by structural ds

end

end Relocation

theorem lineAt_append (before seen : Bytes) :
    lineAt (before ++ seen) (before ++ seen).length = before.count 10 + lineAt seen seen.length := by
  simp only [lineAt, List.take_length, List.count_append]
  omega

/-- On a line that has begun before, columns go on. -/
theorem columnAt_append_of_notMem (before : Bytes) {seen : Bytes} (h : 10 ∉ seen) :
    columnAt (before ++ seen) (before ++ seen).length = seen.length + columnAt before before.length := by
  have hall : ∀ b ∈ seen.reverse, (b != 10) = true := by
    intro b hb
    refine bne_iff_ne.mpr ?_
    rintro rfl
    exact h (List.mem_reverse.mp hb)
  rw [columnAt, columnAt, List.take_length, List.take_length, List.reverse_append,
    List.takeWhile_append_of_pos hall, List.length_append, List.length_reverse]
  omega

/-- On a line that has begun since, columns are what they are. -/
theorem columnAt_append_of_mem (before : Bytes) {seen : Bytes} (h : 10 ∈ seen) :
    columnAt (before ++ seen) (before ++ seen).length = columnAt seen seen.length := by
  obtain ⟨line, more, hsplit, hline⟩ := List.eq_append_cons_of_mem (List.mem_reverse.mpr h)
  have htake (rest : Bytes) : (line ++ 10 :: rest).takeWhile (· != 10) = line := by
    refine takeWhile_append_of_all (List.all_eq_true.mpr fun b hb => bne_iff_ne.mpr ?_) rfl
    rintro rfl
    exact hline hb
  rw [columnAt, columnAt, List.take_length, List.take_length, List.reverse_append, hsplit,
    List.append_assoc, List.cons_append, htake, htake]

/-- A token that stands after other text, as it is counted from where that text ends. -/
theorem Token.relocate_following {base : Span} {before : Bytes} (hstart : base.start = before.length)
    (hline : base.line = lineAt before before.length)
    (hcolumn : base.column = columnAt before before.length) (seen : Bytes) (kind : TokenKind)
    (raw : Bytes) :
    (following (before ++ seen) kind raw).relocate base.since = following seen kind raw := by
  have hbefore : lineAt before before.length = before.count 10 + 1 := by
    rw [lineAt, List.take_length]
  have hseen : lineAt seen seen.length = seen.count 10 + 1 := by
    rw [lineAt, List.take_length]
  have hlines := lineAt_append before seen
  rw [List.length_append] at hlines
  have hplace : base.since (following (before ++ seen) kind raw).span = (following seen kind raw).span := by
    simp only [Span.since, following, Cursor.span, Cursor.past, hstart, hline, hcolumn, hlines,
      List.length_append, Span.mk.injEq]
    refine ⟨by omega, by omega, by omega, ?_⟩
    by_cases hnewline : 10 ∈ seen
    · have hpos : 0 < seen.count 10 := List.count_pos_iff.mpr hnewline
      have hcol := columnAt_append_of_mem before hnewline
      rw [List.length_append] at hcol
      rw [if_neg (by omega), hcol]
    · have hzero : seen.count 10 = 0 := List.count_eq_zero.mpr hnewline
      have hcol := columnAt_append_of_notMem before hnewline
      have halone := columnAt_append_of_notMem [] hnewline
      rw [List.length_append] at hcol
      rw [List.nil_append] at halone
      have hone : columnAt [] ([] : Bytes).length = 1 := rfl
      rw [if_pos (by omega), hcol, halone, hone]
      omega
  rw [relocate, hplace]
  rfl

namespace Laid

variable {before text : Bytes} {ts ts' : List Token} {t : Token}

/-- The tokens from one of them on lie in the text from there on. -/
theorem fromToken (h : Laid before text (ts ++ t :: ts')) :
    ∃ lead rest, before ++ text = lead ++ (t.raw ++ rest) ∧ t = .following lead t.kind t.raw ∧
      Laid lead (t.raw ++ rest) (t :: ts') := by
  induction ts generalizing before text with
  | nil =>
    cases h with
    | @token before gap raw rest kind _ hgap hkind hspells hrest hmore =>
      refine ⟨before ++ gap, rest, by simp [Token.following], rfl, ?_⟩
      have hlaid : Laid (before ++ gap) ([] ++ (raw ++ rest)) _ :=
        .token .nil hkind hspells hrest (by rwa [List.append_nil])
      rwa [List.append_nil, List.nil_append] at hlaid
  | cons t' ts ih =>
    cases h with
    | @token before gap raw rest kind _ hgap hkind hspells hrest hmore =>
      obtain ⟨lead, rest', htext, hlaid⟩ := ih hmore
      exact ⟨lead, rest', by rw [← htext]; simp, hlaid⟩

/-- The tokens up to one of them lie in the text up to there. -/
theorem toToken (h : Laid before text (ts ++ t :: ts')) :
    ∃ front back, text = front ++ back ∧ t.span.stop = ((before ++ front).length : Nat) ∧
      Laid before front (ts ++ [t]) := by
  induction ts generalizing before text with
  | nil =>
    cases h with
    | @token before gap raw rest kind _ hgap hkind hspells hrest hmore =>
      refine ⟨gap ++ (raw ++ []), rest, by simp, ?_, ?_⟩
      · simp [Token.following_stop]
        omega
      · exact .token hgap hkind hspells (fun _ => rfl) (.ending (.inl .nil))
  | cons t' ts ih =>
    cases h with
    | @token before gap raw rest kind _ hgap hkind hspells hrest hmore =>
      obtain ⟨front, back, rfl, hstop, hlaid⟩ := ih hmore
      refine ⟨gap ++ (raw ++ front), back, by simp, ?_, ?_⟩
      · rw [hstop]
        simp only [List.append_assoc]
      · exact .token hgap hkind hspells (fun hopen => (hrest hopen).of_append) hlaid

/-- Text before the tokens only moves their places. -/
theorem relocate {base : Span} (hstart : base.start = before.length)
    (hline : base.line = lineAt before before.length)
    (hcolumn : base.column = columnAt before before.length) {seen : Bytes}
    (h : Laid (before ++ seen) text ts) : Laid seen text (ts.map (.relocate base.since)) := by
  generalize hplace : before ++ seen = place at h
  induction h generalizing seen with
  | ending hgap => exact .ending hgap
  | token hgap hkind hspells hrest _ ih =>
    subst hplace
    rw [List.map_cons, List.append_assoc before seen, Token.relocate_following hstart hline hcolumn]
    exact .token hgap hkind hspells hrest (ih (by simp only [List.append_assoc]))

end Laid

/-- The piece of a text that a statement covers is read as that statement and nothing else. -/
theorem read_excerpt {source : Bytes} {ts : List Token} (h : Laid [] source ts) {d : StmtPhrase}
    (hd : d.Admissible) (htokens : d.tokens <:+: ts) :
    Program.read (d.tree.span.text source) =
      .ok ⟨d.tree.span.since d.tree.span, [d.tree.relocate d.tree.span.since]⟩ := by
  obtain ⟨first, mid, last, hd_tokens, hspan⟩ := d.exists_ends
  obtain ⟨before, after, hts⟩ := htokens
  have hsplit : ts = before ++ first :: (mid ++ last :: after) := by
    rw [← hts, hd_tokens]
    simp
  rw [hsplit] at h
  obtain ⟨lead, rest, hsource, hfirst, hfrom⟩ := h.fromToken
  obtain ⟨front, back, hrest, hstop, hto⟩ : ∃ front back, first.raw ++ rest = front ++ back ∧
      last.span.stop = ((lead ++ front).length : Nat) ∧ Laid lead front (first :: mid ++ [last]) :=
    hfrom.toToken
  have hstart : d.tree.span.start = lead.length := by
    rw [hspan, hfirst]
    rfl
  have hends : d.tree.span.stop = ((lead ++ front).length : Nat) := by
    rw [hspan]
    exact hstop
  have htext : d.tree.span.text source = front := by
    have hfollowing : d.tree.span = (Token.following lead .eof front).span := by
      rw [hspan, hfirst]
      simp only [Span.through, hstop]
      rfl
    rw [hfollowing]
    exact Token.following_text (by rw [← hrest, ← hsource, List.nil_append])
  let f := d.tree.span.since
  have hf : Shifts f := shifts_since d.tree.span
  have hlaid : Laid [] front (d.tokens.map (.relocate f)) := by
    rw [hd_tokens]
    refine Laid.relocate hstart ?_ ?_ (by rwa [List.append_nil])
    · rw [hspan, hfirst]
      rfl
    · rw [hspan, hfirst]
      rfl
  have hitems : d.tokens.map (.relocate f) = StmtPhrase.tokensOf [d.relocate f] := by
    rw [StmtPhrase.tokensOf, StmtPhrase.tokensOf, List.append_nil, StmtPhrase.tokens_relocate]
  rw [htext, Program.read_yields hlaid.scan hitems ⟨d.admissible_relocate f hd, trivial⟩]
  have htree : (d.relocate f).tree = d.tree.relocate f := StmtPhrase.tree_relocate hf d
  have hplace : (d.relocate f).tree.span = f d.tree.span := by
    rw [htree]
    exact StmtPhrase.span_relocate [d] d.tree List.mem_cons_self
  have hbody : bodySpan (peek (.following ([] ++ front) .eof []) (StmtPhrase.tokensOf [d.relocate f]))
      [(d.relocate f).tree] = f d.tree.span := by
    have hthrough : (f first.span).through (f d.tree.span) = f d.tree.span := by
      rw [← hf.through, hspan]
      rfl
    rw [← hitems, hd_tokens]
    change (f first.span).through (d.relocate f).tree.span = _
    rw [hplace, hthrough]
  have htrees : StmtPhrase.trees [d.relocate f] = [(d.relocate f).tree] := rfl
  rw [Program.ofPhrases, htrees, hbody, htree]

def Expr.isAtom : Expr → Bool
  | .missing | .call _ _ _ | .function _ _ _ => false
  | .symbol _ | .number _ _ | .boolean _ _ | .null _ | .string _ _ | .forever _ => true

theorem Atom.written (a : Atom) (ha : a.Admissible) : a.tree.Written [a.token.raw] := by
  cases a with
  | number t =>
    refine ⟨t.token.raw, t.spells, ?_, rfl⟩
    have hfits : Decimal.fitsInt64 (numeralValue t.token.raw) := ha
    rw [Decimal.fitsInt64, Bool.and_eq_true, decide_eq_true_eq, decide_eq_true_eq, Decimal.leastWord,
      Decimal.wordLimit] at hfits
    exact (Int64.toInt_ofInt_of_le (by omega) (by omega)).symm
  | string t =>
    obtain ⟨text, -, hraw⟩ := t.spells
    change [t.token.raw] = [34 :: unquoted t.token.raw ++ [34]]
    rw [hraw, unquoted]
    simp
  | yes t | no t | null t | forever t => exact congrArg (fun raw => [raw]) t.spells
  | symbol t => rfl

/-- What the place of a node says: it is a place of the text, its children lie in it one after another,
and the bytes in it are the node written out. -/
structure Node.Faithful (n : Node) (source : Bytes) (ts : Tokens) : Prop where
  place : n.span.IsIn source
  nested : ∀ c ∈ n.children, n.span.start ≤ c.span.start ∧ c.span.stop ≤ n.span.stop
  ordered : n.children.Pairwise fun c c' => c.span.stop ≤ c'.span.start
  lexeme : ∀ e, n = .expr e → e.isAtom → e.Written [e.span.text source] ∧
    ∃ t ∈ ts.items, t.span = e.span ∧ t.raw = e.span.text source
  again : ∀ s, n = .stmt s →
    Program.read (s.span.text source) = .ok ⟨s.span.since s.span, [s.relocate s.span.since]⟩

namespace Node.MadeOf

variable {n : Node} {used : List Token} {source : Bytes} {ts : Tokens}

theorem isIn (h : n.MadeOf used) (hscan : scan source = .ok ts) (hused : used <:+: ts.toList) :
    n.span.IsIn source := by
  have hplaces := scan_places hscan
  have hbounds := h.inOrder ((scan_inOrder hscan).sublist (hused.sublist.map Token.span))
  obtain ⟨t, ht, hstart, hline, hcolumn⟩ := h.exists_start
  have hplace : t.span.IsIn source := hplaces.placed t (hused.subset ht)
  constructor
  case start => exact hbounds.1
  case ordered => exact hbounds.2.1
  case stop => exact hbounds.2.2
  case line => rw [hline, hstart, hplace.line]
  case column => rw [hcolumn, hstart, hplace.column]

theorem nested (h : n.MadeOf used) (hscan : scan source = .ok ts) (hused : used <:+: ts.toList) :
    (∀ c ∈ n.children, n.span.start ≤ c.span.start ∧ c.span.stop ≤ n.span.stop) ∧
      n.children.Pairwise fun c c' => c.span.stop ≤ c'.span.start := by
  have hchildren := h.children_inOrder ((scan_inOrder hscan).sublist (hused.sublist.map Token.span))
  exact ⟨fun c hc => hchildren.within c.span (List.mem_map_of_mem hc),
    List.pairwise_map.mp hchildren.pairwise⟩

/-- An expression without parts is a token. -/
theorem lexeme {e : Expr} (h : (Node.expr e).MadeOf used) (hatom : e.isAtom) (hscan : scan source = .ok ts)
    (hused : used <:+: ts.items) :
    e.Written [e.span.text source] ∧ ∃ t ∈ ts.items, t.span = e.span ∧ t.raw = e.span.text source := by
  cases h with
  | expr d hd =>
    cases d with
    | call | function => cases hatom
    | atom a =>
      have hmem : a.token ∈ ts.items := hused.subset List.mem_cons_self
      have hspan : (ExprPhrase.atom a).tree.span = a.token.span := by cases a <;> rfl
      obtain ⟨hlaid, heof⟩ := scanFrom_laid [] hscan
      have htext := (hlaid.partition.places a.token (List.mem_append_left _ hmem)).2
      rw [hspan, htext]
      exact ⟨a.written hd, a.token, hmem, rfl, rfl⟩

theorem again {s : Stmt} (h : (Node.stmt s).MadeOf used) (hscan : scan source = .ok ts)
    (hused : used <:+: ts.items) :
    Program.read (s.span.text source) = .ok ⟨s.span.since s.span, [s.relocate s.span.since]⟩ := by
  cases h with
  | stmt d hd => exact read_excerpt (scanFrom_laid [] hscan).1 hd hused

end Node.MadeOf

/-- The place of every node of a program that was read is faithful to the text: the nodes nest as the
bytes do, and each statement could be read from its own bytes. -/
theorem read_is_faithful {source : Bytes} {p : Program} (h : Program.read source = .ok p) :
    ∃ ts, scan source = .ok ts ∧
      ∀ visit ∈ (Node.program p).walk fun _ => true, visit.node.Faithful source ts := by
  obtain ⟨items, eof, hscan, hprogram, hvisits⟩ := Program.visits (fun _ => true) h
  refine ⟨⟨items, eof⟩, hscan, fun visit hvisit => ?_⟩
  obtain hnode | ⟨used, hused, hmade⟩ := hvisits visit hvisit
  · rw [hnode]
    have hall : items ++ [eof] <:+: (Tokens.mk items eof).toList := List.infix_rfl
    obtain ⟨hnested, hordered⟩ := hprogram.nested hscan hall
    exact ⟨hprogram.isIn hscan hall, hnested, hordered, nofun, nofun⟩
  · have hall : used <:+: (Tokens.mk items eof).toList := hused.trans (List.prefix_append _ _).isInfix
    obtain ⟨hnested, hordered⟩ := hmade.nested hscan hall
    refine ⟨hmade.isIn hscan hall, hnested, hordered, fun e he hatom => ?_, fun s hs => ?_⟩
    · rw [he] at hmade
      exact hmade.lexeme hatom hscan hused
    · rw [hs] at hmade
      exact hmade.again hscan hused

theorem read_is_faithful_forever :
    let source := utf8 "if x // c\n  forever (f) end\nend"
    let loop : Stmt := .times ⟨12, 27, 2, 3⟩ (.forever ⟨12, 19, 2, 3⟩) (.of ⟨20, 23, 2, 11⟩
      [.call ⟨20, 23, 2, 11⟩ (.symbol ⟨⟨21, 22, 2, 12⟩, utf8 "f"⟩) []])
    let p : Program := ⟨⟨0, 31, 1, 1⟩, [.branch ⟨0, 31, 1, 1⟩ (.symbol ⟨⟨3, 4, 1, 4⟩, utf8 "x"⟩)
      (.of ⟨12, 27, 2, 3⟩ [loop]) .missing]⟩
    Program.read source = .ok p ∧ (⟨3, .stmt loop⟩ : Visit) ∈ (Node.program p).walk (fun _ => true) ∧
      ∃ ts, scan source = .ok ts ∧ (Node.stmt loop).Faithful source ts := by
  intro source loop p
  have hread : Program.read source = .ok p := by
    dsimp only [source, p, loop]
    cbv
  have hvisit : (⟨3, .stmt loop⟩ : Visit) ∈ (Node.program p).walk (fun _ => true) :=
    .tail _ (.tail _ (.tail _ (.tail _ (.head _))))
  obtain ⟨ts, hscan, hfaithful⟩ := read_is_faithful hread
  exact ⟨hread, hvisit, ts, hscan, hfaithful ⟨3, .stmt loop⟩ hvisit⟩

end Stepwise
