import Stepwise.Proofs.Partition

/-! The nodes of a program that was read, each with the tokens it is made of. The place of a node runs
from one of its tokens to another, so nodes lie in each other as their tokens do. -/

namespace Stepwise

/-- Ranges one after another between two offsets. -/
def InOrder (lo : Int) : List Span → Int → Prop
  | [], hi => lo ≤ hi
  | s :: ss, hi => lo ≤ s.start ∧ s.start ≤ s.stop ∧ InOrder s.stop ss hi

namespace InOrder

variable {lo lo' hi hi' : Int} {s s' : Span} {ss ss' : List Span}

theorem le (h : InOrder lo ss hi) : lo ≤ hi := by
  induction ss generalizing lo with
  | nil => exact h
  | cons s ss ih =>
    have := ih h.2.2
    have := h.1
    have := h.2.1
    omega

theorem weaken (h : InOrder lo ss hi) (hlo : lo' ≤ lo) (hhi : hi ≤ hi') : InOrder lo' ss hi' := by
  induction ss generalizing lo lo' with
  | nil => exact hlo.trans (h.le.trans hhi)
  | cons s ss ih => exact ⟨hlo.trans h.1, h.2.1, ih h.2.2 le_rfl⟩

theorem append_iff : InOrder lo (ss ++ ss') hi ↔ ∃ mid, InOrder lo ss mid ∧ InOrder mid ss' hi := by
  induction ss generalizing lo with
  | nil =>
    refine ⟨fun h => ⟨lo, le_rfl, h⟩, ?_⟩
    rintro ⟨mid, hle, h⟩
    exact h.weaken hle le_rfl
  | cons s ss ih =>
    constructor
    · rintro ⟨hlo, hle, h⟩
      obtain ⟨mid, h, h'⟩ := ih.mp h
      exact ⟨mid, ⟨hlo, hle, h⟩, h'⟩
    · rintro ⟨mid, ⟨hlo, hle, h⟩, h'⟩
      exact ⟨hlo, hle, ih.mpr ⟨mid, h, h'⟩⟩

theorem tail (h : InOrder lo (s :: ss) hi) : InOrder lo ss hi :=
  h.2.2.weaken (h.1.trans h.2.1) le_rfl

theorem sublist (h : InOrder lo ss hi) (hsub : ss'.Sublist ss) : InOrder lo ss' hi := by
  induction hsub generalizing lo with
  | slnil => exact h
  | cons s _ ih => exact ih h.tail
  | cons_cons s _ ih => exact ⟨h.1, h.2.1, ih h.2.2⟩

/-- Up to a range, and up to where it stops. -/
theorem toStop (h : InOrder lo (ss ++ s :: ss') hi) : InOrder lo (ss ++ [s]) s.stop := by
  obtain ⟨mid, h, h'⟩ := append_iff.mp h
  exact append_iff.mpr ⟨mid, h, h'.1, h'.2.1, le_rfl⟩

theorem before (h : InOrder lo (ss ++ s :: ss') hi) : InOrder lo ss s.stop :=
  h.toStop.sublist (List.sublist_append_left ss [s])

theorem fromStart (h : InOrder lo (s :: ss) hi) : InOrder s.start (s :: ss) hi :=
  ⟨le_rfl, h.2⟩

/-- What stands between two ranges can be made one range with them. -/
theorem through (h : InOrder lo (s :: (ss ++ s' :: ss')) hi) : InOrder lo (s.through s' :: ss') hi := by
  obtain ⟨mid, hbefore, hlo, hle, h'⟩ := append_iff.mp h.2.2
  have hmid := hbefore.le
  have hs := h.2.1
  refine ⟨h.1, ?_, h'⟩
  change s.start ≤ s'.stop
  omega

theorem within (h : InOrder lo ss hi) : ∀ s ∈ ss, lo ≤ s.start ∧ s.stop ≤ hi := by
  intro s hs
  induction ss generalizing lo with
  | nil => cases hs
  | cons s' ss ih =>
    obtain rfl | hs := List.mem_cons.mp hs
    · exact ⟨h.1, h.2.2.le⟩
    · exact ih h.tail hs

theorem pairwise (h : InOrder lo ss hi) : ss.Pairwise fun s s' => s.stop ≤ s'.start := by
  induction ss generalizing lo with
  | nil => exact .nil
  | cons s ss ih => exact List.pairwise_cons.mpr ⟨fun s' hs' => (h.2.2.within s' hs').1, ih h.2.2⟩

/-- The place of a list of statements reaches over them. -/
theorem body {first : Token} {stmts : List Stmt} (hne : stmts ≠ [])
    (hfirst : ∀ s ∈ stmts.head?, s.span.start = first.span.start)
    (h : InOrder lo (stmts.map Stmt.span ++ ss) hi) :
    InOrder (bodySpan first stmts).start (stmts.map Stmt.span) (bodySpan first stmts).stop ∧
      InOrder lo (bodySpan first stmts :: ss) hi := by
  obtain ⟨s, rest, rfl⟩ := List.exists_cons_of_ne_nil hne
  have hs : s.span.start = first.span.start := hfirst s rfl
  obtain hnil | ⟨init, last, hrest⟩ := List.eq_nil_or_concat' rest
  · rw [hnil] at h ⊢
    have hspan : bodySpan first [s] = first.span.through s.span := rfl
    rw [hspan]
    refine ⟨⟨hs.ge, h.2.1, le_rfl⟩, ?_, ?_, h.2.2⟩
    · exact hs ▸ h.1
    · exact hs ▸ h.2.1
  · have hspan : bodySpan first (s :: rest) = first.span.through last.span := by
      rw [bodySpan, hrest, ← List.cons_append, List.getLast?_append]
      rfl
    rw [hspan, hrest]
    rw [hrest, List.map_cons, List.map_append, List.cons_append, List.append_assoc] at h
    rw [List.map_cons, List.map_append]
    have hinside := h.fromStart
    rw [hs] at hinside
    refine ⟨?_, ?_⟩
    · have hstop : InOrder first.span.start ((s.span :: init.map Stmt.span) ++ [last.span]) last.span.stop :=
        toStop hinside
      exact hstop
    · have hthrough := h.through
      obtain ⟨hlo, hle, hafter⟩ := hthrough
      exact ⟨hs ▸ hlo, hs ▸ hle, hafter⟩

end InOrder

theorem Laid.inOrder {before text : Bytes} {ts : List Token} (h : Laid before text ts) :
    InOrder before.length (ts.map Token.span) ((before ++ text).length : Nat) := by
  induction h with
  | ending =>
    rw [List.map_nil, List.length_append]
    exact Int.ofNat_le.mpr (Nat.le_add_right _ _)
  | @token before gap raw rest kind ts hgap hkind hspells hrest hmore ih =>
    refine ⟨?_, ?_, ?_⟩
    · rw [Token.following_start, List.length_append]
      omega
    · rw [Token.following_start, Token.following_stop]
      omega
    · rw [Token.following_stop, ← List.length_append]
      simpa only [List.append_assoc] using ih

/-- The tokens of a text lie in it in their order, and the end of input after them. -/
theorem scan_inOrder {source : Bytes} {ts : Tokens} (h : scan source = .ok ts) :
    InOrder 0 (ts.toList.map Token.span) source.length := by
  obtain ⟨hlaid, heof⟩ := scanFrom_laid [] h
  have hitems := hlaid.inOrder
  rw [List.nil_append] at heof hitems
  rw [Tokens.toList, List.map_append, heof]
  have hend : (Token.following source .eof []).span.stop = source.length := by
    rw [Token.following_stop]
    rfl
  refine InOrder.append_iff.mpr ⟨_, hitems, le_rfl, ?_, hend.le⟩
  exact hend.ge

/-- An expression is one token, or reaches from one to another. -/
theorem ExprPhrase.exists_ends (d : ExprPhrase) :
    (∃ t, d.tokens = [t] ∧ d.tree.span = t.span) ∨
      ∃ first mid last, d.tokens = first :: (mid ++ [last]) ∧
        d.tree.span = first.span.through last.span := by
  cases d with
  | atom a => exact .inl ⟨a.token, rfl, by cases a <;> rfl⟩
  | call opener callee args close =>
    exact .inr ⟨opener.token, callee.tokens ++ ExprPhrase.tokensOf args, close.token,
      by rw [ExprPhrase.tokens, List.append_assoc], rfl⟩
  | function word opener params close body stop =>
    exact .inr ⟨word.token, opener.token :: (params.map TokenOf.token ++
      close.token :: StmtPhrase.tokensOf body), stop.token, by simp [ExprPhrase.tokens], rfl⟩

/-- A statement reaches from its first token to its last. -/
theorem StmtPhrase.exists_ends (d : StmtPhrase) :
    ∃ first mid last, d.tokens = first :: (mid ++ [last]) ∧
      d.tree.span = first.span.through last.span := by
  cases d with
  | set word target value stop =>
    exact ⟨word.token, target.token :: value.tokens, stop.token, rfl, rfl⟩
  | branch word condition body stop =>
    exact ⟨word.token, condition.tokens ++ StmtPhrase.tokensOf body, stop.token,
      by rw [StmtPhrase.tokens, List.append_assoc], rfl⟩
  | branchElse word condition thenBody middle elseBody stop =>
    exact ⟨word.token, condition.tokens ++ (StmtPhrase.tokensOf thenBody ++
      middle.token :: StmtPhrase.tokensOf elseBody), stop.token, by simp [StmtPhrase.tokens], rfl⟩
  | times word count body stop =>
    exact ⟨word.token, count.tokens ++ StmtPhrase.tokensOf body, stop.token,
      by rw [StmtPhrase.tokens, List.append_assoc], rfl⟩
  | forever word body stop => exact ⟨word.token, StmtPhrase.tokensOf body, stop.token, rfl, rfl⟩
  | call opener callee args close =>
    exact ⟨opener.token, callee.tokens ++ ExprPhrase.tokensOf args, close.token,
      by rw [StmtPhrase.tokens, List.append_assoc], rfl⟩

section Phrases

variable {lo hi : Int} {ss : List Span}

theorem InOrder.of_ends {used mid : List Token} {first last : Token}
    (hused : used = first :: (mid ++ [last])) (h : InOrder lo (used.map Token.span ++ ss) hi) :
    InOrder lo (first.span.through last.span :: ss) hi := by
  rw [hused, List.map_cons, List.map_append, List.cons_append, List.append_assoc] at h
  exact h.through

/-- The place of an expression is put for those of its tokens. -/
theorem ExprPhrase.inOrder (d : ExprPhrase) (h : InOrder lo (d.tokens.map Token.span ++ ss) hi) :
    InOrder lo (d.tree.span :: ss) hi := by
  obtain ⟨t, hused, hspan⟩ | ⟨first, mid, last, hused, hspan⟩ := d.exists_ends
  · rw [hspan]
    rwa [hused] at h
  · rw [hspan]
    exact .of_ends hused h

theorem ExprPhrase.inOrderAll (ds : List ExprPhrase)
    (h : InOrder lo ((ExprPhrase.tokensOf ds).map Token.span ++ ss) hi) :
    InOrder lo ((ExprPhrase.trees ds).map Expr.span ++ ss) hi := by
  induction ds generalizing lo with
  | nil => exact h
  | cons d ds ih =>
    rw [ExprPhrase.tokensOf, List.map_append, List.append_assoc] at h
    obtain ⟨hlo, hle, hafter⟩ := d.inOrder h
    exact ⟨hlo, hle, ih hafter⟩

theorem StmtPhrase.inOrder (d : StmtPhrase) (h : InOrder lo (d.tokens.map Token.span ++ ss) hi) :
    InOrder lo (d.tree.span :: ss) hi := by
  obtain ⟨first, mid, last, hused, hspan⟩ := d.exists_ends
  rw [hspan]
  exact .of_ends hused h

theorem StmtPhrase.inOrderAll (ds : List StmtPhrase)
    (h : InOrder lo ((StmtPhrase.tokensOf ds).map Token.span ++ ss) hi) :
    InOrder lo ((StmtPhrase.trees ds).map Stmt.span ++ ss) hi := by
  induction ds generalizing lo with
  | nil => exact h
  | cons d ds ih =>
    rw [StmtPhrase.tokensOf, List.map_append, List.append_assoc] at h
    obtain ⟨hlo, hle, hafter⟩ := d.inOrder h
    exact ⟨hlo, hle, ih hafter⟩

theorem StmtPhrase.trees_first (stop : Token) (ds : List StmtPhrase) :
    ∀ s ∈ (StmtPhrase.trees ds).head?, s.span.start = (peek stop (StmtPhrase.tokensOf ds)).span.start := by
  intro s hs
  cases ds with
  | nil => cases hs
  | cons d ds =>
    obtain ⟨first, mid, last, hused, hspan⟩ := d.exists_ends
    obtain rfl := Option.some.inj hs
    rw [hspan, StmtPhrase.tokensOf, hused]
    rfl

/-- The statements before a token lie in the place that is theirs, and that place before the token. -/
theorem StmtPhrase.inOrder_body (stop : Token) (ds : List StmtPhrase)
    (h : InOrder lo ((StmtPhrase.tokensOf ds).map Token.span ++ stop.span :: ss) hi) :
    let place := bodySpan (peek stop (StmtPhrase.tokensOf ds)) (StmtPhrase.trees ds)
    InOrder place.start ((StmtPhrase.trees ds).map Stmt.span) place.stop ∧
      InOrder lo (place :: stop.span :: ss) hi := by
  intro place
  cases ds with
  | nil => exact ⟨le_rfl, h.1, le_rfl, le_rfl, h.2⟩
  | cons d ds =>
    have hne : StmtPhrase.trees (d :: ds) ≠ [] := List.cons_ne_nil _ _
    exact InOrder.body hne (StmtPhrase.trees_first stop (d :: ds)) (StmtPhrase.inOrderAll (d :: ds) h)

end Phrases

section Children

variable {lo hi : Int}

/-- Nodes that are not there leave the others in their order. -/
theorem InOrder.present (ns : List Node) (h : InOrder lo (ns.map Node.span) hi) :
    InOrder lo ((Node.children.present ns).map Node.span) hi :=
  h.sublist (List.filter_sublist.map Node.span)

/-- A callee and its arguments lie between the parentheses. -/
theorem ExprPhrase.call_inOrder {opener close : Token} (callee : ExprPhrase) (args : List ExprPhrase)
    (h : InOrder lo ((opener :: (callee.tokens ++ (ExprPhrase.tokensOf args ++ [close]))).map Token.span)
      hi) :
    InOrder opener.span.start
      ((Node.children.present (.expr callee.tree :: (ExprPhrase.trees args).map .expr)).map Node.span)
      close.span.stop := by
  have hspans : ((ExprPhrase.trees args).map Node.expr).map Node.span =
      (ExprPhrase.trees args).map Expr.span := by
    rw [List.map_map]
    rfl
  rw [List.map_cons, List.map_append, List.map_append] at h
  have hcallee := callee.inOrder h.2.2
  have hargs := (ExprPhrase.inOrderAll args hcallee.2.2).before
  refine InOrder.present _ ?_
  rw [List.map_cons, hspans]
  exact ⟨h.2.1.trans hcallee.1, hcallee.2.1, hargs⟩

theorem ExprPhrase.children_inOrder (d : ExprPhrase) (h : InOrder lo (d.tokens.map Token.span) hi) :
    InOrder d.tree.span.start ((Node.expr d.tree).children.map Node.span) d.tree.span.stop := by
  cases d with
  | atom a =>
    obtain ⟨-, hle, -⟩ := h
    cases a <;> exact hle
  | call opener callee args close => exact callee.call_inOrder args h
  | function word opener params close body stop =>
    simp only [ExprPhrase.tokens, List.map_cons, List.map_append] at h
    obtain ⟨-, hword, hparams⟩ := h
    have hbody := (StmtPhrase.inOrder_body stop.token body (hparams.through).2.2).2
    have hblock : InOrder close.token.span.stop _ stop.token.span.stop :=
      InOrder.present [.block (blockBefore stop.token _ _)]
        ⟨hbody.1, hbody.2.1, hbody.2.2.1.trans hbody.2.2.2.1⟩
    exact ⟨hword.trans hparams.1, hparams.through.2.1, hblock⟩

theorem StmtPhrase.children_inOrder (d : StmtPhrase) (h : InOrder lo (d.tokens.map Token.span) hi) :
    InOrder d.tree.span.start ((Node.stmt d.tree).children.map Node.span) d.tree.span.stop := by
  cases d with
  | call opener callee args close => exact callee.call_inOrder args h
  | set word target value stop =>
    simp only [StmtPhrase.tokens, List.map_cons, List.map_append] at h
    obtain ⟨-, hword, htarget, htarget', hafter⟩ := h
    have hvalue := value.inOrder hafter
    have hexpr : InOrder target.token.span.stop _ stop.token.span.stop := InOrder.present [.expr value.tree]
      ⟨hvalue.1, hvalue.2.1, hvalue.2.2.1.trans hvalue.2.2.2.1⟩
    exact ⟨hword.trans htarget, htarget', hexpr⟩
  | branch word condition body stop =>
    simp only [StmtPhrase.tokens, List.map_cons, List.map_append] at h
    obtain ⟨-, hword, hafter⟩ := h
    have hcondition := condition.inOrder hafter
    have hbody := (StmtPhrase.inOrder_body stop.token body hcondition.2.2).2
    have hpresent : (Node.stmt (StmtPhrase.branch word condition body stop).tree).children =
      Node.children.present [.expr condition.tree, .block (blockBefore stop.token _ _)] := rfl
    rw [hpresent]
    refine InOrder.present [.expr condition.tree, .block _] ?_
    exact ⟨hword.trans hcondition.1, hcondition.2.1, hbody.1, hbody.2.1, hbody.2.2.1.trans hbody.2.2.2.1⟩
  | branchElse word condition thenBody middle elseBody stop =>
    simp only [StmtPhrase.tokens, List.map_cons, List.map_append] at h
    obtain ⟨-, hword, hafter⟩ := h
    have hcondition := condition.inOrder hafter
    have hthen := (StmtPhrase.inOrder_body middle.token thenBody hcondition.2.2).2
    have helse := (StmtPhrase.inOrder_body stop.token elseBody hthen.2.2.2.2).2
    have hmiddle : (blockBefore middle.token _ _).span.stop ≤ _ := hthen.2.2.1.trans hthen.2.2.2.1
    refine InOrder.present [.expr condition.tree, .block _, .block _] ?_
    exact ⟨hword.trans hcondition.1, hcondition.2.1, hthen.1, hthen.2.1, hmiddle.trans helse.1, helse.2.1,
      helse.2.2.1.trans helse.2.2.2.1⟩
  | times word count body stop =>
    simp only [StmtPhrase.tokens, List.map_cons, List.map_append] at h
    obtain ⟨-, hword, hafter⟩ := h
    have hcount := count.inOrder hafter
    have hbody := (StmtPhrase.inOrder_body stop.token body hcount.2.2).2
    refine InOrder.present [.expr count.tree, .block _] ?_
    exact ⟨hword.trans hcount.1, hcount.2.1, hbody.1, hbody.2.1, hbody.2.2.1.trans hbody.2.2.2.1⟩
  | forever word body stop =>
    simp only [StmtPhrase.tokens, List.map_cons, List.map_append] at h
    obtain ⟨-, hword, hafter⟩ := h
    have hbody := (StmtPhrase.inOrder_body stop.token body hafter).2
    -- the count of an endless loop is the word that opens it
    refine InOrder.present [.expr (.forever word.token.span), .block _] ?_
    exact ⟨le_rfl, hword, hbody.1, hbody.2.1, hbody.2.2.1.trans hbody.2.2.2.1⟩

end Children

namespace Node

/-- The tokens that a node is made of; with a list of statements goes the token that it ends before. -/
inductive MadeOf : Node → List Token → Prop
  | expr (d : ExprPhrase) : d.Admissible → MadeOf (.expr d.tree) d.tokens
  | params (opener : TokenOf .lparen) (params : List (TokenOf .ident)) (close : TokenOf .rparen) :
      MadeOf (.params ⟨opener.token.span.through close.token.span, params.map TokenOf.symbol⟩)
        (opener.token :: (params.map TokenOf.token ++ [close.token]))
  | block (stop : Token) (ds : List StmtPhrase) :
      MadeOf (.block (blockBefore stop (StmtPhrase.tokensOf ds) (StmtPhrase.trees ds)))
        (StmtPhrase.tokensOf ds ++ [stop])
  | stmt (d : StmtPhrase) : d.Admissible → MadeOf (.stmt d.tree) d.tokens
  | program (eof : Token) (ds : List StmtPhrase) :
      MadeOf (.program (.ofPhrases eof ds)) (StmtPhrase.tokensOf ds ++ [eof])

namespace MadeOf

variable {n : Node} {used : List Token} {lo hi : Int}

theorem inOrder (h : n.MadeOf used) (hused : InOrder lo (used.map Token.span) hi) :
    InOrder lo [n.span] hi := by
  rw [← List.append_nil (used.map Token.span)] at hused
  cases h with
  | expr d => exact d.inOrder hused
  | params opener params close => exact .of_ends rfl hused
  | stmt d => exact d.inOrder hused
  | block stop ds | program stop ds =>
    rw [List.append_nil, List.map_append] at hused
    exact (StmtPhrase.inOrder_body stop ds hused).2.sublist (List.sublist_append_left [_] [stop.span])

/-- A node starts where one of its tokens does. -/
theorem exists_start (h : n.MadeOf used) :
    ∃ t ∈ used, n.span.start = t.span.start ∧ n.span.line = t.span.line ∧
      n.span.column = t.span.column := by
  have hbody (stop : Token) (ds : List StmtPhrase) :
      ∃ t ∈ StmtPhrase.tokensOf ds ++ [stop],
        let place := bodySpan (peek stop (StmtPhrase.tokensOf ds)) (StmtPhrase.trees ds)
        place.start = t.span.start ∧ place.line = t.span.line ∧ place.column = t.span.column := by
    refine ⟨peek stop (StmtPhrase.tokensOf ds), ?_, ?_⟩
    · cases StmtPhrase.tokensOf ds with
      | nil => exact List.mem_singleton_self stop
      | cons t ts => exact List.mem_cons_self
    · rw [bodySpan]
      split <;> exact ⟨rfl, rfl, rfl⟩
  cases h with
  | expr d =>
    obtain ⟨t, hused, hspan⟩ | ⟨first, mid, last, hused, hspan⟩ := d.exists_ends
    · exact ⟨t, hused ▸ List.mem_cons_self, by rw [Node.span, hspan]; exact ⟨rfl, rfl, rfl⟩⟩
    · exact ⟨first, hused ▸ List.mem_cons_self, by rw [Node.span, hspan]; exact ⟨rfl, rfl, rfl⟩⟩
  | params opener params close => exact ⟨opener.token, List.mem_cons_self, rfl, rfl, rfl⟩
  | stmt d =>
    obtain ⟨first, mid, last, hused, hspan⟩ := d.exists_ends
    exact ⟨first, hused ▸ List.mem_cons_self, by rw [Node.span, hspan]; exact ⟨rfl, rfl, rfl⟩⟩
  | block stop ds => exact hbody stop ds
  | program eof ds => exact hbody eof ds

/-- The children of a node lie in it, one after another. -/
theorem children_inOrder (h : n.MadeOf used) (hused : InOrder lo (used.map Token.span) hi) :
    InOrder n.span.start (n.children.map Node.span) n.span.stop := by
  cases h with
  | expr d => exact d.children_inOrder hused
  | stmt d => exact d.children_inOrder hused
  | params opener params close =>
    have hspans : ((params.map TokenOf.symbol).map fun s => Node.expr (.symbol s)).map Node.span =
        (params.map TokenOf.token).map Token.span := by
      simp only [List.map_map]
      rfl
    rw [List.map_cons, List.map_append] at hused
    rw [children, hspans]
    exact hused.2.2.before.weaken hused.2.1 le_rfl
  | block stop ds | program stop ds =>
    have hspans : ((StmtPhrase.trees ds).map Node.stmt).map Node.span =
        (StmtPhrase.trees ds).map Stmt.span := by
      rw [List.map_map]
      rfl
    rw [List.map_append] at hused
    refine InOrder.present ((StmtPhrase.trees ds).map .stmt) ?_
    rw [hspans]
    exact (StmtPhrase.inOrder_body stop ds hused).1

end MadeOf

end Node

/-- What is visited is made of some of the tokens, with no gap between them. -/
def Visits (ts : List Token) (visits : List Visit) : Prop :=
  ∀ v ∈ visits, ∃ used, used <:+: ts ∧ v.node.MadeOf used

namespace Visits

variable {ts ts' : List Token} {visits visits' : List Visit}

theorem nil (ts : List Token) : Visits ts [] := nofun

theorem mono (h : Visits ts visits) (hts : ts <:+: ts') : Visits ts' visits := by
  intro v hv
  obtain ⟨used, hused, hmade⟩ := h v hv
  exact ⟨used, hused.trans hts, hmade⟩

theorem append (h : Visits ts visits) (h' : Visits ts visits') : Visits ts (visits ++ visits') :=
  List.forall_mem_append.mpr ⟨h, h'⟩

theorem enter {n : Node} (hn : n.MadeOf ts) (h : Visits ts visits) (descend : Node → Bool) (depth : Nat) :
    Visits ts (Visit.enter descend depth n visits) := by
  refine List.forall_mem_cons.mpr ⟨⟨ts, List.infix_rfl, hn⟩, ?_⟩
  split
  · exact h
  · exact Visits.nil ts

end Visits

section Walk

variable (descend : Node → Bool)

theorem TokenOf.visits_symbol (t : TokenOf .ident) (depth : Nat) :
    Visits [t.token] (Visit.enter descend depth (.expr (.symbol t.symbol)) []) :=
  .enter (.expr (.atom (.symbol t)) trivial) (.nil _) descend depth

theorem TokenOf.visits_symbols (ts : List (TokenOf .ident)) (depth : Nat) :
    Visits (ts.map TokenOf.token) (Visit.symbols descend depth (ts.map TokenOf.symbol)) := by
  induction ts with
  | nil => exact .nil _
  | cons t ts ih =>
    have hfirst := t.visits_symbol descend depth
    exact (hfirst.mono (List.infix_append' [] _ _)).append (ih.mono (List.suffix_cons _ _).isInfix)

mutual

/-- Every part of a tree is made of tokens of its phrase. -/
theorem ExprPhrase.visits (d : ExprPhrase) (hd : d.Admissible) (depth : Nat) :
    Visits d.tokens (Visit.expr descend depth d.tree) := by
  have hnode := Node.MadeOf.expr d hd
  cases d with
  | atom a => cases a <;> exact .enter hnode (.nil _) descend depth
  | call opener callee args close =>
    have hcallee := ExprPhrase.visits callee hd.1 (depth + 1)
    have hargs := ExprPhrase.visitsAll args hd.2 (depth + 1)
    refine .enter hnode (.append (hcallee.mono ?_) (hargs.mono ?_)) descend depth
    · exact ⟨[opener.token], _, by simp [ExprPhrase.tokens]; rfl⟩
    · exact ⟨opener.token :: callee.tokens, _, by simp [ExprPhrase.tokens]; rfl⟩
  | function word opener params close body stop =>
    have hlist := (TokenOf.visits_symbols descend params (depth + 2)).mono
      (List.infix_append' [opener.token] _ [close.token])
    have hparams := hlist.enter (.params opener params close) descend (depth + 1)
    have hbody := StmtPhrase.visitsBlock stop.token body hd.2 (depth + 1)
    refine .enter hnode (.append (hparams.mono ?_) (hbody.mono ?_)) descend depth
    · exact ⟨[word.token], _, by simp [ExprPhrase.tokens]; rfl⟩
    · exact ⟨word.token :: opener.token :: (params.map TokenOf.token ++ [close.token]), [],
        by simp [ExprPhrase.tokens]⟩
termination_by structural d

theorem ExprPhrase.visitsAll (ds : List ExprPhrase) (hds : ExprPhrase.AllAdmissible ds) (depth : Nat) :
    Visits (ExprPhrase.tokensOf ds) (Visit.exprs descend depth (ExprPhrase.trees ds)) := by
  cases ds with
  | nil => exact .nil _
  | cons d ds =>
    exact ((ExprPhrase.visits d hds.1 depth).mono (List.prefix_append _ _).isInfix).append
      ((ExprPhrase.visitsAll ds hds.2 depth).mono (List.suffix_append _ _).isInfix)
termination_by structural ds

theorem StmtPhrase.visits (d : StmtPhrase) (hd : d.Admissible) (depth : Nat) :
    Visits d.tokens (Visit.stmt descend depth d.tree) := by
  have hnode := Node.MadeOf.stmt d hd
  cases d with
  | set word target value stop =>
    have htarget := TokenOf.visits_symbols descend [target] (depth + 1)
    have hvalue := ExprPhrase.visits value hd (depth + 1)
    refine .enter hnode (.append (htarget.mono ?_) (hvalue.mono ?_)) descend depth
    · exact ⟨[word.token], _, by simp [StmtPhrase.tokens]; rfl⟩
    · exact ⟨[word.token, target.token], _, by simp [StmtPhrase.tokens]; rfl⟩
  | branch word condition body stop =>
    have hcondition := ExprPhrase.visits condition hd.1 (depth + 1)
    have hbody := StmtPhrase.visitsBlock stop.token body hd.2 (depth + 1)
    refine .enter hnode (.append (.append (hcondition.mono ?_) (hbody.mono ?_)) (.nil _)) descend depth
    · exact ⟨[word.token], _, by simp [StmtPhrase.tokens]; rfl⟩
    · exact ⟨word.token :: condition.tokens, [], by simp [StmtPhrase.tokens]⟩
  | branchElse word condition thenBody middle elseBody stop =>
    have hcondition := ExprPhrase.visits condition hd.1 (depth + 1)
    have hthen := StmtPhrase.visitsBlock middle.token thenBody hd.2.1 (depth + 1)
    have helse := StmtPhrase.visitsBlock stop.token elseBody hd.2.2 (depth + 1)
    refine .enter hnode (.append (.append (hcondition.mono ?_) (hthen.mono ?_)) (helse.mono ?_))
      descend depth
    · exact ⟨[word.token], _, by simp [StmtPhrase.tokens]; rfl⟩
    · exact ⟨word.token :: condition.tokens, _, by simp [StmtPhrase.tokens]; rfl⟩
    · exact ⟨word.token :: (condition.tokens ++ (StmtPhrase.tokensOf thenBody ++ [middle.token])), [],
        by simp [StmtPhrase.tokens]⟩
  | times word count body stop =>
    have hcount := ExprPhrase.visits count hd.1 (depth + 1)
    have hbody := StmtPhrase.visitsBlock stop.token body hd.2 (depth + 1)
    refine .enter hnode (.append (hcount.mono ?_) (hbody.mono ?_)) descend depth
    · exact ⟨[word.token], _, by simp [StmtPhrase.tokens]; rfl⟩
    · exact ⟨word.token :: count.tokens, [], by simp [StmtPhrase.tokens]⟩
  | forever word body stop =>
    have hcount : Visits [word.token] (Visit.expr descend (depth + 1) (.forever word.token.span)) :=
      .enter (.expr (.atom (.forever word)) trivial) (.nil _) descend (depth + 1)
    have hbody := StmtPhrase.visitsBlock stop.token body hd (depth + 1)
    refine .enter hnode (.append (hcount.mono ?_) (hbody.mono ?_)) descend depth
    · exact ⟨[], _, rfl⟩
    · exact ⟨[word.token], [], by simp [StmtPhrase.tokens]⟩
  | call opener callee args close =>
    have hcallee := ExprPhrase.visits callee hd.1 (depth + 1)
    have hargs := ExprPhrase.visitsAll args hd.2 (depth + 1)
    refine .enter hnode (.append (hcallee.mono ?_) (hargs.mono ?_)) descend depth
    · exact ⟨[opener.token], _, by simp [StmtPhrase.tokens]; rfl⟩
    · exact ⟨opener.token :: callee.tokens, _, by simp [StmtPhrase.tokens]; rfl⟩
termination_by structural d

theorem StmtPhrase.visitsAll (ds : List StmtPhrase) (hds : StmtPhrase.AllAdmissible ds) (depth : Nat) :
    Visits (StmtPhrase.tokensOf ds) (Visit.stmts descend depth (StmtPhrase.trees ds)) := by
  cases ds with
  | nil => exact .nil _
  | cons d ds =>
    exact ((StmtPhrase.visits d hds.1 depth).mono (List.prefix_append _ _).isInfix).append
      ((StmtPhrase.visitsAll ds hds.2 depth).mono (List.suffix_append _ _).isInfix)
termination_by structural ds

theorem StmtPhrase.visitsBlock (stop : Token) (ds : List StmtPhrase) (hds : StmtPhrase.AllAdmissible ds)
    (depth : Nat) :
    Visits (StmtPhrase.tokensOf ds ++ [stop])
      (Visit.block descend depth (blockBefore stop (StmtPhrase.tokensOf ds) (StmtPhrase.trees ds))) := by
  cases ds with
  | nil => exact .enter (.block stop []) (.nil _) descend depth
  | cons d ds =>
    have hbody := ((StmtPhrase.visits d hds.1 (depth + 1)).mono (List.prefix_append _ _).isInfix).append
      ((StmtPhrase.visitsAll ds hds.2 (depth + 1)).mono (List.suffix_append _ _).isInfix)
    exact (hbody.mono (List.prefix_append _ _).isInfix).enter (.block stop (d :: ds)) descend depth
termination_by structural ds

end

/-- Every node of a program that was read is made of tokens of its text, and the program of them all. -/
theorem Program.visits {source : Bytes} {p : Program} (h : Program.read source = .ok p) :
    ∃ ts eof, scan source = .ok ⟨ts, eof⟩ ∧ (Node.program p).MadeOf (ts ++ [eof]) ∧
      ∀ v ∈ (Node.program p).walk descend,
        v.node = .program p ∨ ∃ used, used <:+: ts ∧ v.node.MadeOf used := by
  obtain ⟨ts, body, hts, htokens, hbody, rfl⟩ := Program.read_derives h
  refine ⟨ts.items, ts.eof, hts, htokens ▸ .program ts.eof body, fun v hv => ?_⟩
  obtain rfl | hv := List.mem_cons.mp hv
  · exact .inl rfl
  · split at hv
    · rw [htokens]
      exact .inr (StmtPhrase.visitsAll descend body hbody 1 v hv)
    · cases hv

end Walk

end Stepwise
