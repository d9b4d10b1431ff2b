import Mathlib.Tactic.Common
import Stepwise.Tree.Read

/-! Reading with a head. It stands on one of the tokens, looks at it, and moves to the next one, but not from
the end of input. The routines here read a program in this way, with a loop for each list of parts; what is
behind the head is only looked up for the places of the parts. Wherever they are called, the head stays on
the tokens and never moves back, every statement and every expression moves it on, and every loop ends. -/

namespace Stepwise

/-- Where the head stands, and where it stood whenever it looked, the last time first. -/
structure Head where
  pos : Nat
  seen : List Nat

/-- Why a reading stops before its end: because a text is refused, or because of what must not happen. -/
inductive Halt where
  | refused (d : Diagnostic)
  /-- There is no token where one is looked for. -/
  | offTokens
  /-- The bounds of a piece of text do not fit it. -/
  | badSlice
  /-- A body has been read up to a token that does not close it. -/
  | notClosed
  /-- The rounds of a loop, or the routines inside each other, are more than were allowed. -/
  | unfinished

def Parsing (α : Type) : Type := List Token → Head → Except Halt α × Head

instance : Monad Parsing where
  pure a := fun _ h => (.ok a, h)
  bind x f := fun tokens h =>
    match x tokens h with
    | (.ok a, h') => f a tokens h'
    | (.error e, h') => (.error e, h')

namespace Head

def note (h : Head) : Head := ⟨h.pos, h.pos :: h.seen⟩

def next (h : Head) : Head := ⟨h.pos + 1, h.seen⟩

/-- The head stands on a token, and it has never stood behind this place. -/
structure Within (tokens : List Token) (h : Head) : Prop where
  inside : h.pos < tokens.length
  sorted : (h.pos :: h.seen).Pairwise (· ≥ ·)

end Head

namespace Parsing

variable {α σ : Type}

def halt (e : Halt) : Parsing α := fun _ h => (.error e, h)

def refuse (cause : Cause) (t : Token) : Parsing α := halt (.refused ⟨cause, t.span⟩)

def tokenAt (index : Head → Nat) : Parsing Token := fun tokens h =>
  match tokens[index h]? with
  | some t => (.ok t, h.note)
  | none => (.error .offTokens, h.note)

def look : Parsing Token := tokenAt Head.pos

def move : Parsing Unit := fun _ h => (.ok (), h.next)

def advance : Parsing Token := do
  let t ← look
  if t.kind = .eof then return t
  else do
    move
    return t

/-- The token that the head has left last. -/
def last : Parsing Token := tokenAt fun h => if h.pos = 0 then 0 else h.pos - 1

def expect (kind : TokenKind) (cause : Token → Cause) : Parsing Token := do
  let t ← look
  if t.kind = kind then advance else refuse (cause t) t

/-- The word that closes a body which has been read. -/
def expectEnd : Parsing Token := do
  let t ← look
  if t.kind = .keyword .endWord then advance else halt .notClosed

/-- From a token to the last one that has been read. -/
def spanFrom (first : Token) : Parsing Span := do
  let t ← last
  return { first.span with
    stop := if t.span.stop < first.span.start then first.span.stop else t.span.stop }

def slice (text : Bytes) (start stop : Int) : Parsing Bytes :=
  if 0 ≤ start ∧ start ≤ stop ∧ stop ≤ text.length then
    pure ((text.take stop.toNat).drop start.toNat)
  else halt .badSlice

/-- One round after another, up to one that ends the loop. -/
def loop (round : σ → Parsing (σ ⊕ α)) : Nat → σ → Parsing α
  | 0, _ => halt .unfinished
  | n + 1, s => do
    match ← round s with
    | .inl s => loop round n s
    | .inr a => return a

end Parsing

/-- The routines that call each other. -/
structure Routines where
  expression : Parsing Expr
  statement : Parsing Stmt
  /-- Statements up to a token of one of the kinds, where the head stays. -/
  block : Token → List TokenKind → Parsing Block

namespace Routines

open Parsing

variable (r : Routines) (rounds : Nat)

def blockSpan (first : Token) (body : List Stmt) : Parsing Span :=
  if body.isEmpty then pure first.span.opening else spanFrom first

def blockRound (first opener : Token) (stops : List TokenKind) (body : List Stmt) :
    Parsing (List Stmt ⊕ Block) := do
  let t ← look
  if t.kind ∈ stops then do
    let span ← blockSpan first body
    return .inr (.of span body)
  else if t.kind = .eof then refuse (.unterminatedBlock opener.raw) opener
  else do
    let s ← r.statement
    return .inl (body ++ [s])

def blockOf (opener : Token) (stops : List TokenKind) : Parsing Block := do
  let first ← look
  loop (r.blockRound first opener stops) rounds []

def set : Parsing Stmt := do
  let first ← advance
  let t ← look
  if t.kind = .ident then do
    let _ ← advance
    let value ← r.expression
    let _ ← expect (.keyword .endWord) .setNotClosed
    let span ← spanFrom first
    return .set span (some ⟨t.span, t.raw⟩) value
  else if (Keyword.ofWord? t.raw).isSome then refuse (.keywordTarget t.raw) t
  else refuse (.targetNotSymbol t) t

def elseBlock : Parsing Block := do
  let t ← look
  if t.kind = .keyword .elseWord then do
    let word ← advance
    r.block word [.keyword .endWord]
  else return .missing

def branch : Parsing Stmt := do
  let first ← advance
  let condition ← r.expression
  let thenBlock ← r.block first [.keyword .endWord, .keyword .elseWord]
  let elseBlock ← r.elseBlock
  let _ ← expectEnd
  let span ← spanFrom first
  return .branch span condition thenBlock elseBlock

def times : Parsing Stmt := do
  let first ← advance
  let count ← r.expression
  let body ← r.block first [.keyword .endWord]
  let _ ← expectEnd
  let span ← spanFrom first
  return .times span count body

def forever : Parsing Stmt := do
  let first ← advance
  let body ← r.block first [.keyword .endWord]
  let _ ← expectEnd
  let span ← spanFrom first
  return .times span (.forever first.span) body

def argsRound (opener : Token) (args : List Expr) : Parsing (List Expr ⊕ List Expr) := do
  let t ← look
  if t.kind = .rparen then do
    let _ ← advance
    return .inr args
  else if t.kind = .eof then refuse .unterminatedCall opener
  else do
    let arg ← r.expression
    return .inl (args ++ [arg])

/-- The callee and the arguments of a call. -/
def callParts : Parsing (Expr × List Expr) := do
  let opener ← advance
  let t ← look
  if t.kind = .rparen then do
    let close ← look
    halt (.refused ⟨.emptyCall, opener.span.through close.span⟩)
  else do
    let callee ← r.expression
    let args ← loop (r.argsRound opener) rounds []
    return (callee, args)

def paramsRound (opener : Token) (found : List Name × List Symbol) :
    Parsing (List Name × List Symbol ⊕ List Symbol) := do
  let t ← look
  if t.kind = .rparen then return .inr found.2
  else if t.kind = .eof then refuse .unterminatedParams opener
  else if t.kind ≠ .ident then refuse (.paramNotSymbol t) t
  else if found.1.contains t.raw then refuse (.duplicateParam t.raw) t
  else do
    let _ ← advance
    return .inl (t.raw :: found.1, found.2 ++ [⟨t.span, t.raw⟩])

def function : Parsing Expr := do
  let first ← advance
  let opener ← expect .lparen .paramsNotOpened
  let symbols ← loop (paramsRound opener) rounds ([], [])
  let _ ← advance
  let paramsSpan ← spanFrom opener
  let body ← r.block first [.keyword .endWord]
  let _ ← expectEnd
  let span ← spanFrom first
  return .function span (some ⟨paramsSpan, symbols⟩) body

def integer (t : Token) : Parsing Expr := do
  let _ ← advance
  match Decimal.readWord? t.raw with
  | some n => return .number t.span n
  | none => refuse (.integerRange t.raw) t

/-- The text between the quotes of a token. -/
def string (t : Token) : Parsing Expr := do
  let _ ← advance
  let text ← slice t.raw 1 (t.raw.length - 1)
  return .string t.span text

def atom (e : Expr) : Parsing Expr := do
  let _ ← advance
  return e

def callExpression (first : Token) : Parsing Expr := do
  let (callee, args) ← r.callParts rounds
  let span ← spanFrom first
  return .call span callee args

def expressionOf : Parsing Expr := do
  let t ← look
  match t.kind with
  | .int => integer t
  | .string => string t
  | .ident => atom (.symbol ⟨t.span, t.raw⟩)
  | .keyword .trueWord => atom (.boolean t.span true)
  | .keyword .falseWord => atom (.boolean t.span false)
  | .keyword .null => atom (.null t.span)
  | .keyword .forever => atom (.forever t.span)
  | .keyword .function => r.function rounds
  | .lparen => r.callExpression rounds t
  | .eof | .rparen | .keyword .set | .keyword .ifWord | .keyword .elseWord | .keyword .endWord
  | .keyword .times => refuse (.noExpression t) t

def callStatement (first : Token) : Parsing Stmt := do
  let (callee, args) ← r.callParts rounds
  let span ← spanFrom first
  return .call span callee args

def statementOf : Parsing Stmt := do
  let t ← look
  match t.kind with
  | .keyword .set => r.set
  | .keyword .ifWord => r.branch
  | .keyword .times => r.times
  | .keyword .forever => r.forever
  | .lparen => r.callStatement rounds t
  | .eof | .rparen | .int | .string | .ident | .keyword .elseWord | .keyword .endWord
  | .keyword .function | .keyword .trueWord | .keyword .falseWord | .keyword .null =>
    refuse (.noStatement t) t

/-- The routines that have as many more inside them, with as many rounds for their loops. -/
def upTo : Nat → Routines
  | 0 => ⟨halt .unfinished, halt .unfinished, fun _ _ => halt .unfinished⟩
  | n + 1 => ⟨(upTo n).expressionOf n, (upTo n).statementOf n, (upTo n).blockOf n⟩

def programRound (body : List Stmt) : Parsing (List Stmt ⊕ List Stmt) := do
  let t ← look
  if t.kind = .eof then return .inr body
  else do
    let s ← r.statement
    return .inl (body ++ [s])

/-- The program that the tokens from the head on are. -/
def program : Parsing Program := do
  let first ← look
  let body ← loop r.programRound rounds []
  let span ← spanFrom first
  return ⟨span, body⟩

end Routines

/-- Tokens with the end of input after them, and nowhere else. -/
def IsTape (tokens : List Token) : Prop :=
  ∃ items eof, tokens = items ++ [eof] ∧ eof.kind = .eof ∧ ∀ t ∈ items, t.kind ≠ .eof

/-- Every string token has room for two quotes. -/
def Quoted (tokens : List Token) : Prop := ∀ t ∈ tokens, t.kind = .string → 2 ≤ t.raw.length

theorem IsTape.kind_eq_eof_iff {tokens : List Token} (h : IsTape tokens) {i : Nat} {t : Token}
    (ht : tokens[i]? = some t) : t.kind = .eof ↔ i + 1 = tokens.length := by
  obtain ⟨items, eof, rfl, heof, hitems⟩ := h
  obtain ⟨hi, hget⟩ := List.getElem?_eq_some_iff.mp ht
  rw [List.length_append, List.length_singleton] at hi ⊢
  obtain hlt | rfl := Nat.lt_or_eq_of_le (Nat.le_of_lt_succ hi)
  · have hmem : t ∈ items := by
      rw [List.getElem_append_left hlt] at hget
      exact hget ▸ List.getElem_mem hlt
    exact iff_of_false (hitems t hmem) (by omega)
  · have hlast : eof = t := by simpa using hget
    exact iff_of_true (hlast ▸ heof) rfl

namespace Head.Within

variable {tokens : List Token} {h : Head} {t : Token}

theorem note (hw : h.Within tokens) : h.note.Within tokens where
  inside := hw.inside
  sorted := List.pairwise_cons.mpr ⟨List.forall_mem_cons.mpr
    ⟨Nat.le_refl _, (List.pairwise_cons.mp hw.sorted).1⟩, hw.sorted⟩

theorem next (hw : h.Within tokens) (hnext : h.pos + 1 < tokens.length) : h.next.Within tokens where
  inside := hnext
  sorted := by
    obtain ⟨hbehind, hseen⟩ := List.pairwise_cons.mp hw.sorted
    exact List.pairwise_cons.mpr ⟨fun p hp => Nat.le_succ_of_le (hbehind p hp), hseen⟩

end Head.Within

/-- What a reading may stop at: not without tokens left, and not for lack of rounds if they were enough. -/
def Halt.Allowed (tokens : List Token) (enough : Prop) : Halt → Prop
  | .refused _ => True
  | .offTokens | .notClosed => False
  | .badSlice => ¬ Quoted tokens
  | .unfinished => ¬ enough

/-- How the head goes when a part is read: it stays on the tokens, does not come to stand behind where it
stood, and stops short only as it may; and when the part has been read, more is known. -/
structure Goes {α : Type} (tokens : List Token) (enough : Prop) (h : Head) (x : Parsing α)
    (Q : α → Head → Prop) : Prop where
  within : (x tokens h).2.Within tokens
  forward : h.pos ≤ (x tokens h).2.pos
  halts : ∀ e, (x tokens h).1 = .error e → e.Allowed tokens enough
  done : ∀ a, (x tokens h).1 = .ok a → Q a (x tokens h).2

section Goes

open Parsing

variable {α β σ : Type} {tokens : List Token} {enough : Prop} {h : Head} {x : Parsing α} {f : α → Parsing β}
  {Q : α → Head → Prop} {R : β → Head → Prop} {t : Token}

namespace Goes

theorem of_ok {a : α} {h' : Head} (hrun : x tokens h = (.ok a, h')) (hw : h'.Within tokens)
    (hle : h.pos ≤ h'.pos) (ha : Q a h') : Goes tokens enough h x Q := by
  refine ⟨?_, ?_, fun e he => ?_, fun b hb => ?_⟩
  · rwa [hrun]
  · rwa [hrun]
  · rw [hrun] at he
    cases he
  · rw [hrun] at hb ⊢
    cases hb
    exact ha

theorem of_error {e : Halt} {h' : Head} (hrun : x tokens h = (.error e, h')) (hw : h'.Within tokens)
    (hle : h.pos ≤ h'.pos) (he : e.Allowed tokens enough) : Goes tokens enough h x Q := by
  refine ⟨?_, ?_, fun e' he' => ?_, fun b hb => ?_⟩
  · rwa [hrun]
  · rwa [hrun]
  · rw [hrun] at he'
    cases he'
    exact he
  · rw [hrun] at hb
    cases hb

theorem pure (hw : h.Within tokens) {a : α} (ha : Q a h) : Goes tokens enough h (Pure.pure a) Q :=
  of_ok rfl hw (Nat.le_refl _) ha

theorem halt (hw : h.Within tokens) {e : Halt} (he : e.Allowed tokens enough) :
    Goes tokens enough h (Parsing.halt e) Q :=
  of_error rfl hw (Nat.le_refl _) he

theorem refuse (hw : h.Within tokens) (cause : Cause) (t : Token) :
    Goes tokens enough h (Parsing.refuse cause t) Q := halt hw trivial

theorem bind (hx : Goes tokens enough h x Q)
    (hf : ∀ a h', h'.Within tokens → h.pos ≤ h'.pos → Q a h' → Goes tokens enough h' (f a) R) :
    Goes tokens enough h (x >>= f) R := by
  obtain ⟨hwithin, hforward, hhalts, hdone⟩ := hx
  cases hr : x tokens h with
  | mk r h' =>
    rw [hr] at hwithin hforward hhalts hdone
    cases r with
    | error e =>
      have hbind : (x >>= f) tokens h = (.error e, h') := by simp only [Bind.bind, hr]
      exact of_error hbind hwithin hforward (hhalts e rfl)
    | ok a =>
      have hbind : (x >>= f) tokens h = f a tokens h' := by simp only [Bind.bind, hr]
      have hnext := hf a h' hwithin hforward (hdone a rfl)
      refine ⟨?_, ?_, ?_, ?_⟩ <;> rw [hbind]
      · exact hnext.within
      · exact Nat.le_trans hforward hnext.forward
      · exact hnext.halts
      · exact hnext.done

theorem weaken {enough' : Prop} {Q' : α → Head → Prop} (hx : Goes tokens enough h x Q) (he : enough' → enough)
    (hQ : ∀ a h', h.pos ≤ h'.pos → Q a h' → Q' a h') : Goes tokens enough' h x Q' where
  within := hx.within
  forward := hx.forward
  halts e hr := by
    have hallowed := hx.halts e hr
    cases e with
    | refused | offTokens | badSlice | notClosed => exact hallowed
    | unfinished => exact mt he hallowed
  done a hr := hQ a _ hx.forward (hx.done a hr)

end Goes

theorem goes_tokenAt {index : Head → Nat} (hw : h.Within tokens) (hindex : index h < tokens.length) :
    Goes tokens enough h (tokenAt index) fun t h' => h'.pos = h.pos ∧ tokens[index h]? = some t := by
  have hget := List.getElem?_eq_getElem hindex
  have hrun : tokenAt index tokens h = (.ok tokens[index h], h.note) := by rw [tokenAt, hget]
  exact .of_ok hrun hw.note (Nat.le_refl _) ⟨rfl, hget⟩

theorem goes_look (hw : h.Within tokens) :
    Goes tokens enough h look fun t h' => h'.pos = h.pos ∧ tokens[h.pos]? = some t :=
  goes_tokenAt hw hw.inside

theorem goes_move (hw : h.Within tokens) (hnext : h.pos + 1 < tokens.length) :
    Goes tokens enough h move fun _ h' => h.pos < h'.pos :=
  .of_ok rfl (hw.next hnext) (Nat.le_succ _) (Nat.lt_succ_self _)

theorem goes_spanFrom (hw : h.Within tokens) (first : Token) :
    Goes tokens enough h (spanFrom first) fun _ h' => h'.pos = h.pos := by
  have hlast : (if h.pos = 0 then 0 else h.pos - 1) < tokens.length := by
    have := hw.inside
    split <;> omega
  exact (goes_tokenAt hw hlast).bind fun t h' hw' _ ht => .pure hw' ht.1

theorem goes_slice (hw : h.Within tokens) (ht : t ∈ tokens) (hkind : t.kind = .string) :
    Goes tokens enough h (slice t.raw 1 (t.raw.length - 1)) fun _ h' => h'.pos = h.pos := by
  rw [slice]
  split
  · exact .pure hw rfl
  · next hbounds => exact .halt hw fun hquoted => hbounds (by have := hquoted t ht hkind; omega)

/-- A loop ends when each of its rounds moves the head on. -/
theorem goes_loop {round : σ → Parsing (σ ⊕ α)} (Inv : σ → Head → Prop)
    (hround : ∀ s h, h.Within tokens → Inv s h → Goes tokens enough h (round s) fun more h' =>
      match more with
      | .inl s' => Inv s' h' ∧ h.pos < h'.pos
      | .inr a => Q a h')
    (rounds : Nat) {s : σ} (hw : h.Within tokens) (hs : Inv s h)
    (henough : enough → tokens.length - h.pos ≤ rounds) :
    Goes tokens enough h (loop round rounds s) Q := by
  -- on the rounds; fewer tokens are left after each of them, and never none
  induction rounds generalizing s h with
  | zero => exact .halt hw fun he => by have := henough he; have := hw.inside; omega
  | succ n ih =>
    refine (hround s h hw hs).bind fun more h' hw' _ hmore => ?_
    cases more with
    | inl s' => exact ih hw' hmore.1 fun he => by have := henough he; have := hmore.2; omega
    | inr a => exact .pure hw' hmore

section OnTape

variable (htape : IsTape tokens) (hw : h.Within tokens)

include htape hw

theorem goes_advance :
    Goes tokens enough h advance fun t h' =>
      tokens[h.pos]? = some t ∧ (t.kind ≠ .eof → h.pos < h'.pos) := by
  refine (goes_look hw).bind fun t h' hw' _ ⟨hpos, ht⟩ => ?_
  split
  · next heof => exact .pure hw' ⟨ht, fun hkind => absurd heof hkind⟩
  · next heof =>
    have hnext : h'.pos + 1 < tokens.length := by
      have hlast := mt (htape.kind_eq_eof_iff ht).mpr heof
      have := hw.inside
      omega
    refine (goes_move hw' hnext).bind fun _ h'' hw'' _ hlt => .pure hw'' ⟨ht, fun _ => ?_⟩
    omega

/-- The head leaves a token that it stands on. -/
theorem goes_advance_from (ht : tokens[h.pos]? = some t) (hkind : t.kind ≠ .eof) :
    Goes tokens enough h advance fun t' h' => t' = t ∧ h.pos < h'.pos := by
  refine (goes_advance htape hw).weaken id fun t' h' _ ⟨ht', hnext⟩ => ?_
  obtain rfl := Option.some_inj.mp (ht'.symm.trans ht)
  exact ⟨rfl, hnext hkind⟩

theorem goes_expect {kind : TokenKind} (hkind : kind ≠ .eof) (cause : Token → Cause) :
    Goes tokens enough h (expect kind cause) fun _ h' => h.pos < h'.pos := by
  refine (goes_look hw).bind fun t h' hw' _ ⟨hpos, ht⟩ => ?_
  split
  · next hfound =>
    rw [← hpos] at ht ⊢
    exact (goes_advance_from htape hw' ht (hfound ▸ hkind)).weaken id fun _ _ _ hnext => hnext.2
  · exact .refuse hw' _ t

theorem goes_expectEnd (ht : tokens[h.pos]? = some t) (hkind : t.kind = .keyword .endWord) :
    Goes tokens enough h expectEnd fun _ h' => h.pos < h'.pos := by
  refine (goes_look hw).bind fun t' h' hw' _ ⟨hpos, ht'⟩ => ?_
  obtain rfl := Option.some_inj.mp (ht'.symm.trans ht)
  rw [if_pos hkind]
  rw [← hpos] at ht ⊢
  exact (goes_advance_from htape hw' ht (by simp [hkind])).weaken id fun _ _ _ hnext => hnext.2

end OnTape

end Goes

namespace Routines

open Parsing

/-- How the routines go that are called from a place on. -/
structure Go (tokens : List Token) (enough : Prop) (lo : Nat) (r : Routines) : Prop where
  expression : ∀ h, h.Within tokens → lo ≤ h.pos →
    Goes tokens enough h r.expression fun _ h' => h.pos < h'.pos
  statement : ∀ h, h.Within tokens → lo ≤ h.pos →
    Goes tokens enough h r.statement fun _ h' => h.pos < h'.pos
  block : ∀ opener stops h, h.Within tokens → lo ≤ h.pos →
    Goes tokens enough h (r.block opener stops) fun _ h' => ∃ t, tokens[h'.pos]? = some t ∧ t.kind ∈ stops

section Steps

variable {tokens : List Token} {enough : Prop} {h : Head} {r : Routines} {rounds : Nat} {t : Token}

theorem goes_blockOf (hw : h.Within tokens) (hr : ∀ h', h'.Within tokens → h.pos ≤ h'.pos →
      Goes tokens enough h' r.statement fun _ h'' => h'.pos < h''.pos)
    (henough : enough → tokens.length - h.pos ≤ rounds) (opener : Token) (stops : List TokenKind) :
    Goes tokens enough h (r.blockOf rounds opener stops) fun _ h' =>
      ∃ t, tokens[h'.pos]? = some t ∧ t.kind ∈ stops := by
  refine (goes_look hw).bind fun first h₁ hw₁ hle₁ _ => ?_
  refine goes_loop (fun _ h' => h.pos ≤ h'.pos) (fun body h' hw' hle' => ?_) rounds hw₁ hle₁
    fun he => by have := henough he; omega
  refine (goes_look hw').bind fun t h₂ hw₂ hle₂ ⟨hpos, ht⟩ => ?_
  split
  · next hstop =>
    have hspan : Goes tokens enough h₂ (blockSpan first body) fun _ h₃ => h₃.pos = h₂.pos := by
      rw [blockSpan]
      split
      · exact .pure hw₂ rfl
      · exact goes_spanFrom hw₂ first
    refine hspan.bind fun span h₃ hw₃ _ hpos₃ => .pure hw₃ ⟨t, ?_, hstop⟩
    rw [hpos₃, hpos, ht]
  split
  · exact .refuse hw₂ _ opener
  · refine (hr h₂ hw₂ (by omega)).bind fun s h₃ hw₃ hle₃ hlt => .pure hw₃ ⟨?_, ?_⟩ <;> omega

/-- A body up to `end` and the word itself, with what has been read before them. -/
theorem goes_closed {α : Type} (htape : IsTape tokens) (hr : r.Go tokens enough (h.pos + 1)) {h₁ : Head}
    (hw₁ : h₁.Within tokens) (hlt : h.pos < h₁.pos) (first : Token) (f : Span → Block → α) :
    Goes tokens enough h₁
      (do
        let body ← r.block first [.keyword .endWord]
        let _ ← expectEnd
        let span ← spanFrom first
        return f span body)
      fun _ h' => h.pos < h'.pos := by
  refine (hr.block first _ h₁ hw₁ hlt).bind fun body h₂ hw₂ hle₂ ⟨close, hclose, hend⟩ => ?_
  refine (goes_expectEnd htape hw₂ hclose (List.mem_singleton.mp hend)).bind fun _ h₃ hw₃ hle₃ _ => ?_
  exact (goes_spanFrom hw₃ first).bind fun span h₄ hw₄ hle₄ _ => .pure hw₄ (by omega)

variable (htape : IsTape tokens) (hw : h.Within tokens) (hr : r.Go tokens enough (h.pos + 1))
  (ht : tokens[h.pos]? = some t) (hkind : t.kind ≠ .eof)

include htape hw hr ht hkind

theorem goes_set : Goes tokens enough h r.set fun _ h' => h.pos < h'.pos := by
  refine (goes_advance_from htape hw ht hkind).bind fun first h₁ hw₁ _ ⟨_, hlt⟩ => ?_
  refine (goes_look hw₁).bind fun name h₂ hw₂ hle₂ _ => ?_
  split
  · refine (goes_advance htape hw₂).bind fun _ h₃ hw₃ hle₃ _ => ?_
    refine (hr.expression h₃ hw₃ (by omega)).bind fun value h₄ hw₄ hle₄ _ => ?_
    refine (goes_expect htape hw₄ (by decide) _).bind fun _ h₅ hw₅ hle₅ _ => ?_
    exact (goes_spanFrom hw₅ first).bind fun span h₆ hw₆ hle₆ _ => .pure hw₆ (by omega)
  split
  · exact .refuse hw₂ _ name
  · exact .refuse hw₂ _ name

theorem goes_branch : Goes tokens enough h r.branch fun _ h' => h.pos < h'.pos := by
  refine (goes_advance_from htape hw ht hkind).bind fun first h₁ hw₁ _ ⟨_, hlt⟩ => ?_
  refine (hr.expression h₁ hw₁ (by omega)).bind fun condition h₂ hw₂ hle₂ _ => ?_
  refine (hr.block first _ h₂ hw₂ (by omega)).bind fun thenBlock h₃ hw₃ hle₃ ⟨stop, hstop, hstops⟩ => ?_
  -- the head still stands on the word that the first body is closed with
  have helse : Goes tokens enough h₃ r.elseBlock fun _ h' =>
      ∃ t, tokens[h'.pos]? = some t ∧ t.kind = .keyword .endWord := by
    refine (goes_look hw₃).bind fun word h₄ hw₄ hle₄ ⟨hpos, hword⟩ => ?_
    obtain rfl := Option.some_inj.mp (hword.symm.trans hstop)
    split
    · refine (goes_advance htape hw₄).bind fun word' h₅ hw₅ hle₅ _ => ?_
      exact (hr.block word' _ h₅ hw₅ (by omega)).weaken id fun _ _ _ ⟨t, ht, hmem⟩ =>
        ⟨t, ht, List.mem_singleton.mp hmem⟩
    · next hother => exact .pure hw₄ ⟨word, by rw [hpos, hword], by simpa [hother] using hstops⟩
  refine helse.bind fun elseBlock h₄ hw₄ hle₄ ⟨close, hclose, hend⟩ => ?_
  refine (goes_expectEnd htape hw₄ hclose hend).bind fun _ h₅ hw₅ hle₅ _ => ?_
  exact (goes_spanFrom hw₅ first).bind fun span h₆ hw₆ hle₆ _ => .pure hw₆ (by omega)

theorem goes_times : Goes tokens enough h r.times fun _ h' => h.pos < h'.pos := by
  refine (goes_advance_from htape hw ht hkind).bind fun first h₁ hw₁ _ ⟨_, hlt⟩ => ?_
  refine (hr.expression h₁ hw₁ (by omega)).bind fun count h₂ hw₂ hle₂ _ => ?_
  exact goes_closed htape hr hw₂ (by omega) first fun span body => Stmt.times span count body

theorem goes_forever : Goes tokens enough h r.forever fun _ h' => h.pos < h'.pos := by
  refine (goes_advance_from htape hw ht hkind).bind fun first h₁ hw₁ _ ⟨_, hlt⟩ => ?_
  exact goes_closed htape hr hw₁ hlt first fun span body => Stmt.times span (.forever first.span) body

theorem goes_callParts (henough : enough → tokens.length - h.pos ≤ rounds + 1) :
    Goes tokens enough h (r.callParts rounds) fun _ h' => h.pos < h'.pos := by
  refine (goes_advance_from htape hw ht hkind).bind fun opener h₁ hw₁ _ ⟨_, hlt⟩ => ?_
  refine (goes_look hw₁).bind fun first h₂ hw₂ hle₂ _ => ?_
  split
  · exact (goes_look hw₂).bind fun close h₃ hw₃ _ _ => .halt hw₃ trivial
  refine (hr.expression h₂ hw₂ (by omega)).bind fun callee h₃ hw₃ hle₃ _ => ?_
  have hargs : Goes tokens enough h₃ (loop (r.argsRound opener) rounds []) fun _ h' => h.pos < h'.pos := by
    refine goes_loop (fun _ h' => h.pos < h'.pos) (fun args h' hw' hlt' => ?_) rounds hw₃ (by omega)
      fun he => by have := henough he; omega
    refine (goes_look hw').bind fun t' h₄ hw₄ hle₄ _ => ?_
    split
    · exact (goes_advance htape hw₄).bind fun _ h₅ hw₅ hle₅ _ => .pure hw₅ (by omega)
    split
    · exact .refuse hw₄ _ opener
    · refine (hr.expression h₄ hw₄ (by omega)).bind fun arg h₅ hw₅ hle₅ _ => .pure hw₅ ⟨?_, ?_⟩ <;> omega
  exact hargs.bind fun args h₄ hw₄ _ hlt₄ => .pure hw₄ hlt₄

theorem goes_function (henough : enough → tokens.length - h.pos ≤ rounds + 1) :
    Goes tokens enough h (r.function rounds) fun _ h' => h.pos < h'.pos := by
  refine (goes_advance_from htape hw ht hkind).bind fun first h₁ hw₁ _ ⟨_, hlt⟩ => ?_
  refine (goes_expect htape hw₁ (by decide) _).bind fun opener h₂ hw₂ hle₂ _ => ?_
  have hparams : Goes tokens enough h₂ (loop (paramsRound opener) rounds ([], [])) fun _ h' =>
      h.pos < h'.pos := by
    refine goes_loop (fun _ h' => h.pos < h'.pos) (fun found h' hw' hlt' => ?_) rounds hw₂ (by omega)
      fun he => by have := henough he; omega
    refine (goes_look hw').bind fun t' h₃ hw₃ hle₃ ⟨hpos, ht'⟩ => ?_
    split
    · exact .pure hw₃ (by show h.pos < h₃.pos; omega)
    split
    · exact .refuse hw₃ _ opener
    next heof =>
    split
    · exact .refuse hw₃ _ t'
    split
    · exact .refuse hw₃ _ t'
    rw [← hpos] at ht'
    exact (goes_advance_from htape hw₃ ht' heof).bind fun _ h₄ hw₄ hle₄ ⟨_, hlt₄⟩ =>
      .pure hw₄ ⟨by omega, by omega⟩
  refine hparams.bind fun symbols h₃ hw₃ _ hlt₃ => ?_
  refine (goes_advance htape hw₃).bind fun _ h₄ hw₄ hle₄ _ => ?_
  refine (goes_spanFrom hw₄ opener).bind fun paramsSpan h₅ hw₅ hle₅ _ => ?_
  exact goes_closed htape hr hw₅ (by omega) first fun span body =>
    Expr.function span (some ⟨paramsSpan, symbols⟩) body

end Steps

section Run

variable {tokens : List Token} {enough : Prop} {h : Head} {r : Routines} {rounds : Nat}
  (htape : IsTape tokens) (hw : h.Within tokens) (hr : r.Go tokens enough (h.pos + 1))
  (henough : enough → tokens.length - h.pos ≤ rounds + 1)

include htape hw hr henough

theorem goes_expressionOf : Goes tokens enough h (r.expressionOf rounds) fun _ h' => h.pos < h'.pos := by
  refine (goes_look hw).bind fun t h₁ hw₁ _ ⟨hpos, ht⟩ => ?_
  rw [← hpos] at ht hr henough ⊢
  have hadvance (hkind : t.kind ≠ .eof) :
      Goes tokens enough h₁ advance fun t' h' => t' = t ∧ h₁.pos < h'.pos :=
    goes_advance_from htape hw₁ ht hkind
  have hatom (hkind : t.kind ≠ .eof) (e : Expr) :
      Goes tokens enough h₁ (atom e) fun _ h' => h₁.pos < h'.pos :=
    (hadvance hkind).bind fun _ h₂ hw₂ _ ⟨_, hlt⟩ => .pure hw₂ hlt
  split
  case h_1 hkind =>
    refine (hadvance (by simp [hkind])).bind fun _ h₂ hw₂ _ ⟨_, hlt⟩ => ?_
    split
    · exact .pure hw₂ hlt
    · exact .refuse hw₂ _ t
  case h_2 hkind =>
    refine (hadvance (by simp [hkind])).bind fun _ h₂ hw₂ _ ⟨_, hlt⟩ => ?_
    exact (goes_slice hw₂ (List.mem_of_getElem? ht) hkind).bind fun text h₃ hw₃ hle₃ _ => .pure hw₃ (by omega)
  case h_8 hkind => exact goes_function htape hw₁ hr ht (by simp [hkind]) henough
  case h_9 hkind =>
    refine (goes_callParts htape hw₁ hr ht (by simp [hkind]) henough).bind fun parts h₂ hw₂ _ hlt => ?_
    exact (goes_spanFrom hw₂ t).bind fun span h₃ hw₃ hle₃ _ => .pure hw₃ (by omega)
  all_goals
    rename_i hkind
    first
      | exact hatom (by simp [hkind]) _
      | exact .refuse hw₁ _ t

theorem goes_statementOf : Goes tokens enough h (r.statementOf rounds) fun _ h' => h.pos < h'.pos := by
  refine (goes_look hw).bind fun t h₁ hw₁ _ ⟨hpos, ht⟩ => ?_
  rw [← hpos] at ht hr henough ⊢
  split
  case h_1 hkind => exact goes_set htape hw₁ hr ht (by simp [hkind])
  case h_2 hkind => exact goes_branch htape hw₁ hr ht (by simp [hkind])
  case h_3 hkind => exact goes_times htape hw₁ hr ht (by simp [hkind])
  case h_4 hkind => exact goes_forever htape hw₁ hr ht (by simp [hkind])
  case h_5 hkind =>
    refine (goes_callParts htape hw₁ hr ht (by simp [hkind]) henough).bind fun parts h₂ hw₂ _ hlt => ?_
    exact (goes_spanFrom hw₂ t).bind fun span h₃ hw₃ hle₃ _ => .pure hw₃ (by omega)
  all_goals exact .refuse hw₁ _ t

end Run

/-- What routines with so many inside them do wherever they are called. They come to an end if there are
twice as many as tokens that are left, since two of them at most are entered before a token is read. -/
structure Proceeds (tokens : List Token) (n : Nat) (r : Routines) : Prop where
  expression : ∀ h, h.Within tokens →
    Goes tokens (2 * (tokens.length - h.pos) ≤ n) h r.expression fun _ h' => h.pos < h'.pos
  statement : ∀ h, h.Within tokens →
    Goes tokens (2 * (tokens.length - h.pos) ≤ n) h r.statement fun _ h' => h.pos < h'.pos
  block : ∀ opener stops h, h.Within tokens →
    Goes tokens (2 * (tokens.length - h.pos) < n) h (r.block opener stops) fun _ h' =>
      ∃ t, tokens[h'.pos]? = some t ∧ t.kind ∈ stops

theorem Proceeds.go {tokens : List Token} {n lo : Nat} {r : Routines} (h : r.Proceeds tokens n)
    {enough : Prop} (henough : enough → 2 * (tokens.length - lo) < n) : r.Go tokens enough lo where
  expression h' hw hlo := (h.expression h' hw).weaken (fun he => by have := henough he; omega) fun _ _ _ => id
  statement h' hw hlo := (h.statement h' hw).weaken (fun he => by have := henough he; omega) fun _ _ _ => id
  block opener stops h' hw hlo :=
    (h.block opener stops h' hw).weaken (fun he => by have := henough he; omega) fun _ _ _ => id

theorem Proceeds.step {tokens : List Token} (htape : IsTape tokens) {n : Nat}
    (h : (upTo n).Proceeds tokens n) : (upTo (n + 1)).Proceeds tokens (n + 1) where
  expression h' hw := by
    have hinside := hw.inside
    exact goes_expressionOf htape hw (h.go fun he => by omega) fun he => by omega
  statement h' hw := by
    have hinside := hw.inside
    exact goes_statementOf htape hw (h.go fun he => by omega) fun he => by omega
  block opener stops h' hw := by
    have hinside := hw.inside
    refine goes_blockOf hw (fun h'' hw' hle => ?_) (fun he => by omega) opener stops
    exact (h.statement h'' hw').weaken (fun he => by omega) fun _ _ _ => id

theorem upTo_proceeds {tokens : List Token} (htape : IsTape tokens) (n : Nat) :
    (upTo n).Proceeds tokens n := by
  induction n with
  | zero =>
    -- no routines are enough nowhere, for the head stands on a token
    have hhalt {α : Type} {Q : α → Head → Prop} {enough : Prop} (h : Head) (hw : h.Within tokens)
        (henough : ¬ enough) : Goes tokens enough h (halt .unfinished) Q := .halt hw henough
    refine ⟨fun h hw => ?_, fun h hw => ?_, fun opener stops h hw => ?_⟩ <;> have hinside := hw.inside
    · exact hhalt h hw (by omega)
    · exact hhalt h hw (by omega)
    · exact hhalt h hw (by omega)
  | succ n ih => exact ih.step htape

theorem goes_program {tokens : List Token} (htape : IsTape tokens) (n : Nat) {h : Head}
    (hw : h.Within tokens) :
    Goes tokens (2 * (tokens.length - h.pos) ≤ n) h ((upTo n).program n) fun _ h' =>
      h'.pos + 1 = tokens.length := by
  refine (goes_look hw).bind fun first h₁ hw₁ hle₁ ⟨hpos, _⟩ => ?_
  have hbody : Goes tokens (2 * (tokens.length - h.pos) ≤ n) h₁ (loop (upTo n).programRound n []) fun _ h' =>
      h'.pos + 1 = tokens.length := by
    refine goes_loop (fun _ h' => h.pos ≤ h'.pos) (fun body h' hw' hle' => ?_) n hw₁ hle₁
      fun he => by omega
    refine (goes_look hw').bind fun t h₂ hw₂ _ ⟨hpos₂, ht⟩ => ?_
    split
    · next heof =>
      have hlast := (htape.kind_eq_eof_iff ht).mp heof
      exact .pure hw₂ (by show h₂.pos + 1 = tokens.length; omega)
    · have hstatement : Goes tokens (2 * (tokens.length - h.pos) ≤ n) h₂ (upTo n).statement fun _ h' =>
          h₂.pos < h'.pos :=
        ((upTo_proceeds htape n).statement h₂ hw₂).weaken (fun he => by omega) fun _ _ _ hlt => hlt
      exact hstatement.bind fun s h₃ hw₃ hle₃ hlt => .pure hw₃ ⟨by omega, by omega⟩
  refine hbody.bind fun body h₂ hw₂ _ hlast => ?_
  exact (goes_spanFrom hw₂ first).bind fun span h₃ hw₃ _ hpos₃ => .pure hw₃ (by omega)

end Routines

end Stepwise
