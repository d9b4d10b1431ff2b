import Mathlib.Tactic.Common
import Stepwise.Proofs.Heads
import Stepwise.Proofs.Partition

/-! The head reads what the readers of the tree read. With as many rounds as the tokens ask for, it ends with
the same tree or the same refusal, for every text that consists of tokens. -/

namespace Stepwise

instance : LawfulMonad Parsing :=
  LawfulMonad.mk' Parsing
    (fun x => by
      funext tokens h
      change (x >>= fun a => pure a) tokens h = x tokens h
      simp only [Bind.bind, Pure.pure]
      split <;> simp_all)
    (fun _ _ => rfl)
    (fun x f g => by
      funext tokens h
      simp only [Bind.bind]
      cases hx : x tokens h with
      | mk r h' => cases r <;> rfl)

/-- Tokens as they are found in a text. -/
structure Tokens.Scanned (ts : Tokens) : Prop where
  eof : ts.eof.kind = .eof
  items : ∀ t ∈ ts.items, t.kind ≠ .eof
  spelled : ∀ t ∈ ts.toList, t.Spelled
  ordered : ts.items.Pairwise fun t t' => t.span.start ≤ t'.span.stop
  proper : ∀ t ∈ ts.items, t.span.start ≤ t.span.stop
  empty : ts.eof.span.stop = ts.eof.span.start

theorem scan_scanned {source : Bytes} {ts : Tokens} (h : scan source = .ok ts) : ts.Scanned := by
  have hpartition : ts.Partition source := by
    have hparts := scan_parts_text source
    rwa [h] at hparts
  have hproper (t : Token) (ht : t ∈ ts.toList) : t.span.start ≤ t.span.stop :=
    (hpartition.places t ht).1.ordered
  have hitems (t : Token) (ht : t ∈ ts.items) : t ∈ ts.toList := List.mem_append_left _ ht
  have heof : ts.eof ∈ ts.toList := List.mem_append_right _ (List.mem_singleton_self _)
  refine ⟨hpartition.eof.1, fun t ht => (hpartition.items t ht).1, fun t ht => ?_, ?_,
    fun t ht => hproper t (hitems t ht), ?_⟩
  · obtain ht | ht := List.mem_append.mp ht
    · exact scanFrom_spelled .origin source h t ht
    · rw [List.mem_singleton.mp ht, Token.Spelled, hpartition.eof.1]
      exact hpartition.eof.2.1
  · refine (List.pairwise_append.mp hpartition.ordered).1.imp_of_mem fun {t t'} ht ht' hle => ?_
    have hfirst := hproper t (hitems t ht)
    have hsecond := hproper t' (hitems t' ht')
    omega
  · have hplace := (hpartition.places ts.eof heof).1
    have hstop := hplace.stop
    have hstart := hpartition.eof.2.2
    have hle := hplace.ordered
    omega

/-- The items before the head and the ones from it on. -/
def Head.At (ts : Tokens) (h : Head) (past rest : List Token) : Prop :=
  ts.items = past ++ rest ∧ h.pos = past.length

theorem Head.At.getElem? {ts : Tokens} {h : Head} {past rest : List Token} (hat : h.At ts past rest) :
    ts.toList[h.pos]? = some (peek ts.eof rest) := by
  rw [Tokens.toList, hat.1, hat.2, List.append_assoc, List.getElem?_append_right (Nat.le_refl _),
    Nat.sub_self]
  cases rest <;> rfl

theorem isPrefix_of_concat {past past' : List Token} {t : Token} (h : past ++ [t] <+: past') :
    past <+: past' :=
  (List.prefix_append past [t]).trans h

theorem mem_of_concat {past past' : List Token} {t : Token} (h : past ++ [t] <+: past') : t ∈ past' :=
  h.subset List.mem_concat_self

/-- A routine tracks a reading: it ends as the reading does, or is refused as it is. -/
def Tracks {α β : Type} (tokens : List Token) (h : Head) (x : Parsing α) (y : Except Diagnostic β)
    (R : α → β → Head → Prop) : Prop :=
  match y with
  | .ok b => ∃ a h', x tokens h = (.ok a, h') ∧ R a b h'
  | .error d => ∃ h', x tokens h = (.error (.refused d), h')

section Tracks

open Parsing

variable {α β γ δ : Type} {tokens : List Token} {h h' : Head} {x : Parsing α} {y : Except Diagnostic β}
  {f : α → Parsing γ} {g : β → Except Diagnostic δ} {R : α → β → Head → Prop} {S : γ → δ → Head → Prop}

theorem Tracks.congr {x' : Parsing α} (hx : x tokens h = x' tokens h') (hf : Tracks tokens h' x' y R) :
    Tracks tokens h x y R := by
  unfold Tracks at hf ⊢
  rwa [hx]

theorem tracks_pure {a : α} {b : β} (hR : R a b h) : Tracks tokens h (pure a) (.ok b) R := ⟨a, h, rfl, hR⟩

theorem tracks_fault (cause : Cause) (t : Token) :
    Tracks tokens h (refuse cause t) (fault cause t : Except Diagnostic β) R := ⟨h, rfl⟩

theorem bind_run {a : α} (hrun : x tokens h = (.ok a, h')) : (x >>= f) tokens h = f a tokens h' := by
  simp only [Bind.bind, hrun]

theorem Tracks.bind (hx : Tracks tokens h x y R)
    (hf : ∀ a b h', R a b h' → Tracks tokens h' (f a) (g b) S) : Tracks tokens h (x >>= f) (y >>= g) S := by
  cases y with
  | error d =>
    obtain ⟨h', hrun⟩ := hx
    exact ⟨h', by simp only [Bind.bind, hrun]⟩
  | ok b =>
    obtain ⟨a, h', hrun, hR⟩ := hx
    exact (hf a b h' hR).congr (bind_run hrun)

/-- What the routine does for itself. -/
theorem Tracks.after {z : Except Diagnostic δ} {a : α} (hrun : x tokens h = (.ok a, h'))
    (hf : Tracks tokens h' (f a) z S) : Tracks tokens h (x >>= f) z S :=
  hf.congr (bind_run hrun)

theorem Tracks.weaken {R' : α → β → Head → Prop} (hx : Tracks tokens h x y R)
    (hR : ∀ a b h', R a b h' → R' a b h') : Tracks tokens h x y R' := by
  cases y with
  | error d => exact hx
  | ok b =>
    obtain ⟨a, h', hrun, hab⟩ := hx
    exact ⟨a, h', hrun, hR a b h' hab⟩

/-- What the reading does for itself. -/
theorem Tracks.map {k : β → δ} {R' : α → δ → Head → Prop} (hx : Tracks tokens h x y R)
    (hR : ∀ a b h', R a b h' → R' a (k b) h') : Tracks tokens h x (y >>= fun b => .ok (k b)) R' := by
  cases y with
  | error d => exact hx
  | ok b =>
    obtain ⟨a, h', hrun, hab⟩ := hx
    exact ⟨a, h', hrun, hR a b h' hab⟩

theorem refuse_bind (cause : Cause) (t : Token) (f : α → Parsing γ) :
    refuse cause t >>= f = refuse cause t := rfl

end Tracks

section Moves

open Parsing

variable {γ δ : Type} {ts : Tokens} {h : Head} {past rest : List Token} {t first : Token}
  {z : Except Diagnostic δ} {S : γ → δ → Head → Prop}

theorem look_at (hat : h.At ts past rest) : look ts.toList h = (.ok (peek ts.eof rest), h.note) := by
  rw [look, tokenAt, hat.getElem?]

theorem tracks_look (hat : h.At ts past rest) {f : Token → Parsing γ}
    (hf : ∀ h', h'.At ts past rest → Tracks ts.toList h' (f (peek ts.eof rest)) z S) :
    Tracks ts.toList h (look >>= f) z S :=
  .after (look_at hat) (hf h.note hat)

theorem Head.At.kind_ne_eof (hat : h.At ts past (t :: rest)) (hts : ts.Scanned) : t.kind ≠ .eof :=
  hts.items t (by rw [hat.1]; exact List.mem_append_right past List.mem_cons_self)

theorem advance_at (hts : ts.Scanned) (hat : h.At ts past (t :: rest)) :
    advance ts.toList h = (.ok t, h.note.next) := by
  rw [advance, bind_run (look_at hat), peek, if_neg (hat.kind_ne_eof hts)]
  rfl

theorem Head.At.next (hat : h.At ts past (t :: rest)) : h.note.next.At ts (past ++ [t]) rest := by
  refine ⟨by rw [hat.1, List.append_assoc, List.singleton_append], ?_⟩
  rw [List.length_append, ← hat.2]
  rfl

theorem tracks_advance (hts : ts.Scanned) (hat : h.At ts past (t :: rest)) {f : Token → Parsing γ}
    (hf : ∀ h', h'.At ts (past ++ [t]) rest → Tracks ts.toList h' (f t) z S) :
    Tracks ts.toList h (advance >>= f) z S :=
  .after (advance_at hts hat) (hf _ hat.next)

theorem tracks_expectEnd (hts : ts.Scanned) (hat : h.At ts past (t :: rest))
    (hkind : t.kind = .keyword .endWord) {f : Token → Parsing γ}
    (hf : ∀ h', h'.At ts (past ++ [t]) rest → Tracks ts.toList h' (f t) z S) :
    Tracks ts.toList h (expectEnd >>= f) z S := by
  rw [expectEnd, bind_assoc]
  refine tracks_look hat fun h' hat' => ?_
  have hend : (peek ts.eof (t :: rest)).kind = .keyword .endWord := hkind
  rw [if_pos hend]
  exact tracks_advance hts hat' hf

/-- The place of a part whose last token has just been read. -/
theorem tracks_spanFrom (hts : ts.Scanned) (hat : h.At ts (past ++ [t]) rest) (hfirst : first ∈ past ++ [t])
    {f : Span → Parsing γ}
    (hf : ∀ h', h'.At ts (past ++ [t]) rest → Tracks ts.toList h' (f (first.span.through t.span)) z S) :
    Tracks ts.toList h (spanFrom first >>= f) z S := by
  have hpos : h.pos = past.length + 1 := by
    rw [hat.2, List.length_append, List.length_singleton]
  have hget : ts.toList[past.length]? = some t := by
    rw [Tokens.toList, hat.1, List.append_assoc, List.append_assoc,
      List.getElem?_append_right (Nat.le_refl _), Nat.sub_self]
    rfl
  have hlast : last ts.toList h = (.ok t, h.note) := by
    rw [last, tokenAt, if_neg (by omega), hpos, Nat.add_sub_cancel, hget]
  have hle : first.span.start ≤ t.span.stop := by
    obtain hfirst | hfirst := List.mem_append.mp hfirst
    · have hordered := hts.ordered
      rw [hat.1, List.append_assoc, List.pairwise_append] at hordered
      exact hordered.2.2 first hfirst t List.mem_cons_self
    · rw [List.mem_singleton.mp hfirst]
      exact hts.proper t (by rw [hat.1]; simp)
  rw [spanFrom, bind_assoc]
  refine .after hlast ?_
  rw [pure_bind, if_neg (by omega)]
  exact hf h.note hat

end Moves

/-- A part that is read with its last token: what the routine has made of it, what the reading has, and that
token are related, and the head stands after it. -/
def Reads {α β : Type} {before : List Token} (ts : Tokens) (past : List Token) (R : α → β → Token → Prop)
    (a : α) (q : Reading β before) (h : Head) : Prop :=
  ∃ past' last, past <+: past' ∧ h.At ts (past' ++ [last]) q.rest ∧ R a q.value last

/-- A list of parts that is read up to the token which closes it. -/
def ReadsUpTo {α β : Type} {before : List Token} (ts : Tokens) (past : List Token) (close : β → Token)
    (R : α → β → Prop) (a : α) (q : Reading β before) (h : Head) : Prop :=
  ∃ past', past <+: past' ∧ h.At ts past' (close q.value :: q.rest) ∧ R a q.value

def stopsOf (elseAllowed : Bool) : List TokenKind :=
  if elseAllowed then [.keyword .endWord, .keyword .elseWord] else [.keyword .endWord]

/-- The statements that have been read since a token, and where they end. -/
inductive BodySince (start : List Token) (first : Token) : List Stmt → List Token → Prop
  | none : BodySince start first [] start
  | some {past : List Token} {last : Token} {stmts : List Stmt} {s : Stmt} : first ∈ past ++ [last] →
    s.span.stop = last.span.stop → BodySince start first (stmts ++ [s]) (past ++ [last])

theorem ofWord?_isSome_iff {t : Token} (ht : t.Spelled) :
    (Keyword.ofWord? t.raw).isSome ↔ ∃ k, t.kind = .keyword k := by
  constructor
  · intro h
    obtain ⟨k, hk⟩ := Option.isSome_iff_exists.mp h
    have hword : TokenKind.Spells (.keyword k) t.raw := ofWord?_eq_some hk
    have hne : TokenKind.keyword k ≠ .eof := nofun
    exact ⟨k, (TokenKind.eq_of_spells hne hword ht).symm⟩
  · rintro ⟨k, hk⟩
    rw [Token.Spelled, hk] at ht
    have hword : t.raw = k.word := ht
    rw [hword, ofWord?_word]
    rfl

/-- Between the quotes of a string token there is a text. -/
theorem slice_eq_unquoted {t : Token} (ht : t.Spelled) (hkind : t.kind = .string) :
    Parsing.slice t.raw 1 (t.raw.length - 1) = pure (unquoted t.raw) := by
  rw [Token.Spelled, hkind] at ht
  obtain ⟨text, -, hraw⟩ := ht
  have hlength : t.raw.length = text.length + 2 := by simp [hraw]
  have hstop : ((t.raw.length : Int) - 1).toNat = text.length + 1 := by omega
  rw [Parsing.slice, if_pos (by omega), hstop, hraw]
  simp [unquoted]

theorem mem_stopsOf {elseAllowed : Bool} {kind : TokenKind} : kind ∈ stopsOf elseAllowed ↔
    (kind = .keyword .endWord || (elseAllowed && kind = .keyword .elseWord)) = true := by
  cases elseAllowed <;> simp [stopsOf]

theorem bodySpan_concat (first : Token) (stmts : List Stmt) {s : Stmt} {last : Token}
    (hstop : s.span.stop = last.span.stop) :
    bodySpan first (stmts ++ [s]) = first.span.through last.span := by
  rw [bodySpan, List.getLast?_concat, Span.through, ← hstop]
  rfl

theorem BodySince.read {ts : Tokens} {h h' : Head} {start past past' rest rest' : List Token}
    {first t last : Token} {body : List Stmt} {s : Stmt} (hbody : BodySince start first body past)
    (hfirst : body = [] → first = t) (hat : h.At ts past (t :: rest)) (hpre : past <+: past')
    (hat' : h'.At ts (past' ++ [last]) rest')
    (hstop : s.span.stop = last.span.stop) : BodySince start first (body ++ [s]) (past' ++ [last]) := by
  refine .some ?_ hstop
  obtain ⟨used, rfl⟩ := hpre
  have hitems : t :: rest = used ++ (last :: rest') := by
    have heq := hat.1.symm.trans hat'.1
    simpa using heq
  cases hbody with
  | none =>
    rw [hfirst rfl]
    cases used with
    | nil =>
      rw [(List.cons.inj hitems).1]
      exact List.mem_append_right _ (List.mem_singleton_self _)
    | cons u used =>
      rw [(List.cons.inj hitems).1]
      simp
  | some hmem => exact List.mem_append_left _ (List.mem_append_left _ hmem)

namespace Routines

open Parsing

/-- The routines track the readers wherever less than so many tokens are left. -/
structure TrackBelow (ts : Tokens) (bound : Nat) (r : Routines) : Prop where
  expression : ∀ past rest h, rest.length < bound → h.At ts past rest →
    Tracks ts.toList h r.expression (readExpr ts.eof rest) (Reads ts past fun e e' _ => e = e')
  statement : ∀ past rest h, rest.length < bound → h.At ts past rest →
    Tracks ts.toList h r.statement (readStmt ts.eof rest)
      (Reads ts past fun s s' t => s = s' ∧ s.span.stop = t.span.stop)
  block : ∀ past rest h opener elseAllowed, rest.length < bound → h.At ts past rest →
    Tracks ts.toList h (r.block opener (stopsOf elseAllowed)) (readBody ts.eof opener elseAllowed rest)
      (ReadsUpTo ts past Body.close fun b b' =>
        b = b'.block (peek ts.eof rest) ∧ b'.close.kind ∈ stopsOf elseAllowed)

section Steps

variable {ts : Tokens} (hts : ts.Scanned) {h : Head} {past rest : List Token} {t : Token}

include hts

theorem tracks_expect {kind : TokenKind} {cause : Token → Cause}
    {read : (rest : List Token) → ReadResult Token rest} (hnil : read [] = fault (cause ts.eof) ts.eof)
    (hcons : ∀ t rest, read (t :: rest) =
      if t.kind = kind then .ok (.single t t rest) else fault (cause t) t)
    (hkind : kind ≠ .eof) (hat : h.At ts past rest) :
    Tracks ts.toList h (expect kind cause) (read rest)
      (Reads ts past fun t t' last => t = last ∧ t' = last) := by
  refine tracks_look hat fun h' hat' => ?_
  cases rest with
  | nil =>
    have hne : (peek ts.eof []).kind ≠ kind := by
      rw [peek, hts.eof]
      exact hkind.symm
    rw [if_neg hne, hnil]
    exact tracks_fault _ _
  | cons t rest =>
    rw [hcons]
    change Tracks ts.toList h' (if t.kind = kind then advance else refuse (cause t) t) _ _
    split
    · exact ⟨t, h'.note.next, advance_at hts hat', past, t, List.prefix_rfl, hat'.next, rfl, rfl⟩
    · exact tracks_fault _ _

theorem tracks_params (opener : Token) (rounds : Nat) {seen : List Name} {acc : List Symbol}
    (hat : h.At ts past rest) (hrounds : rest.length < rounds) :
    Tracks ts.toList h (loop (paramsRound opener) rounds (seen, acc)) (readParams opener seen rest)
      (ReadsUpTo ts past Prod.snd fun symbols q => symbols = acc ++ q.1) := by
  induction rounds generalizing past rest h seen acc with
  | zero => exact absurd hrounds (Nat.not_lt_zero _)
  | succ n ih =>
    rw [loop, paramsRound, bind_assoc]
    refine tracks_look hat fun h' hat' => ?_
    cases rest with
    | nil =>
      rw [peek, if_neg (by simp [hts.eof]), if_pos hts.eof, refuse_bind, readParams]
      exact tracks_fault _ _
    | cons t rest =>
      rw [peek]
      by_cases hclose : t.kind = .rparen
      · have hread : readParams opener seen (t :: rest) = .ok (.single ([], t) t rest) := by
          simp only [readParams, hclose]
        rw [if_pos hclose, hread]
        exact tracks_pure ⟨past, List.prefix_rfl, hat', (List.append_nil acc).symm⟩
      rw [if_neg hclose, if_neg (hat.kind_ne_eof hts)]
      by_cases hident : t.kind = .ident
      · rw [if_neg (not_not_intro hident)]
        by_cases hseen : seen.contains t.raw
        · have hread : readParams opener seen (t :: rest) = fault (.duplicateParam t.raw) t := by
            simp only [readParams, hident, hseen, if_true]
          rw [if_pos hseen, refuse_bind, hread]
          exact tracks_fault _ _
        · have hread : readParams opener seen (t :: rest) =
              readParams opener (t.raw :: seen) rest >>= fun r => .ok ((Reading.single () t rest).follow
                (r.map fun q => (⟨t.span, t.raw⟩ :: q.1, q.2))) := by
            simp only [readParams, hident, hseen]
            rfl
          rw [if_neg hseen, bind_assoc, hread]
          refine tracks_advance hts hat' fun h₁ hat₁ => ?_
          rw [List.length_cons] at hrounds
          refine (ih hat₁ (by omega)).map fun symbols q h₂ => ?_
          rintro ⟨past', hpre, hat₂, rfl⟩
          exact ⟨past', isPrefix_of_concat hpre, hat₂, by simp [Reading.follow, Reading.map]⟩
      · have hread : readParams opener seen (t :: rest) = fault (.paramNotSymbol t) t := by
          rw [readParams]
          split <;> first | contradiction | rfl
        rw [if_pos hident, refuse_bind, hread]
        exact tracks_fault _ _

variable {r : Routines} {bound : Nat}

theorem tracks_blockSpan {γ δ : Type} {first : Token} {start : List Token} {body : List Stmt}
    (hbody : BodySince start first body past) (hat : h.At ts past rest) {f : Span → Parsing γ}
    {z : Except Diagnostic δ} {S : γ → δ → Head → Prop}
    (hf : ∀ h', h'.At ts past rest → Tracks ts.toList h' (f (bodySpan first body)) z S) :
    Tracks ts.toList h (blockSpan first body >>= f) z S := by
  cases hbody with
  | none =>
    exact hf h hat
  | @some past last stmts s hfirst hstop =>
    rw [blockSpan, if_neg (by simp)]
    refine tracks_spanFrom hts hat hfirst fun h' hat' => ?_
    rw [← bodySpan_concat first stmts hstop]
    exact hf h' hat'

theorem tracks_blockOf (hstatement : ∀ past rest h, rest.length < bound → h.At ts past rest →
      Tracks ts.toList h r.statement (readStmt ts.eof rest)
        (Reads ts past fun s s' t => s = s' ∧ s.span.stop = t.span.stop))
    (opener : Token) (elseAllowed : Bool) {rounds : Nat} (hbound : rest.length < bound)
    (hrounds : rest.length < rounds) (hat : h.At ts past rest) :
    Tracks ts.toList h (r.blockOf rounds opener (stopsOf elseAllowed))
      (readBody ts.eof opener elseAllowed rest)
      (ReadsUpTo ts past Body.close fun b b' =>
        b = b'.block (peek ts.eof rest) ∧ b'.close.kind ∈ stopsOf elseAllowed) := by
  refine tracks_look hat fun h₀ hat₀ => ?_
  -- the statements before those that are still to come
  suffices hloop : ∀ {start past rest : List Token} {first : Token} {acc : List Stmt} {h : Head},
      h.At ts past rest → rest.length < bound → rest.length < rounds → BodySince start first acc past →
      (acc = [] → first = peek ts.eof rest) →
      Tracks ts.toList h (loop (r.blockRound first opener (stopsOf elseAllowed)) rounds acc)
        (readBody ts.eof opener elseAllowed rest)
        (ReadsUpTo ts past Body.close fun b b' =>
          b = .of (bodySpan first (acc ++ b'.stmts)) (acc ++ b'.stmts) ∧
            b'.close.kind ∈ stopsOf elseAllowed) from
    hloop hat₀ hbound hrounds .none fun _ => rfl
  intro start past rest first acc h hat hbound hrounds hbody hfirst
  clear * - hts hstatement hat hbound hrounds hbody hfirst
  induction rounds generalizing past rest h acc with
  | zero => exact absurd hrounds (Nat.not_lt_zero _)
  | succ n ih =>
    rw [loop, blockRound, bind_assoc, readBody.eq_def]
    refine tracks_look hat fun h' hat' => ?_
    cases rest with
    | nil =>
      have hstop : ts.eof.kind ∉ stopsOf elseAllowed := by
        rw [hts.eof, mem_stopsOf]
        simp
      rw [peek, if_neg hstop, if_pos hts.eof, refuse_bind]
      exact tracks_fault _ _
    | cons t rest =>
      rw [peek]
      dsimp only
      by_cases hstop : t.kind ∈ stopsOf elseAllowed
      · rw [if_pos hstop, if_pos (mem_stopsOf.mp hstop), bind_assoc]
        refine tracks_blockSpan hts hbody hat' fun h₁ hat₁ => ?_
        refine tracks_pure ⟨past, List.prefix_rfl, hat₁, ?_, hstop⟩
        rw [show acc ++ (Reading.single ⟨[], t⟩ t rest : Reading Body (t :: rest)).value.stmts = acc from
          List.append_nil acc]
      · rw [if_neg hstop, if_neg (hat.kind_ne_eof hts), if_neg (mt mem_stopsOf.mpr hstop), bind_assoc]
        refine (hstatement _ _ h' hbound hat').bind fun s s' h₁ => ?_
        rintro ⟨past', last, hpre, hat₁, hs, hend⟩
        have hlength := s'.shorter
        rw [List.length_cons] at hlength hbound hrounds
        have hbody' := hbody.read hfirst hat hpre hat₁ hend
        refine (ih hat₁ (by omega) (by omega) hbody' fun hnil => by simp at hnil).map fun b q h₂ => ?_
        rintro ⟨past'', hpre', hat₂, rfl, hkind⟩
        refine ⟨past'', ?_, hat₂, ?_, hkind⟩
        · exact hpre.trans (isPrefix_of_concat hpre')
        · simp [Reading.follow, Reading.map, hs]

/-- An expression that is one token. -/
theorem tracks_atom (hat : h.At ts past (t :: rest)) (e : Expr) :
    Tracks ts.toList h (atom e) (.ok (Reading.single e t rest)) (Reads ts past fun e e' _ => e = e') :=
  tracks_advance hts hat fun _ hat₁ => tracks_pure ⟨past, t, List.prefix_rfl, hat₁, rfl⟩

theorem tracks_string (hat : h.At ts past (t :: rest)) (hkind : t.kind = .string) :
    Tracks ts.toList h (string t) (.ok (Reading.single (Expr.string t.span (unquoted t.raw)) t rest))
      (Reads ts past fun e e' _ => e = e') := by
  have hspelled : t.Spelled := hts.spelled t (List.mem_append_left _ (by rw [hat.1]; simp))
  rw [string]
  refine tracks_advance hts hat fun h₁ hat₁ => ?_
  rw [slice_eq_unquoted hspelled hkind, pure_bind]
  exact tracks_pure ⟨past, t, List.prefix_rfl, hat₁, rfl⟩

theorem tracks_integer (hat : h.At ts past (t :: rest)) :
    Tracks ts.toList h (integer t) (readNumber t rest) (Reads ts past fun e e' _ => e = e') := by
  rw [integer, readNumber]
  refine tracks_advance hts hat fun h₁ hat₁ => ?_
  cases Decimal.readWord? t.raw with
  | none => exact tracks_fault _ _
  | some n => exact tracks_pure ⟨past, t, List.prefix_rfl, hat₁, rfl⟩

variable (hr : r.TrackBelow ts bound)

include hr

theorem tracks_args (opener : Token) (rounds : Nat) {acc : List Expr} (hat : h.At ts past rest)
    (hbound : rest.length < bound) (hrounds : rest.length < rounds) :
    Tracks ts.toList h (loop (r.argsRound opener) rounds acc) (readArgs ts.eof opener rest)
      (Reads ts past fun args a last => args = acc ++ a.exprs ∧ a.close = last) := by
  induction rounds generalizing past rest h acc with
  | zero => exact absurd hrounds (Nat.not_lt_zero _)
  | succ n ih =>
    rw [loop, argsRound, bind_assoc, readArgs.eq_def]
    refine tracks_look hat fun h' hat' => ?_
    cases rest with
    | nil =>
      rw [peek, if_neg (by simp [hts.eof]), if_pos hts.eof, refuse_bind]
      exact tracks_fault _ _
    | cons t rest =>
      rw [peek]
      dsimp only
      by_cases hclose : t.kind = .rparen
      · rw [if_pos hclose, if_pos hclose, bind_assoc]
        refine tracks_advance hts hat' fun h₁ hat₁ => ?_
        exact tracks_pure ⟨past, t, List.prefix_rfl, hat₁, (List.append_nil acc).symm, rfl⟩
      · rw [if_neg hclose, if_neg (hat.kind_ne_eof hts), if_neg hclose, bind_assoc]
        refine (hr.expression _ _ h' hbound hat').bind fun e e' h₁ => ?_
        rintro ⟨past', last, hpre, hat₁, he⟩
        have hlength := e'.shorter
        rw [List.length_cons] at hlength hbound hrounds
        refine (ih hat₁ (by omega) (by omega)).map fun args a h₂ => ?_
        rintro ⟨past'', last', hpre', hat₂, rfl, hlast⟩
        refine ⟨past'', last', ?_, hat₂, ?_, hlast⟩
        · exact hpre.trans (isPrefix_of_concat hpre')
        · simp [Reading.follow, Reading.map, he]

theorem tracks_callParts (hbound : rest.length < bound) {rounds : Nat} (hrounds : rest.length < rounds)
    (hat : h.At ts past (t :: rest)) :
    Tracks ts.toList h (r.callParts rounds) (readCall ts.eof t rest)
      (Reads ts (past ++ [t]) fun parts c last =>
        parts = (c.callee, c.args.exprs) ∧ c.args.close = last) := by
  rw [callParts, readCall]
  refine tracks_advance hts hat fun h₁ hat₁ => tracks_look hat₁ fun h₂ hat₂ => ?_
  by_cases hclose : (peek ts.eof rest).kind = .rparen
  · rw [if_pos hclose, if_pos hclose]
    exact tracks_look hat₂ fun h₃ _ => ⟨h₃, rfl⟩
  · rw [if_neg hclose, if_neg hclose]
    refine (hr.expression _ _ h₂ hbound hat₂).bind fun e e' h₃ => ?_
    rintro ⟨past', last, hpre, hat₃, he⟩
    have hlength := e'.shorter
    refine (tracks_args hts hr t rounds hat₃ (by omega) (by omega)).bind fun args a h₄ => ?_
    rintro ⟨past'', last', hpre', hat₄, rfl, hlast⟩
    refine tracks_pure ⟨past'', last', ?_, hat₄, ?_, hlast⟩
    · exact hpre.trans (isPrefix_of_concat hpre')
    · rw [he]
      rfl

/-- A call as an expression or a statement. -/
theorem tracks_call {α : Type} (make : Span → Expr → List Expr → α) (hbound : rest.length < bound)
    {rounds : Nat} (hrounds : rest.length < rounds) (hat : h.At ts past (t :: rest)) :
    Tracks ts.toList h
      (do
        let (callee, args) ← r.callParts rounds
        let span ← spanFrom t
        return make span callee args)
      (readCall ts.eof t rest >>= fun c => .ok ((Reading.single () t rest).follow (c.map fun c =>
        make (t.span.through c.args.close.span) c.callee c.args.exprs)))
      (Reads ts past fun e e' last => e = e' ∧
        ∃ callee args, e = make (t.span.through last.span) callee args) := by
  refine (tracks_callParts hts hr hbound hrounds hat).bind fun parts c h₁ => ?_
  rintro ⟨past', last, hpre, hat₁, rfl, hlast⟩
  have hmem : t ∈ past' ++ [last] := List.mem_append_left _ (mem_of_concat hpre)
  refine tracks_spanFrom hts hat₁ hmem fun h₂ hat₂ => tracks_pure ⟨past', last, ?_, hat₂, ?_, _, _, rfl⟩
  · exact isPrefix_of_concat hpre
  · rw [← hlast]
    rfl

/-- A body up to `end` and the word itself, for a part that starts with a token before it. -/
theorem tracks_closed {α : Type} (make : Span → Block → α) (opener : Token) {first : Token}
    (hfirst : first ∈ past) (hbound : rest.length < bound) (hat : h.At ts past rest) :
    Tracks ts.toList h
      (do
        let body ← r.block opener [.keyword .endWord]
        let _ ← expectEnd
        let span ← spanFrom first
        return make span body)
      (readBody ts.eof opener false rest)
      (Reads ts past fun a b last =>
        a = make (first.span.through last.span) (b.block (peek ts.eof rest)) ∧ b.close = last) := by
  have hblock := hr.block past rest h opener false hbound hat
  rw [← bind_pure (readBody ts.eof opener false rest)]
  refine hblock.bind fun b q h₁ => ?_
  rintro ⟨past', hpre, hat₁, hb, hkind⟩
  refine tracks_expectEnd hts hat₁ (List.mem_singleton.mp hkind) fun h₂ hat₂ => ?_
  have hmem : first ∈ past' ++ [q.value.close] := List.mem_append_left _ (hpre.subset hfirst)
  refine tracks_spanFrom hts hat₂ hmem fun h₃ hat₃ => ?_
  exact tracks_pure ⟨past', q.value.close, hpre, hat₃, by rw [hb], rfl⟩

theorem tracks_function (hbound : rest.length < bound) {rounds : Nat} (hrounds : rest.length < rounds)
    (hat : h.At ts past (t :: rest)) :
    Tracks ts.toList h (r.function rounds) (readFunction ts.eof t rest)
      (Reads ts (past ++ [t]) fun e e' _ => e = e') := by
  rw [function, readFunction]
  refine tracks_advance hts hat fun h₁ hat₁ => ?_
  have hparen : Tracks ts.toList h₁ (expect .lparen .paramsNotOpened) (readParamsOpen ts.eof rest)
      (Reads ts (past ++ [t]) fun t t' last => t = last ∧ t' = last) :=
    tracks_expect hts rfl (fun _ _ => rfl) (by decide) hat₁
  refine hparen.bind fun opener paren h₂ => ?_
  rintro ⟨past₂, last₂, hpre₂, hat₂, hopener, hparen⟩
  have hlength₂ := paren.shorter
  subst hopener
  rw [hparen]
  refine (tracks_params hts opener rounds hat₂ (by omega)).bind fun symbols params h₃ => ?_
  rintro ⟨past₃, hpre₃, hat₃, rfl⟩
  have hlength₃ := params.shorter
  refine tracks_advance hts hat₃ fun h₄ hat₄ => ?_
  have hopener : opener ∈ past₃ ++ [params.value.2] := List.mem_append_left _ (mem_of_concat hpre₃)
  refine tracks_spanFrom hts hat₄ hopener fun h₅ hat₅ => ?_
  have hpre : past ++ [t] <+: past₃ ++ [params.value.2] :=
    (hpre₂.trans (isPrefix_of_concat hpre₃)).trans (List.prefix_append _ _)
  have ht : t ∈ past₃ ++ [params.value.2] := mem_of_concat hpre
  refine (tracks_closed hts hr (fun span body => Expr.function span
    (some ⟨opener.span.through params.value.2.span, [] ++ params.value.1⟩) body) t ht (by omega)
    hat₅).map fun e b h₆ => ?_
  rintro ⟨past₆, last₆, hpre₆, hat₆, rfl, hlast₆⟩
  refine ⟨past₆, last₆, hpre.trans hpre₆, hat₆, ?_⟩
  rw [← hlast₆]
  rfl

section Statements

variable (hbound : rest.length < bound) (hat : h.At ts past (t :: rest))

include hbound hat

theorem tracks_set (hkind : t.kind = .keyword .set) :
    Tracks ts.toList h r.set (readStmt ts.eof (t :: rest))
      (Reads ts past fun s s' t => s = s' ∧ s.span.stop = t.span.stop) := by
  rw [set, readStmt.eq_def]
  simp only [hkind]
  refine tracks_advance hts hat fun h₁ hat₁ => tracks_look hat₁ fun h₂ hat₂ => ?_
  cases rest with
  | nil =>
    have hword : ¬ (Keyword.ofWord? ts.eof.raw).isSome := by
      have hspelled := hts.spelled ts.eof (List.mem_append_right _ (List.mem_singleton_self _))
      rw [ofWord?_isSome_iff hspelled, hts.eof]
      simp
    rw [peek, if_neg (by simp [hts.eof]), if_neg hword]
    exact tracks_fault _ _
  | cons u rest =>
    have hspelled : u.Spelled := hts.spelled u (List.mem_append_left _ (by rw [hat₂.1]; simp))
    rw [peek]
    by_cases hident : u.kind = .ident
    · have htarget : readTarget ts.eof (u :: rest) = .ok (.single ⟨u.span, u.raw⟩ u rest) := by
        simp only [readTarget, hident]
      rw [if_pos hident, htarget]
      rw [List.length_cons] at hbound
      refine tracks_advance hts hat₂ fun h₃ hat₃ => ?_
      change Tracks ts.toList h₃ _ (readExpr ts.eof rest >>= _) _
      refine (hr.expression _ _ h₃ (by omega) hat₃).bind fun e e' h₄ => ?_
      rintro ⟨past₄, last₄, hpre₄, hat₄, he⟩
      have hend : Tracks ts.toList h₄ (expect (.keyword .endWord) .setNotClosed) (readSetEnd ts.eof e'.rest)
          (Reads ts (past₄ ++ [last₄]) fun t t' last => t = last ∧ t' = last) :=
        tracks_expect hts rfl (fun _ _ => rfl) (by decide) hat₄
      refine hend.bind fun close c h₅ => ?_
      rintro ⟨past₅, last₅, hpre₅, hat₅, _, hc⟩
      have hpre : past ++ [t] <+: past₅ := isPrefix_of_concat (hpre₄.trans (isPrefix_of_concat hpre₅))
      have ht : t ∈ past₅ ++ [last₅] := List.mem_append_left _ (mem_of_concat hpre)
      refine tracks_spanFrom hts hat₅ ht fun h₆ hat₆ => ?_
      refine tracks_pure ⟨past₅, last₅, ?_, hat₆, ?_, rfl⟩
      · exact isPrefix_of_concat hpre
      · simp [Reading.follow, Reading.map, Reading.single, hc, he]
    · rw [if_neg hident]
      by_cases hword : (Keyword.ofWord? u.raw).isSome
      · obtain ⟨k, hk⟩ := (ofWord?_isSome_iff hspelled).mp hword
        have htarget : readTarget ts.eof (u :: rest) = fault (.keywordTarget u.raw) u := by
          simp only [readTarget, hk]
        rw [if_pos hword, htarget]
        exact tracks_fault _ _
      · have htarget : readTarget ts.eof (u :: rest) = fault (.targetNotSymbol u) u := by
          rw [readTarget]
          split
          · contradiction
          · next k hk => exact absurd ((ofWord?_isSome_iff hspelled).mpr ⟨k, hk⟩) hword
          all_goals rfl
        rw [if_neg hword, htarget]
        exact tracks_fault _ _

theorem tracks_times (hkind : t.kind = .keyword .times) :
    Tracks ts.toList h r.times (readStmt ts.eof (t :: rest))
      (Reads ts past fun s s' t => s = s' ∧ s.span.stop = t.span.stop) := by
  rw [times, readStmt.eq_def]
  simp only [hkind]
  refine tracks_advance hts hat fun h₁ hat₁ => ?_
  refine (hr.expression _ _ h₁ hbound hat₁).bind fun e e' h₂ => ?_
  rintro ⟨past₂, last₂, hpre₂, hat₂, he⟩
  have hlength := e'.shorter
  have ht : t ∈ past₂ ++ [last₂] := List.mem_append_left _ (mem_of_concat hpre₂)
  refine (tracks_closed hts hr (fun span body => Stmt.times span e body) t ht (by omega) hat₂).map
    fun s b h₃ => ?_
  rintro ⟨past₃, last₃, hpre₃, hat₃, rfl, hlast⟩
  refine ⟨past₃, last₃, ?_, hat₃, ?_, rfl⟩
  · exact (isPrefix_of_concat hpre₂).trans (isPrefix_of_concat hpre₃)
  · simp [Reading.follow, Reading.map, hlast, he]

theorem tracks_forever (hkind : t.kind = .keyword .forever) :
    Tracks ts.toList h r.forever (readStmt ts.eof (t :: rest))
      (Reads ts past fun s s' t => s = s' ∧ s.span.stop = t.span.stop) := by
  rw [forever, readStmt.eq_def]
  simp only [hkind]
  refine tracks_advance hts hat fun h₁ hat₁ => ?_
  refine (tracks_closed hts hr (fun span body => Stmt.times span (.forever t.span) body) t (by simp) hbound
    hat₁).map fun s b h₂ => ?_
  rintro ⟨past₂, last₂, hpre₂, hat₂, rfl, hlast⟩
  refine ⟨past₂, last₂, isPrefix_of_concat hpre₂, hat₂, ?_, rfl⟩
  simp [Reading.follow, Reading.map, hlast]

theorem tracks_branch (hkind : t.kind = .keyword .ifWord) :
    Tracks ts.toList h r.branch (readStmt ts.eof (t :: rest))
      (Reads ts past fun s s' t => s = s' ∧ s.span.stop = t.span.stop) := by
  rw [branch, readStmt.eq_def]
  simp only [hkind]
  refine tracks_advance hts hat fun h₁ hat₁ => ?_
  refine (hr.expression _ _ h₁ hbound hat₁).bind fun e e' h₂ => ?_
  rintro ⟨past₂, last₂, hpre₂, hat₂, he⟩
  have hlength₂ := e'.shorter
  refine (hr.block _ _ h₂ t true (by omega) hat₂).bind fun b q h₃ => ?_
  rintro ⟨past₃, hpre₃, hat₃, hb, hclose⟩
  have hlength₃ := q.shorter
  have hpre : past ++ [t] <+: past₃ := hpre₂.trans (isPrefix_of_concat hpre₃)
  have ht : t ∈ past₃ ++ [q.value.close] := List.mem_append_left _ (mem_of_concat hpre)
  have hpast : past <+: past₃ := isPrefix_of_concat hpre
  rw [elseBlock, bind_assoc]
  refine tracks_look hat₃ fun h₄ hat₄ => ?_
  rw [peek]
  by_cases helse : q.value.close.kind = .keyword .elseWord
  · rw [if_pos helse, if_pos helse, bind_assoc]
    refine tracks_advance hts hat₄ fun h₅ hat₅ => ?_
    refine (tracks_closed hts hr (fun span body => Stmt.branch span e b body) q.value.close ht (by omega)
      hat₅).map fun s b' h₆ => ?_
    rintro ⟨past₆, last₆, hpre₆, hat₆, rfl, hlast⟩
    refine ⟨past₆, last₆, hpast.trans (isPrefix_of_concat hpre₆), hat₆, ?_, rfl⟩
    simp [Reading.follow, Reading.map, hlast, he, hb]
  · have hend : q.value.close.kind = .keyword .endWord := by
      rw [mem_stopsOf] at hclose
      simpa [helse] using hclose
    rw [if_neg helse, if_neg helse, pure_bind]
    refine tracks_expectEnd hts hat₄ hend fun h₅ hat₅ => tracks_spanFrom hts hat₅ ht fun h₆ hat₆ => ?_
    refine tracks_pure ⟨past₃, q.value.close, hpast, hat₆, ?_, rfl⟩
    simp [Reading.follow, Reading.map, he, hb]

end Statements

theorem tracks_expressionOf (hbound : rest.length ≤ bound) {rounds : Nat} (hrounds : rest.length ≤ rounds)
    (hat : h.At ts past rest) :
    Tracks ts.toList h (r.expressionOf rounds) (readExpr ts.eof rest)
      (Reads ts past fun e e' _ => e = e') := by
  rw [expressionOf]
  refine tracks_look hat fun h₁ hat₁ => ?_
  cases rest with
  | nil =>
    rw [readExpr.eq_def]
    simp only [peek, hts.eof]
    exact tracks_fault _ _
  | cons t rest =>
    rw [List.length_cons] at hbound hrounds
    rw [peek]
    split
    all_goals
      rename_i hkind
      rw [readExpr.eq_def]
      simp only [hkind]
    case h_1 => exact tracks_integer hts hat₁
    case h_2 => exact tracks_string hts hat₁ hkind
    case h_8 =>
      refine (tracks_function hts hr hbound hrounds hat₁).map fun e q h₂ => ?_
      rintro ⟨past', last, hpre, hat₂, he⟩
      exact ⟨past', last, isPrefix_of_concat hpre, hat₂, he⟩
    case h_9 =>
      refine (tracks_call hts hr Expr.call hbound hrounds hat₁).weaken fun e q h₂ => ?_
      rintro ⟨past', last, hpre, hat₂, he, -⟩
      exact ⟨past', last, hpre, hat₂, he⟩
    all_goals first
      | exact tracks_atom hts hat₁ _
      | exact tracks_fault _ _

theorem tracks_statementOf (hbound : rest.length ≤ bound) {rounds : Nat} (hrounds : rest.length ≤ rounds)
    (hat : h.At ts past rest) :
    Tracks ts.toList h (r.statementOf rounds) (readStmt ts.eof rest)
      (Reads ts past fun s s' t => s = s' ∧ s.span.stop = t.span.stop) := by
  rw [statementOf]
  refine tracks_look hat fun h₁ hat₁ => ?_
  cases rest with
  | nil =>
    rw [readStmt.eq_def]
    simp only [peek, hts.eof]
    exact tracks_fault _ _
  | cons t rest =>
    rw [List.length_cons] at hbound hrounds
    rw [peek]
    split
    case h_1 hkind => exact tracks_set hts hr hbound hat₁ hkind
    case h_2 hkind => exact tracks_branch hts hr hbound hat₁ hkind
    case h_3 hkind => exact tracks_times hts hr hbound hat₁ hkind
    case h_4 hkind => exact tracks_forever hts hr hbound hat₁ hkind
    case h_5 hkind =>
      rw [readStmt.eq_def]
      simp only [hkind]
      refine (tracks_call hts hr Stmt.call hbound hrounds hat₁).weaken fun s q h₂ => ?_
      rintro ⟨past', last, hpre, hat₂, hs, callee, args, hcall⟩
      exact ⟨past', last, hpre, hat₂, hs, by rw [hcall]; rfl⟩
    all_goals
      next hkind =>
        rw [readStmt.eq_def]
        simp only [hkind]
        exact tracks_fault _ _

end Steps

/-- Routines with so many inside them track the readers if that is twice as many as tokens are left. -/
structure Track (ts : Tokens) (n : Nat) (r : Routines) : Prop where
  expression : ∀ past rest h, 2 * (rest.length + 1) ≤ n → h.At ts past rest →
    Tracks ts.toList h r.expression (readExpr ts.eof rest) (Reads ts past fun e e' _ => e = e')
  statement : ∀ past rest h, 2 * (rest.length + 1) ≤ n → h.At ts past rest →
    Tracks ts.toList h r.statement (readStmt ts.eof rest)
      (Reads ts past fun s s' t => s = s' ∧ s.span.stop = t.span.stop)
  block : ∀ past rest h opener elseAllowed, 2 * (rest.length + 1) < n → h.At ts past rest →
    Tracks ts.toList h (r.block opener (stopsOf elseAllowed)) (readBody ts.eof opener elseAllowed rest)
      (ReadsUpTo ts past Body.close fun b b' =>
        b = b'.block (peek ts.eof rest) ∧ b'.close.kind ∈ stopsOf elseAllowed)

theorem Track.below {ts : Tokens} {n bound : Nat} {r : Routines} (h : r.Track ts n) (hbound : 2 * bound < n) :
    r.TrackBelow ts bound where
  expression past rest h' hlt := h.expression past rest h' (by omega)
  statement past rest h' hlt := h.statement past rest h' (by omega)
  block past rest h' opener elseAllowed hlt := h.block past rest h' opener elseAllowed (by omega)

theorem Track.step {ts : Tokens} (hts : ts.Scanned) {n : Nat} (h : (upTo n).Track ts n) :
    (upTo (n + 1)).Track ts (n + 1) where
  expression past rest h' hn hat :=
    tracks_expressionOf hts (h.below (by omega)) (Nat.le_refl _) (by omega) hat
  statement past rest h' hn hat :=
    tracks_statementOf hts (h.below (by omega)) (Nat.le_refl _) (by omega) hat
  block past rest h' opener elseAllowed hn hat := by
    refine tracks_blockOf hts (fun past' rest' h'' hlt => h.statement past' rest' h'' ?_) opener elseAllowed
      (Nat.lt_succ_self _) (by omega) hat
    omega

theorem upTo_track {ts : Tokens} (hts : ts.Scanned) (n : Nat) : (upTo n).Track ts n := by
  induction n with
  | zero =>
    refine ⟨fun past rest h hn => ?_, fun past rest h hn => ?_, fun past rest h opener elseAllowed hn => ?_⟩
    · omega
    · omega
    · omega
  | succ n ih => exact ih.step hts

/-- The place of a program. Without a token it is where the text ends. -/
theorem tracks_programSpan {ts : Tokens} (hts : ts.Scanned) {γ δ : Type} {h : Head} {past : List Token}
    {body : List Stmt} (hbody : BodySince [] (peek ts.eof ts.items) body past) (hat : h.At ts past [])
    {f : Span → Parsing γ} {z : Except Diagnostic δ} {S : γ → δ → Head → Prop}
    (hf : ∀ h', Tracks ts.toList h' (f (bodySpan (peek ts.eof ts.items) body)) z S) :
    Tracks ts.toList h (spanFrom (peek ts.eof ts.items) >>= f) z S := by
  cases hbody with
  | none =>
    have hitems : ts.items = [] := hat.1
    have hlast : last ts.toList h = (.ok ts.eof, h.note) := by
      have hpos : h.pos = 0 := hat.2
      have hget := hat.getElem?
      rw [hpos] at hget
      rw [last, tokenAt, if_pos hpos, hget]
      rfl
    rw [hitems, peek] at hf ⊢
    rw [spanFrom, bind_assoc]
    refine .after hlast ?_
    rw [pure_bind, if_neg (by rw [hts.empty]; exact Int.lt_irrefl _), hts.empty]
    exact hf h.note
  | @some past last stmts s hfirst hstop =>
    refine tracks_spanFrom hts hat hfirst fun h' _ => ?_
    rw [← bodySpan_concat _ stmts hstop]
    exact hf h'

theorem tracks_program {ts : Tokens} (hts : ts.Scanned) {n : Nat} (hn : 2 * (ts.items.length + 1) ≤ n) :
    Tracks ts.toList ⟨0, []⟩ ((upTo n).program n) (Program.ofTokens ts) fun p p' _ => p = p' := by
  have hat : Head.At ts ⟨0, []⟩ [] ts.items := ⟨rfl, rfl⟩
  rw [program, Program.ofTokens]
  refine tracks_look hat fun h₁ hat₁ => ?_
  -- a round begins where the last of the statements so far has ended, or at the first token
  have hloop : ∀ {rounds : Nat} {past rest : List Token} {acc : List Stmt} {h : Head},
      h.At ts past rest → rest.length < rounds → BodySince [] (peek ts.eof ts.items) acc past →
      (acc = [] → rest = ts.items) →
      Tracks ts.toList h (loop (upTo n).programRound rounds acc) (readStmts ts.eof rest) fun body body' h' =>
        body = acc ++ body' ∧ ∃ past', h'.At ts past' [] ∧
          BodySince [] (peek ts.eof ts.items) body past' := by
    intro rounds
    induction rounds with
    | zero => exact fun _ hrounds => absurd hrounds (Nat.not_lt_zero _)
    | succ rounds ih =>
      intro past rest acc h hat hrounds hbody hfirst
      rw [loop, programRound, bind_assoc]
      refine tracks_look hat fun h' hat' => ?_
      cases rest with
      | nil =>
        rw [peek, if_pos hts.eof, readStmts]
        exact tracks_pure ⟨(List.append_nil acc).symm, past, hat', hbody⟩
      | cons t rest =>
        have hlength : (t :: rest).length ≤ ts.items.length := by
          rw [hat.1, List.length_append]
          omega
        rw [peek, if_neg (hat.kind_ne_eof hts), bind_assoc, readStmts]
        refine ((upTo_track hts n).statement _ _ h' (by omega) hat').bind fun s s' h₂ => ?_
        rintro ⟨past', last, hpre, hat₂, hs, hend⟩
        have hshorter := s'.shorter
        rw [List.length_cons] at hshorter hrounds
        have hbody' := hbody.read (fun hnil => by rw [← hfirst hnil]; rfl) hat hpre hat₂ hend
        refine (ih hat₂ (by omega) hbody' fun hnil => by simp at hnil).map fun body body' h₃ => ?_
        rintro ⟨rfl, past'', hat₃, hbody''⟩
        exact ⟨by simp [hs], past'', hat₃, hbody''⟩
  refine (hloop hat₁ (by omega) .none fun _ => rfl).bind fun body body' h₂ => ?_
  rintro ⟨rfl, past', hat₂, hbody⟩
  exact tracks_programSpan hts hbody hat₂ fun _ => tracks_pure rfl

end Routines

theorem IsTape.of_scanned {ts : Tokens} (hts : ts.Scanned) : IsTape ts.toList :=
  ⟨ts.items, ts.eof, rfl, hts.eof, hts.items⟩

theorem Quoted.of_scanned {ts : Tokens} (hts : ts.Scanned) : Quoted ts.toList := by
  intro t ht hkind
  have hspelled := hts.spelled t ht
  rw [Token.Spelled, hkind] at hspelled
  obtain ⟨text, -, hraw⟩ := hspelled
  simp [hraw]

/-- Wherever a routine is called, on any tokens with one end of input after them, the head stays on the
tokens and goes forward only; with every statement and expression it moves on, and no loop goes on for more
rounds than twice as many as tokens are left. So the tokens of any text are read to an end, with its tree or
the reason it is refused for, and the quotes of a string are always there to be taken off. -/
theorem heads_stay_on_tokens_and_move_on :
    (∀ tokens, IsTape tokens → ∀ n, (Routines.upTo n).Proceeds tokens n ∧
      Goes tokens (2 * tokens.length ≤ n) ⟨0, []⟩ ((Routines.upTo n).program n) fun _ h =>
        h.pos + 1 = tokens.length) ∧
    ∀ source ts, scan source = .ok ts → IsTape ts.toList ∧ Quoted ts.toList ∧
      ∀ n, 2 * ts.toList.length ≤ n → ((Routines.upTo n).program n ts.toList ⟨0, []⟩).1 =
        (Program.read source).mapError Halt.refused := by
  refine ⟨fun tokens htape n => ⟨Routines.upTo_proceeds htape n, ?_⟩, fun source ts hscan => ?_⟩
  · have hw : Head.Within tokens ⟨0, []⟩ := by
      obtain ⟨items, eof, rfl, -⟩ := htape
      exact ⟨by simp, List.pairwise_singleton _ _⟩
    exact Routines.goes_program htape n hw
  · have hts := scan_scanned hscan
    refine ⟨.of_scanned hts, .of_scanned hts, fun n hn => ?_⟩
    rw [Tokens.toList, List.length_append, List.length_singleton] at hn
    have htracks := Routines.tracks_program hts hn
    have hread : Program.read source = Program.ofTokens ts := by
      rw [Program.read, hscan]
      rfl
    rw [hread]
    cases hprogram : Program.ofTokens ts with
    | error d =>
      rw [hprogram] at htracks
      obtain ⟨h', hrun⟩ := htracks
      rw [hrun]
      rfl
    | ok p =>
      rw [hprogram] at htracks
      obtain ⟨p', h', hrun, rfl⟩ := htracks
      rw [hrun]
      rfl

/-- A call that is not closed, in an assignment that is not closed either: the head comes to the end of input
inside of both, from where it cannot move, and is refused there. -/
theorem heads_stay_on_tokens_and_move_on_unclosed :
    ∃ tokens, scan (utf8 "set x (f") = .ok tokens ∧
      ((Routines.upTo 10).program 10 tokens.toList ⟨0, []⟩).1 =
        .error (.refused ⟨.unterminatedCall, ⟨6, 7, 1, 7⟩⟩) ∧
      (Routines.upTo 10).Proceeds tokens.toList 10 := by
  have hscan : scan (utf8 "set x (f") = .ok ⟨[⟨.keyword .set, utf8 "set", ⟨0, 3, 1, 1⟩⟩,
      ⟨.ident, utf8 "x", ⟨4, 5, 1, 5⟩⟩, ⟨.lparen, utf8 "(", ⟨6, 7, 1, 7⟩⟩, ⟨.ident, utf8 "f", ⟨7, 8, 1, 8⟩⟩],
      ⟨.eof, [], ⟨8, 8, 1, 9⟩⟩⟩ := by
    cbv
  have hread : Program.read (utf8 "set x (f") = .error ⟨.unterminatedCall, ⟨6, 7, 1, 7⟩⟩ := by cbv
  obtain ⟨htape, -, hprogram⟩ := heads_stay_on_tokens_and_move_on.2 _ _ hscan
  refine ⟨_, hscan, ?_, (heads_stay_on_tokens_and_move_on.1 _ htape 10).1⟩
  rw [hprogram 10 (by decide), hread]
  rfl

end Stepwise
