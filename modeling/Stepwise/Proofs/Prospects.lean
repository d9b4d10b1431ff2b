import Stepwise.Proofs.Agenda
import Stepwise.Proofs.Partition

/-! What tokens can become. An agenda can always be gone through to its end, so the tokens it is left by
begin a program; and tokens that it has no use for begin none. The places of tokens do not matter in
this. -/

namespace Stepwise

/-- A token without its place. -/
def Token.bare (t : Token) : Token := { t with span := .nowhere }

theorem Token.bare_eq_iff {t t' : Token} : t.bare = t'.bare ↔ t.kind = t'.kind ∧ t.raw = t'.raw := by
  simp [bare]

/-- Tokens that are, up to their places, those of a text that can be read. -/
def Accepted (ts : List Token) : Prop :=
  ∃ source found p, scan source = .ok found ∧ Program.read source = .ok p ∧
    found.items.map Token.bare = ts.map Token.bare

/-- Tokens that a text which can be read begins with. -/
def Viable (ts : List Token) : Prop := ∃ more, Accepted (ts ++ more)

namespace Goal

/-- The token that opened a part which needs closing. -/
def opener? : Goal → Option Token
  | .body opener _ | .args opener | .params opener _ => some opener
  | .program | .stmt | .expr | .callee _ | .target | .setEnd | .paramsOpen => none

/-- Parts that are the same but for the tokens that opened them, which are related. -/
inductive Alike (R : Token → Token → Prop) : Goal → Goal → Prop
  | program : Alike R .program .program
  | body {o o' : Token} {elseAllowed : Bool} : R o o' → Alike R (.body o elseAllowed) (.body o' elseAllowed)
  | stmt : Alike R .stmt .stmt
  | expr : Alike R .expr .expr
  | callee {o o' : Token} : R o o' → Alike R (.callee o) (.callee o')
  | args {o o' : Token} : R o o' → Alike R (.args o) (.args o')
  | target : Alike R .target .target
  | setEnd : Alike R .setEnd .setEnd
  | paramsOpen : Alike R .paramsOpen .paramsOpen
  | params {o o' : Token} {seen : List Name} : R o o' → Alike R (.params o seen) (.params o' seen)

end Goal

abbrev Agenda.Alike (R : Token → Token → Prop) : Agenda → Agenda → Prop := List.Forall₂ (Goal.Alike R)

section Alike

variable {R : Token → Token → Prop} {t t' : Token} {g g' : Goal} {gs gs' hs : Agenda}

theorem Goal.ofExpr_alike (hbare : t.bare = t'.bare) (ht : R t t') (h : Goal.ofExpr t = .ok gs) :
    ∃ gs', Goal.ofExpr t' = .ok gs' ∧ Agenda.Alike R gs gs' := by
  obtain ⟨hkind, hraw⟩ := Token.bare_eq_iff.mp hbare
  rw [ofExpr] at h
  rw [ofExpr, ← hkind, ← hraw]
  split at h
  case h_1 =>
    split at h
    · cases h
      exact ⟨_, rfl, .nil⟩
    · cases h
  case h_8 =>
    cases h
    exact ⟨_, rfl, .cons .paramsOpen (.cons (.body ht) .nil)⟩
  case h_9 =>
    cases h
    exact ⟨_, rfl, .cons (.callee ht) (.cons (.args ht) .nil)⟩
  all_goals first
    | cases h; exact ⟨_, rfl, .nil⟩
    | cases h

theorem Goal.ofStmt_alike (hbare : t.bare = t'.bare) (ht : R t t') (h : Goal.ofStmt t = .ok gs) :
    ∃ gs', Goal.ofStmt t' = .ok gs' ∧ Agenda.Alike R gs gs' := by
  obtain ⟨hkind, -⟩ := Token.bare_eq_iff.mp hbare
  rw [ofStmt] at h
  rw [ofStmt, ← hkind]
  split at h
  case h_1 =>
    cases h
    exact ⟨_, rfl, .cons .target (.cons .expr (.cons .setEnd .nil))⟩
  case h_2 =>
    cases h
    exact ⟨_, rfl, .cons .expr (.cons (.body ht) .nil)⟩
  case h_3 =>
    cases h
    exact ⟨_, rfl, .cons .expr (.cons (.body ht) .nil)⟩
  case h_4 =>
    cases h
    exact ⟨_, rfl, .cons (.body ht) .nil⟩
  case h_5 =>
    cases h
    exact ⟨_, rfl, .cons (.callee ht) (.cons (.args ht) .nil)⟩
  all_goals cases h

theorem Agenda.alike_kept {x x' : Except Diagnostic Agenda}
    (hx : ∀ new, x = .ok new → ∃ new', x' = .ok new' ∧ Agenda.Alike R new new') (hg : Goal.Alike R g g')
    (h : x.map (· ++ [g]) = .ok gs) : ∃ gs', x'.map (· ++ [g']) = .ok gs' ∧ Agenda.Alike R gs gs' := by
  cases x with
  | error d => cases h
  | ok new =>
    cases h
    obtain ⟨new', rfl, hnew⟩ := hx new rfl
    exact ⟨_, rfl, List.rel_append hnew (.cons hg .nil)⟩

theorem Goal.take_alike (hbare : t.bare = t'.bare) (ht : R t t') (hg : Goal.Alike R g g')
    (h : g.take t = .ok gs) : ∃ gs', g'.take t' = .ok gs' ∧ Agenda.Alike R gs gs' := by
  have hexpr (new : Agenda) (hnew : ofExpr t = .ok new) := ofExpr_alike hbare ht hnew
  have hstmt (new : Agenda) (hnew : ofStmt t = .ok new) := ofStmt_alike hbare ht hnew
  obtain ⟨hkind, hraw⟩ := Token.bare_eq_iff.mp hbare
  cases hg with
  | program => exact Agenda.alike_kept hstmt .program h
  | body ho =>
    rw [take] at h
    rw [take, ← hkind]
    split_ifs at h ⊢
    · cases h
      exact ⟨_, rfl, .nil⟩
    · cases h
      exact ⟨_, rfl, .cons (.body ht) .nil⟩
    · exact Agenda.alike_kept hstmt (.body ho) h
  | stmt => exact hstmt gs h
  | expr => exact hexpr gs h
  | callee ho =>
    rw [take] at h
    rw [take, ← hkind]
    split_ifs at h ⊢
    exact hexpr gs h
  | args ho =>
    rw [take] at h
    rw [take, ← hkind]
    split_ifs at h ⊢
    · cases h
      exact ⟨_, rfl, .nil⟩
    · exact Agenda.alike_kept hexpr (.args ho) h
  | target =>
    rw [take] at h
    rw [take, ← hkind]
    split at h
    · cases h
      exact ⟨_, rfl, .nil⟩
    all_goals cases h
  | setEnd =>
    rw [take] at h
    rw [take, ← hkind]
    split_ifs at h ⊢
    · cases h
      exact ⟨_, rfl, .nil⟩
    · cases h
  | paramsOpen =>
    rw [take] at h
    rw [take, ← hkind]
    split_ifs at h ⊢
    · cases h
      exact ⟨_, rfl, .cons (.params ht) .nil⟩
    · cases h
  | params ho =>
    rw [take] at h
    rw [take, ← hkind, ← hraw]
    split at h
    · cases h
      exact ⟨_, rfl, .nil⟩
    · split_ifs at h ⊢
      · cases h
      · cases h
        exact ⟨_, rfl, .cons (.params ho) .nil⟩
    all_goals cases h

theorem Agenda.after_alike (hR : ∀ t t', R t t' → t.bare = t'.bare) {us us' : List Token}
    (hus : List.Forall₂ R us us') (hgs : Agenda.Alike R gs gs') (h : gs.after us = .ok hs) :
    ∃ hs', gs'.after us' = .ok hs' ∧ Agenda.Alike R hs hs' := by
  induction hus generalizing gs gs' with
  | nil =>
    rw [after_nil] at h
    cases h
    exact ⟨gs', after_nil, hgs⟩
  | cons ht hus ih =>
    cases hgs with
    | nil => cases h
    | cons hg hgs =>
      rw [after_cons] at h
      obtain ⟨new, hnew, h⟩ := except_bind_eq_ok h
      obtain ⟨new', hnew', halike⟩ := Goal.take_alike (hR _ _ ht) ht hg hnew
      rw [after_cons, hnew']
      exact ih (List.rel_append halike hgs) h

end Alike

theorem Agenda.after_concat {gs hs : Agenda} {us : List Token} {t : Token}
    (h : gs.after (us ++ [t]) = .ok hs) :
    ∃ g later new, gs.after us = .ok (g :: later) ∧ g.take t = .ok new ∧ hs = new ++ later := by
  rw [after_append] at h
  obtain ⟨mid, hmid, h⟩ := except_bind_eq_ok h
  cases mid with
  | nil => cases h
  | cons g later =>
    obtain ⟨new, hnew, h⟩ := except_bind_eq_ok h
    rw [after_nil] at h
    exact ⟨g, later, new, hmid, hnew, (Except.ok.inj h).symm⟩

/-- The kinds of tokens that open a part which needs closing. -/
def TokenKind.opens : TokenKind → Bool
  | .lparen | .keyword .ifWord | .keyword .elseWord | .keyword .times | .keyword .forever
  | .keyword .function => true
  | _ => false

/-- What one token can put on an agenda. Only at the front it asks for what is called. -/
structure Agenda.OpenedBy (t : Token) (made : Agenda) : Prop where
  program : .program ∉ made
  opener : ∀ g ∈ made, ∀ o, g.opener? = some o → o = t ∧ t.kind.opens
  front : ∀ o, made.head? = some (.callee o) → o = t ∧ t.kind = .lparen
  tail : ∀ o, .callee o ∉ made.tail

/-- What can stay on an agenda of a part that has got one of its tokens. -/
inductive Goal.Keeps : Goal → Agenda → Prop
  | done {g : Goal} : g ≠ .program → g.Keeps []
  | program : Keeps .program [.program]
  | body (o : Token) (elseAllowed : Bool) : Keeps (.body o elseAllowed) [.body o elseAllowed]
  | args (o : Token) : Keeps (.args o) [.args o]
  | params (o : Token) (seen seen' : List Name) : Keeps (.params o seen) [.params o seen']

section Steps

variable {t o : Token} {g g' : Goal} {gs new later : Agenda} {us : List Token}

theorem Agenda.openedBy_nil (t : Token) : Agenda.OpenedBy t [] := ⟨by simp, by simp, by simp, by simp⟩

theorem Agenda.openedBy_call (h : t.kind = .lparen) : Agenda.OpenedBy t [.callee t, .args t] := by
  have hopens : t.kind.opens := by rw [h]; rfl
  exact ⟨by simp, by simp [Goal.opener?, hopens], by simp [h], by simp⟩

theorem Agenda.openedBy_body (gs : Agenda) {elseAllowed : Bool} (h : t.kind.opens)
    (hgs : gs ∈ ([[], [.expr], [.paramsOpen]] : List Agenda)) :
    Agenda.OpenedBy t (gs ++ [.body t elseAllowed]) := by
  simp only [List.mem_cons, List.not_mem_nil, or_false] at hgs
  obtain rfl | rfl | rfl := hgs
  all_goals exact ⟨by simp, by simp [Goal.opener?, h], by simp, by simp⟩

theorem Goal.ofExpr_opens (h : Goal.ofExpr t = .ok gs) : Agenda.OpenedBy t gs := by
  rw [ofExpr] at h
  split at h
  case h_1 =>
    split at h
    · cases h
      exact Agenda.openedBy_nil t
    · cases h
  case h_8 hfunction =>
    cases h
    exact Agenda.openedBy_body [.paramsOpen] (by rw [hfunction]; rfl) (by simp)
  case h_9 hopen =>
    cases h
    exact Agenda.openedBy_call hopen
  all_goals first
    | cases h; exact Agenda.openedBy_nil t
    | cases h

theorem Goal.ofStmt_opens (h : Goal.ofStmt t = .ok gs) : Agenda.OpenedBy t gs := by
  rw [ofStmt] at h
  split at h
  case h_1 =>
    cases h
    exact ⟨by simp, by simp [opener?], by simp, by simp⟩
  case h_2 hif =>
    cases h
    exact Agenda.openedBy_body [.expr] (by rw [hif]; rfl) (by simp)
  case h_3 htimes =>
    cases h
    exact Agenda.openedBy_body [.expr] (by rw [htimes]; rfl) (by simp)
  case h_4 hforever =>
    cases h
    exact Agenda.openedBy_body [] (by rw [hforever]; rfl) (by simp)
  case h_5 hopen =>
    cases h
    exact Agenda.openedBy_call hopen
  all_goals cases h

theorem Agenda.kept_cases {x : Except Diagnostic Agenda} (hx : ∀ made, x = .ok made → OpenedBy t made)
    (hg : g.Keeps [g]) (h : x.map (· ++ [g]) = .ok new) :
    ∃ made kept, new = made ++ kept ∧ OpenedBy t made ∧ g.Keeps kept := by
  cases x with
  | error d => cases h
  | ok made =>
    cases h
    exact ⟨made, [g], rfl, hx made rfl, hg⟩

/-- One token of a part: what it puts on the agenda, and what stays on it of the part. -/
theorem Goal.take_cases (h : g.take t = .ok new) :
    ∃ made kept, new = made ++ kept ∧ Agenda.OpenedBy t made ∧ g.Keeps kept := by
  have hexpr (made : Agenda) (hmade : ofExpr t = .ok made) := ofExpr_opens hmade
  have hstmt (made : Agenda) (hmade : ofStmt t = .ok made) := ofStmt_opens hmade
  have hdone (hmade : Agenda.OpenedBy t new) (hg : g ≠ .program) :
      ∃ made kept, new = made ++ kept ∧ Agenda.OpenedBy t made ∧ g.Keeps kept :=
    ⟨new, [], (List.append_nil new).symm, hmade, .done hg⟩
  have hnil : Agenda.OpenedBy t [] := Agenda.openedBy_nil t
  -- the program, bodies and arguments go on after their tokens, other parts are done with one
  cases g with
  | program => exact Agenda.kept_cases hstmt .program h
  | body opener elseAllowed =>
    rw [take] at h
    split_ifs at h with hend helse
    · cases h
      exact hdone hnil nofun
    · cases h
      have hopens : t.kind.opens := by rw [helse.2]; rfl
      exact hdone (Agenda.openedBy_body [] hopens (by simp)) nofun
    · exact Agenda.kept_cases hstmt (.body opener elseAllowed) h
  | stmt => exact hdone (hstmt new h) nofun
  | expr => exact hdone (hexpr new h) nofun
  | callee opener =>
    rw [take] at h
    split_ifs at h
    exact hdone (hexpr new h) nofun
  | args opener =>
    rw [take] at h
    split_ifs at h
    · cases h
      exact hdone hnil nofun
    · exact Agenda.kept_cases hexpr (.args opener) h
  | target =>
    rw [take] at h
    split at h
    · cases h
      exact hdone hnil nofun
    all_goals cases h
  | setEnd =>
    rw [take] at h
    split_ifs at h
    · cases h
      exact hdone hnil nofun
    · cases h
  | paramsOpen =>
    rw [take] at h
    split_ifs at h with hopen
    · cases h
      have hopens : t.kind.opens := by rw [hopen]; rfl
      exact hdone ⟨by simp, by simp [opener?, hopens], by simp, by simp⟩ nofun
    · cases h
  | params opener seen =>
    rw [take] at h
    split at h
    · cases h
      exact hdone hnil nofun
    · split_ifs at h
      · cases h
      · cases h
        exact ⟨[], _, rfl, hnil, .params opener seen _⟩
    all_goals cases h

theorem Goal.Keeps.opener?_eq {kept : Agenda} (h : g.Keeps kept) :
    ∀ k ∈ kept, k.opener? = g.opener? := by
  cases h <;> simp [opener?]

theorem Goal.Keeps.callee_notMem {kept : Agenda} (h : g.Keeps kept) : .callee o ∉ kept := by
  cases h <;> simp

theorem Goal.Keeps.program_cases {kept : Agenda} (h : g.Keeps kept) :
    g = .program ∧ kept = [.program] ∨ g ≠ .program ∧ .program ∉ kept := by
  cases h with
  | done hg => exact .inr ⟨hg, List.not_mem_nil⟩
  | program => exact .inl ⟨rfl, rfl⟩
  | body | args | params => exact .inr ⟨nofun, by simp⟩

/-- Agendas that tokens can lead to: the rest of the program comes last, every part was opened by one of
the tokens, and what is called is asked for only right after its parenthesis. -/
structure Agenda.Sound (us : List Token) (gs : Agenda) : Prop where
  bottom : ∃ above, gs = above ++ [.program] ∧ .program ∉ above
  opener : ∀ g ∈ gs, ∀ o, g.opener? = some o → o ∈ us ∧ o.kind.opens
  front : ∀ o, gs.head? = some (.callee o) → us.getLast? = some o ∧ o.kind = .lparen
  tail : ∀ o, .callee o ∉ gs.tail

theorem Agenda.Sound.step (h : Agenda.Sound us (g :: later)) (hnew : g.take t = .ok new) :
    Agenda.Sound (us ++ [t]) (new ++ later) := by
  obtain ⟨made, kept, rfl, hmade, hkept⟩ := Goal.take_cases hnew
  have hrest (o : Token) : .callee o ∉ kept ++ later := by
    rw [List.mem_append, not_or]
    exact ⟨hkept.callee_notMem, h.tail o⟩
  rw [List.append_assoc]
  refine ⟨?_, fun k hk o ho => ?_, fun o ho => ?_, fun o ho => ?_⟩
  · obtain ⟨above, habove, hprogram⟩ := h.bottom
    obtain ⟨rfl, rfl⟩ | ⟨hg, hprogram'⟩ := hkept.program_cases
    · cases above with
      | nil =>
        obtain ⟨-, rfl⟩ := List.cons.inj habove
        exact ⟨made, rfl, hmade.program⟩
      | cons a above => exact absurd (List.mem_cons.mpr (.inl (List.cons.inj habove).1)) hprogram
    · cases above with
      | nil => exact absurd (List.cons.inj habove).1 hg
      | cons a above =>
        obtain ⟨rfl, rfl⟩ := List.cons.inj habove
        refine ⟨made ++ (kept ++ above), by simp, ?_⟩
        rw [List.mem_append, List.mem_append, not_or, not_or]
        exact ⟨hmade.program, hprogram', fun hmem => hprogram (List.mem_cons_of_mem _ hmem)⟩
  · have hold {k : Goal} (hk : k ∈ g :: later) (ho : k.opener? = some o) :
        o ∈ us ++ [t] ∧ o.kind.opens :=
      ⟨List.mem_append_left _ (h.opener k hk o ho).1, (h.opener k hk o ho).2⟩
    obtain hk | hk := List.mem_append.mp hk
    · obtain ⟨rfl, hopens⟩ := hmade.opener k hk o ho
      exact ⟨List.mem_append_right _ (List.mem_singleton_self _), hopens⟩
    · obtain hk | hk := List.mem_append.mp hk
      · exact hold List.mem_cons_self (hkept.opener?_eq k hk ▸ ho)
      · exact hold (List.mem_cons_of_mem _ hk) ho
  · cases made with
    | nil => exact absurd (List.mem_of_mem_head? ho) (hrest o)
    | cons m made =>
      obtain ⟨rfl, hkind⟩ := hmade.front o ho
      exact ⟨List.getLast?_concat, hkind⟩
  · cases made with
    | nil => exact hrest o (List.mem_of_mem_tail ho)
    | cons m made =>
      obtain ho | ho := List.mem_append.mp ho
      · exact hmade.tail o ho
      · exact hrest o ho

theorem Agenda.sound_after (h : after [.program] us = .ok gs) : Agenda.Sound us gs := by
  induction us using List.reverseRecOn generalizing gs with
  | nil =>
    rw [after_nil] at h
    cases h
    exact ⟨⟨[], rfl, List.not_mem_nil⟩, by simp [Goal.opener?], by simp, by simp⟩
  | append_singleton us t ih =>
    obtain ⟨g, later, new, hbefore, hnew, rfl⟩ := after_concat h
    exact (ih hbefore).step hnew

end Steps

def Keyword.token (k : Keyword) : Token := ⟨.keyword k, k.word, .nowhere⟩

/-- Tokens that a part can consist of, or the rest of it. -/
def Goal.wanted : Goal → List Token
  | .program => []
  | .body _ _ | .setEnd => [Keyword.endWord.token]
  | .stmt => [Keyword.forever.token, Keyword.endWord.token]
  | .expr | .callee _ => [Keyword.null.token]
  | .args _ | .params _ _ => [⟨.rparen, [41], .nowhere⟩]
  | .target => [⟨.ident, utf8 "x", .nowhere⟩]
  | .paramsOpen => [⟨.lparen, [40], .nowhere⟩, ⟨.rparen, [41], .nowhere⟩]

/-- A token as scans leave them. -/
def Token.IsWritten (t : Token) : Prop := t.kind ≠ .eof ∧ t.Spelled

theorem Goal.wanted_isWritten (g : Goal) : ∀ t ∈ g.wanted, t.IsWritten := by
  cases g with
  | program => exact fun t ht => absurd ht List.not_mem_nil
  | target =>
    intro t ht
    obtain rfl := List.mem_singleton.mp ht
    have hsymbol : isSymbol (utf8 "x") := by decide
    exact ⟨nofun, hsymbol⟩
  | body | stmt | expr | callee | args | setEnd | paramsOpen | params =>
    simp [wanted, Token.IsWritten, Keyword.token, Token.Spelled, TokenKind.Spells]

theorem Agenda.after_wanted {g : Goal} (hg : g ≠ .program) : after [g] g.wanted = .ok [] := by
  cases g with
  | program => exact absurd rfl hg
  | body | stmt | expr | callee | args | target | setEnd | paramsOpen | params => rfl

/-- Every agenda of a program can be gone through. -/
theorem Agenda.after_allWanted (gs : Agenda) (h : Goal.program ∉ gs) :
    after (gs ++ [.program]) (gs.flatMap Goal.wanted) = .ok [.program] := by
  induction gs with
  | nil => rfl
  | cons g gs ih =>
    rw [List.mem_cons, not_or] at h
    have hfirst := after_later (after_wanted (Ne.symm h.1)) (gs ++ [.program])
    rw [List.flatMap_cons, after_append]
    rw [List.singleton_append] at hfirst
    rw [List.cons_append, hfirst]
    exact ih h.2

theorem exists_spaced (raws : List Bytes) : ∃ text, SpacedAfter raws text := by
  induction raws with
  | nil => exact ⟨[], .inl .nil⟩
  | cons raw raws ih =>
    obtain ⟨rest, hrest⟩ := ih
    exact ⟨_, [32], rest, nofun, .blank rfl .nil, rfl, hrest⟩

/-- The kind of a token can be told from its text. -/
theorem map_bare_of_map_raw {ts us : List Token} (hts : ∀ t ∈ ts, t.Spelled) (hus : ∀ t ∈ us, t.IsWritten)
    (h : ts.map Token.raw = us.map Token.raw) : ts.map Token.bare = us.map Token.bare := by
  induction us generalizing ts with
  | nil => rw [List.map_eq_nil_iff.mp h]
  | cons u us ih =>
    obtain ⟨t, ts, rfl, hraw, hraws⟩ := List.map_eq_cons_iff.mp h
    rw [List.forall_mem_cons] at hts hus
    have hspells : t.kind.Spells u.raw := hraw ▸ hts.1
    have hkind : u.kind = t.kind := TokenKind.eq_of_spells hus.1.1 hus.1.2 hspells
    rw [List.map_cons, List.map_cons, ih hts.2 hus.2 hraws,
      Token.bare_eq_iff.mpr ⟨hkind.symm, hraw⟩]

theorem exists_scan {us : List Token} (h : ∀ t ∈ us, t.IsWritten) :
    ∃ source found, scan source = .ok found ∧ found.items.map Token.bare = us.map Token.bare := by
  obtain ⟨text, htext⟩ := exists_spaced (us.map Token.raw)
  have hlexemes : ∀ raw ∈ us.map Token.raw, IsLexeme raw := by
    intro raw hraw
    obtain ⟨t, ht, rfl⟩ := List.mem_map.mp hraw
    exact ⟨t.kind, h t ht⟩
  obtain ⟨found, hscan, hraws⟩ := scanFrom_spaced .origin hlexemes htext.spaced
  exact ⟨text, found, hscan, map_bare_of_map_raw (scanFrom_spelled .origin text hscan) h hraws⟩

theorem scan_isWritten {source : Bytes} {ts : Tokens} (h : scan source = .ok ts) :
    ∀ t ∈ ts.items, t.IsWritten := by
  intro t ht
  obtain ⟨lead, rest, -, -, -, hkind, hspelled, -⟩ := (scanFrom_laid [] h).1.mem ht
  exact ⟨hkind, hspelled⟩

theorem scan_eof_kind {source : Bytes} {ts : Tokens} (h : scan source = .ok ts) : ts.eof.kind = .eof := by
  rw [(scanFrom_laid [] h).2]
  rfl

theorem Goal.missing?_eq_none {eof : Token} {g : Goal} : g.missing? eof = none ↔ g = .program := by
  cases g <;> simp [missing?]

open Agenda

theorem read_ok_iff {source : Bytes} {ts : Tokens} (h : scan source = .ok ts) :
    (∃ p, Program.read source = .ok p) ↔ after [.program] ts.items = .ok [.program] := by
  have hread := Program.read_pursues h (scan_eof_kind h)
  rw [pursue] at hread
  constructor
  · rintro ⟨p, hp⟩
    rw [hp] at hread
    obtain ⟨gs, hgs, hclose⟩ := except_bind_eq_ok hread
    obtain ⟨above, rfl, hprogram⟩ := (sound_after hgs).bottom
    cases above with
    | nil => exact hgs
    | cons g above =>
      have hg : g.missing? ts.eof = none := by
        rw [List.cons_append, close] at hclose
        cases hmissing : g.missing? ts.eof with
        | none => rfl
        | some d =>
          rw [hmissing] at hclose
          cases hclose
      rw [Goal.missing?_eq_none.mp hg] at hprogram
      exact absurd List.mem_cons_self hprogram
  · intro hgs
    rw [hgs] at hread
    cases hp : Program.read source with
    | ok p => exact ⟨p, rfl⟩
    | error d =>
      rw [hp] at hread
      cases hread

abbrev SameBare (t t' : Token) : Prop := t.bare = t'.bare

theorem forall₂_sameBare {us us' : List Token} (h : us.map Token.bare = us'.map Token.bare) :
    List.Forall₂ SameBare us us' := by
  rw [← List.forall₂_eq_eq_eq, List.forall₂_map_left_iff, List.forall₂_map_right_iff] at h
  exact h

theorem after_of_map_bare {us us' : List Token} (h : us.map Token.bare = us'.map Token.bare)
    (hus : after [.program] us = .ok [.program]) : after [.program] us' = .ok [.program] := by
  obtain ⟨gs, hgs, hprogram⟩ :=
    after_alike (fun _ _ h => h) (forall₂_sameBare h) (.cons .program .nil) hus
  cases hprogram with
  | cons hg hnil =>
    cases hg
    cases hnil
    exact hgs

/-- Tokens are those of a text that can be read when they leave nothing to look for. -/
theorem accepted_iff {us : List Token} (hus : ∀ t ∈ us, t.IsWritten) :
    Accepted us ↔ after [.program] us = .ok [.program] := by
  constructor
  · rintro ⟨source, found, p, hscan, hread, hbare⟩
    exact after_of_map_bare hbare ((read_ok_iff hscan).mp ⟨p, hread⟩)
  · intro h
    obtain ⟨source, found, hscan, hbare⟩ := exists_scan hus
    obtain ⟨p, hread⟩ := (read_ok_iff hscan).mpr (after_of_map_bare hbare.symm h)
    exact ⟨source, found, p, hscan, hread, hbare⟩

/-- Tokens begin a program when they leave something to look for. -/
theorem viable_iff {us : List Token} (hus : ∀ t ∈ us, t.IsWritten) :
    Viable us ↔ ∃ gs, after [.program] us = .ok gs := by
  constructor
  · rintro ⟨more, source, found, p, hscan, hread, hbare⟩
    have hall := after_of_map_bare hbare ((read_ok_iff hscan).mp ⟨p, hread⟩)
    rw [after_append] at hall
    obtain ⟨gs, hgs, -⟩ := except_bind_eq_ok hall
    exact ⟨gs, hgs⟩
  · rintro ⟨gs, hgs⟩
    -- what the agenda still looks for completes the program
    obtain ⟨above, rfl, hprogram⟩ := (sound_after hgs).bottom
    refine ⟨above.flatMap Goal.wanted, (accepted_iff fun t ht => ?_).mpr ?_⟩
    · obtain ht | ht := List.mem_append.mp ht
      · exact hus t ht
      · obtain ⟨g, -, ht⟩ := List.mem_flatMap.mp ht
        exact g.wanted_isWritten t ht
    · rw [after_append, hgs]
      exact after_allWanted above hprogram

end Stepwise
