import Stepwise.Proofs.Openings

/-! Where the reading of a text stops that is no program. It is the first token that can stand there in no
program, and the error is told of it, or of what it should have closed. -/

namespace Stepwise

open Agenda

/-- Where tokens have no program to begin, one of them is the first that is of no use. -/
theorem exists_stop {ts : List Token} {d : Diagnostic} (h : after [.program] ts = .error d) :
    ∃ us t rest g later, ts = us ++ t :: rest ∧ after [.program] us = .ok (g :: later) ∧
      g.take t = .error d := by
  induction ts using List.reverseRecOn with
  | nil => cases h
  | append_singleton ts t ih =>
    rw [after_append] at h
    obtain h | ⟨gs, hgs, h⟩ := except_bind_eq_error h
    · obtain ⟨us, t', rest, g, later, rfl, hus, hg⟩ := ih h
      exact ⟨us, t', rest ++ [t], g, later, by simp, hus, hg⟩
    · obtain ⟨above, rfl, -⟩ := (sound_after hgs).bottom
      cases hall : above ++ [Goal.program] with
      | nil => cases List.append_eq_nil_iff.mp hall |>.2
      | cons g later =>
        rw [hall] at hgs h
        obtain hg | ⟨new, -, h⟩ := except_bind_eq_error h
        · exact ⟨ts, t, [], g, later, rfl, hgs, hg⟩
        · rw [after_nil] at h
          cases h

theorem Goal.ofExpr_error {t : Token} {d : Diagnostic} (h : Goal.ofExpr t = .error d) :
    d.cause ≠ .emptyCall ∧ d.span = t.span := by
  rw [ofExpr] at h
  split at h
  case h_1 =>
    split at h
    · cases h
    · cases h
      exact ⟨by rintro ⟨⟩, rfl⟩
  all_goals first
    | cases h; exact ⟨by rintro ⟨⟩, rfl⟩
    | cases h

theorem Goal.ofStmt_error {t : Token} {d : Diagnostic} (h : Goal.ofStmt t = .error d) :
    d.cause ≠ .emptyCall ∧ d.span = t.span := by
  rw [ofStmt] at h
  split at h
  all_goals first
    | cases h; exact ⟨by rintro ⟨⟩, rfl⟩
    | cases h

theorem except_map_eq_error {α β : Type} {x : Except Diagnostic α} {f : α → β} {d : Diagnostic}
    (h : x.map f = .error d) : x = .error d := by
  cases x with
  | error d' =>
    cases h
    rfl
  | ok a => cases h

/-- A token of no use is the place of the error, but for a call of nothing. -/
theorem Goal.take_error {g : Goal} {t : Token} {d : Diagnostic} (h : g.take t = .error d) :
    d.cause ≠ .emptyCall ∧ d.span = t.span ∨
      ∃ o, g = .callee o ∧ t.kind = .rparen ∧ d = ⟨.emptyCall, o.span.through t.span⟩ := by
  cases g with
  | program => exact .inl (ofStmt_error (except_map_eq_error h))
  | body opener elseAllowed =>
    rw [take] at h
    split_ifs at h
    exact .inl (ofStmt_error (except_map_eq_error h))
  | stmt => exact .inl (ofStmt_error h)
  | expr => exact .inl (ofExpr_error h)
  | callee opener =>
    rw [take] at h
    split_ifs at h with hclose
    · cases h
      exact .inr ⟨opener, rfl, hclose, rfl⟩
    · exact .inl (ofExpr_error h)
  | args opener =>
    rw [take] at h
    split_ifs at h
    exact .inl (ofExpr_error (except_map_eq_error h))
  | setEnd | paramsOpen =>
    rw [take] at h
    split_ifs at h
    cases h
    exact .inl ⟨nofun, rfl⟩
  | target =>
    rw [take] at h
    split at h
    all_goals first
      | cases h; exact .inl ⟨nofun, rfl⟩
      | cases h
  | params opener seen =>
    rw [take] at h
    split at h
    case h_2 =>
      split_ifs at h
      cases h
      exact .inl ⟨nofun, rfl⟩
    all_goals first
      | cases h; exact .inl ⟨nofun, rfl⟩
      | cases h

theorem Goal.missing?_cases {g : Goal} {eof : Token} {d : Diagnostic} (h : g.missing? eof = some d) :
    d.cause ≠ .emptyCall ∧ (d.span = eof.span ∨ ∃ o, g.opener? = some o ∧ d.span = o.span) := by
  cases g with
  | program => cases h
  | body | args | params =>
    cases h
    exact ⟨nofun, .inr ⟨_, rfl, rfl⟩⟩
  | stmt | expr | callee | target | setEnd | paramsOpen =>
    cases h
    exact ⟨nofun, .inl rfl⟩

theorem Agenda.close_eq_error {eof : Token} {gs : Agenda} {d : Diagnostic} (h : close eof gs = .error d) :
    ∃ g later, gs = g :: later ∧ g.missing? eof = some d := by
  cases gs with
  | nil => cases h
  | cons g later =>
    rw [close] at h
    cases hmissing : g.missing? eof with
    | none =>
      rw [hmissing] at h
      cases h
    | some d' =>
      rw [hmissing] at h
      cases h
      exact ⟨g, later, rfl, hmissing⟩

/-- The tokens before one begin a program; with it they begin none, or if it is the end of input they are
none. The error is at this token, but a call of nothing is reported from its parenthesis on, and at the end
of input an error may be at a token that opens a part and is not matched. -/
structure Tokens.StopAt (ts : Tokens) (k : Nat) (t : Token) (d : Diagnostic) : Prop where
  token : ts.toList[k]? = some t
  viable : Viable (ts.items.take k)
  impossible : k < ts.items.length → ¬ Viable (ts.items.take (k + 1))
  incomplete : k = ts.items.length → ¬ Accepted ts.items
  place : d.cause ≠ .emptyCall ∧ d.span = t.span ∨
    (d.cause = .emptyCall ∧ t.kind = .rparen ∧
      ∃ opener, (ts.items.take k).getLast? = some opener ∧ opener.kind = .lparen ∧
        d.span = opener.span.through t.span) ∨
    (d.cause ≠ .emptyCall ∧ k = ts.items.length ∧
      ∃ j opener, ts.items[j]? = some opener ∧ opener.kind.opens ∧ Unclosed ts.items j ∧
        d.span = opener.span)

section

variable {source : Bytes} {ts : Tokens} {d : Diagnostic} {us rest : List Token} {t : Token} {g : Goal}
  {later gs : Agenda}

theorem Tokens.stopAt_token (hscan : scan source = .ok ts) (hitems : ts.items = us ++ t :: rest)
    (hus : after [.program] us = .ok (g :: later)) (hg : g.take t = .error d) :
    ts.StopAt us.length t d := by
  have hwritten (n : Nat) : ∀ t ∈ ts.items.take n, t.IsWritten :=
    fun t ht => scan_isWritten hscan t (List.mem_of_mem_take ht)
  have hk : us.length < ts.items.length := by
    rw [hitems, List.length_append, List.length_cons]
    omega
  have htake : ts.items.take us.length = us := by rw [hitems, List.take_left]
  have hnext : ts.items.take (us.length + 1) = us ++ [t] := by
    rw [hitems, List.take_append, List.take_of_length_le (Nat.le_succ _), Nat.add_sub_cancel_left]
    rfl
  constructor
  case token =>
    rw [Tokens.toList, hitems, List.append_assoc, List.getElem?_append_right le_rfl, Nat.sub_self]
    rfl
  case viable => exact (viable_iff (hwritten _)).mpr ⟨_, htake ▸ hus⟩
  case impossible =>
    intro _
    rw [viable_iff (hwritten _), hnext]
    rintro ⟨gs, hgs⟩
    obtain ⟨g', later', new, hus', hg', -⟩ := after_concat hgs
    cases hus.symm.trans hus'
    cases hg.symm.trans hg'
  case incomplete => exact fun h => absurd h (Nat.ne_of_lt hk)
  case place =>
    obtain hplace | ⟨o, rfl, hclose, rfl⟩ := Goal.take_error hg
    · exact .inl hplace
    · obtain ⟨hlast, hkind⟩ := (sound_after hus).front o rfl
      exact .inr (.inl ⟨rfl, hclose, o, by rw [htake, hlast], hkind, rfl⟩)

theorem Tokens.stopAt_eof (hscan : scan source = .ok ts) (hgs : after [.program] ts.items = .ok gs)
    (hclose : close ts.eof gs = .error d) : ts.StopAt ts.items.length ts.eof d := by
  have hwritten := scan_isWritten hscan
  constructor
  case token =>
    rw [Tokens.toList, List.getElem?_append_right le_rfl, Nat.sub_self]
    rfl
  case viable =>
    rw [List.take_length]
    exact (viable_iff hwritten).mpr ⟨gs, hgs⟩
  case impossible => exact fun h => absurd h (Nat.lt_irrefl _)
  case incomplete =>
    intro _
    rw [accepted_iff hwritten]
    intro haccepted
    cases hgs.symm.trans haccepted
    cases hclose
  case place =>
    obtain ⟨g, later, rfl, hmissing⟩ := close_eq_error hclose
    obtain ⟨hcause, hplace | ⟨o, ho, hplace⟩⟩ := Goal.missing?_cases hmissing
    · exact .inl ⟨hcause, hplace⟩
    · obtain ⟨j, hj, hunclosed⟩ := unclosed_of_after hscan hgs ho
      have hopens := ((sound_after hgs).opener g List.mem_cons_self o ho).2
      exact .inr (.inr ⟨hcause, rfl, j, o, hj, hopens, hunclosed, hplace⟩)

end

/-- A text that has tokens and is no program is refused for the first token that no program has there. -/
theorem errors_point_at_the_first_impossible_token {source : Bytes} {ts : Tokens} {d : Diagnostic}
    (hscan : scan source = .ok ts) (hread : Program.read source = .error d) :
    ∃ k t, ts.StopAt k t d := by
  have hpursue := Program.read_pursues hscan (scan_eof_kind hscan)
  rw [hread] at hpursue
  obtain hstop | ⟨gs, hgs, hclose⟩ := except_bind_eq_error hpursue
  · obtain ⟨us, t, rest, g, later, hitems, hus, hg⟩ := exists_stop hstop
    exact ⟨us.length, t, Tokens.stopAt_token hscan hitems hus hg⟩
  · exact ⟨ts.items.length, ts.eof, Tokens.stopAt_eof hscan hgs hclose⟩

theorem errors_point_at_the_first_impossible_token_unclosed :
    let source := utf8 "forever (f x"
    let ts : Tokens := ⟨[⟨.keyword .forever, utf8 "forever", ⟨0, 7, 1, 1⟩⟩, ⟨.lparen, [40], ⟨8, 9, 1, 9⟩⟩,
      ⟨.ident, utf8 "f", ⟨9, 10, 1, 10⟩⟩, ⟨.ident, utf8 "x", ⟨11, 12, 1, 12⟩⟩], ⟨.eof, [], ⟨12, 12, 1, 13⟩⟩⟩
    let d : Diagnostic := ⟨.unterminatedCall, ⟨8, 9, 1, 9⟩⟩
    scan source = .ok ts ∧ Program.read source = .error d ∧ ∃ k t, ts.StopAt k t d := by
  intro source ts d
  have hscan : scan source = .ok ts := by
    dsimp only [source, ts]
    cbv
  have hread : Program.read source = .error d := by
    dsimp only [source, d]
    cbv
  exact ⟨hscan, hread, errors_point_at_the_first_impossible_token hscan hread⟩

end Stepwise
