import Stepwise.Proofs.Prospects

/-! What is open in a text. The agenda holds the parts that have been opened and not closed: in every
program that the tokens go on to, the token that closes such a part comes later. -/

namespace Stepwise

mutual

/-- The tokens that open and close parts of a phrase, in pairs. A word `else` closes one list of
statements and opens another. -/
def ExprPhrase.pairs : ExprPhrase → List (Token × Token)
  | .atom _ => []
  | .call opener callee args close =>
    (opener.token, close.token) :: (callee.pairs ++ ExprPhrase.pairsOf args)
  | .function word opener _ close body stop =>
    (word.token, stop.token) :: (opener.token, close.token) :: StmtPhrase.pairsOf body

def ExprPhrase.pairsOf : List ExprPhrase → List (Token × Token)
  | [] => []
  | d :: ds => d.pairs ++ ExprPhrase.pairsOf ds

def StmtPhrase.pairs : StmtPhrase → List (Token × Token)
  | .set _ _ value _ => value.pairs
  | .branch word condition body stop =>
    (word.token, stop.token) :: (condition.pairs ++ StmtPhrase.pairsOf body)
  | .branchElse word condition thenBody middle elseBody stop =>
    (word.token, middle.token) :: (middle.token, stop.token) ::
      (condition.pairs ++ (StmtPhrase.pairsOf thenBody ++ StmtPhrase.pairsOf elseBody))
  | .times word count body stop =>
    (word.token, stop.token) :: (count.pairs ++ StmtPhrase.pairsOf body)
  | .forever word body stop => (word.token, stop.token) :: StmtPhrase.pairsOf body
  | .call opener callee args close =>
    (opener.token, close.token) :: (callee.pairs ++ ExprPhrase.pairsOf args)

def StmtPhrase.pairsOf : List StmtPhrase → List (Token × Token)
  | [] => []
  | d :: ds => d.pairs ++ StmtPhrase.pairsOf ds

end

open Agenda

/-- Tokens take one agenda to another; and at any time the tokens to come close, by the given pairs, all
that is open on it. -/
structure Closes (C : List (Token × Token)) (gs : Agenda) (ts : List Token) (left : Agenda) : Prop where
  all : after gs ts = .ok left
  pending : ∀ us vs, ts = us ++ vs → ∀ hs, after gs us = .ok hs →
    ∀ h ∈ hs, ∀ o, h.opener? = some o → ∃ c ∈ vs, (o, c) ∈ C

namespace Closes

variable {C : List (Token × Token)} {gs hs new left : Agenda} {g g' : Goal} {t : Token}
  {ts ts' : List Token}

theorem opened (h : Closes C gs ts left) : ∀ g ∈ gs, ∀ o, g.opener? = some o → ∃ c ∈ ts, (o, c) ∈ C :=
  h.pending [] ts rfl gs after_nil

theorem nil (h : ∀ g ∈ gs, g.opener? = none) : Closes C gs [] gs := by
  refine ⟨after_nil, fun us vs hts hs hhs k hk o ho => ?_⟩
  obtain ⟨rfl, -⟩ := List.append_eq_nil_iff.mp hts.symm
  rw [after_nil] at hhs
  cases hhs
  rw [h k hk] at ho
  cases ho

theorem append (h : Closes C gs ts []) (h' : Closes C hs ts' left) :
    Closes C (gs ++ hs) (ts ++ ts') left := by
  have hall := after_later h.all hs
  refine ⟨by rw [after_append, hall]; exact h'.all, fun us vs hts mid hmid k hk o ho => ?_⟩
  obtain ⟨rest, rfl, hvs⟩ | ⟨rest, hus, rfl⟩ := List.append_eq_append_iff.mp hts
  · rw [after_append, hall] at hmid
    exact h'.pending rest vs hvs mid hmid k hk o ho
  · -- the tokens so far are among the first ones, and those leave the later parts alone
    have hfirst := h.all
    rw [hus, after_append] at hfirst
    obtain ⟨first, hfirst, -⟩ := except_bind_eq_ok hfirst
    rw [after_later hfirst hs] at hmid
    cases hmid
    obtain hk | hk := List.mem_append.mp hk
    · obtain ⟨c, hc, hpair⟩ := h.pending us rest hus first hfirst k hk o ho
      exact ⟨c, List.mem_append_left _ hc, hpair⟩
    · obtain ⟨c, hc, hpair⟩ := h'.opened k hk o ho
      exact ⟨c, List.mem_append_right _ hc, hpair⟩

theorem done : Closes C [] [] [] := nil fun _ hg => absurd hg List.not_mem_nil

theorem step (hg : g.take t = .ok new) (hopened : ∀ o, g.opener? = some o → ∃ c ∈ t :: ts, (o, c) ∈ C)
    (h : Closes C new ts left) : Closes C [g] (t :: ts) left := by
  have hrun (us : List Token) : after [g] (t :: us) = after new us := by
    rw [after_cons, hg]
    exact congrArg (after · us) (List.append_nil new)
  refine ⟨by rw [hrun]; exact h.all, fun us vs hts mid hmid k hk o ho => ?_⟩
  cases us with
  | nil =>
    rw [after_nil] at hmid
    cases hmid
    obtain rfl := List.mem_singleton.mp hk
    rw [List.nil_append] at hts
    exact hts ▸ hopened o ho
  | cons u us =>
    obtain ⟨rfl, hts'⟩ := List.cons.inj hts
    rw [hrun] at hmid
    exact h.pending us vs hts' mid hmid k hk o ho

theorem start (hg : g.take t = .ok new) (hopener : g.opener? = none) (h : Closes C new ts left) :
    Closes C [g] (t :: ts) left := by
  refine .step hg (fun o ho => ?_) h
  rw [hopener] at ho
  cases ho

theorem delegate (hg : g.take t = (g'.take t).map (· ++ gs))
    (hopener : ∀ o, g.opener? = some o → ∃ k ∈ gs, k.opener? = some o)
    (h : Closes C (g' :: gs) (t :: ts) left) : Closes C [g] (t :: ts) left := by
  have hrun (us : List Token) : after [g] (t :: us) = after (g' :: gs) (t :: us) := by
    rw [after_delegate hg, List.append_nil]
  refine ⟨by rw [hrun]; exact h.all, fun us vs hts mid hmid k hk o ho => ?_⟩
  cases us with
  | nil =>
    rw [after_nil] at hmid
    cases hmid
    obtain rfl := List.mem_singleton.mp hk
    obtain ⟨k', hk', ho'⟩ := hopener o ho
    rw [List.nil_append] at hts
    exact hts ▸ h.opened k' (List.mem_cons_of_mem _ hk') o ho'
  | cons u us =>
    obtain ⟨rfl, -⟩ := List.cons.inj hts
    rw [hrun] at hmid
    exact h.pending (t :: us) vs hts mid hmid k hk o ho

end Closes

theorem Atom.ofExpr_token (a : Atom) (ha : a.Admissible) : Goal.ofExpr a.token = .ok [] := by
  rw [Goal.ofExpr]
  cases a with
  | number t =>
    have hfits : Decimal.fitsInt64 (numeralValue t.token.raw) := ha
    have hword := readWord?_of_isNumeral (show IsNumeral t.token.raw from t.spells)
    rw [if_pos hfits] at hword
    simp only [Atom.token, t.kind_eq, hword]
  | string t | yes t | no t | null t | symbol t | forever t => simp only [Atom.token, t.kind_eq]

theorem StmtPhrase.take_body {d : StmtPhrase} {t : Token} {more : List Token}
    (htokens : d.tokens = t :: more) (o : Token) (elseAllowed : Bool) :
    Goal.take t (.body o elseAllowed) = (Goal.take t .stmt).map (· ++ [.body o elseAllowed]) := by
  obtain ⟨first, rest, hfirst, hkind⟩ := d.exists_first
  obtain ⟨rfl, -⟩ := List.cons.inj (htokens.symm.trans hfirst)
  have hend : t.kind ≠ .keyword .endWord := by
    intro h
    rw [h] at hkind
    cases hkind
  have helse : t.kind ≠ .keyword .elseWord := by
    intro h
    rw [h] at hkind
    cases hkind
  rw [Goal.take, if_neg hend, if_neg fun h => helse h.2, Goal.take]

section

variable {C : List (Token × Token)} {o : Token}

/-- A part that the last of its tokens closes. -/
theorem opened_by_last {g : Goal} {close : Token} (hopener : g.opener? = some o) (hpair : (o, close) ∈ C)
    (ts rest : List Token) : ∀ o', g.opener? = some o' → ∃ c ∈ ts ++ close :: rest, (o', c) ∈ C := by
  intro o' ho'
  rw [hopener] at ho'
  cases ho'
  exact ⟨close, List.mem_append_right _ List.mem_cons_self, hpair⟩

theorem closes_params {close : TokenOf .rparen} (hpair : (o, close.token) ∈ C)
    (params : List (TokenOf .ident)) (seen : List Name)
    (hnodup : (params.map fun t => t.token.raw).Nodup) (hfresh : ∀ p ∈ params, p.token.raw ∉ seen) :
    Closes C [.params o seen] (params.map TokenOf.token ++ [close.token]) [] := by
  induction params generalizing seen with
  | nil =>
    have htake : Goal.take close.token (.params o seen) = .ok [] := by
      simp only [Goal.take, close.kind_eq]
    exact .step htake (opened_by_last rfl hpair [] []) .done
  | cons p params ih =>
    rw [List.map_cons, List.nodup_cons] at hnodup
    rw [List.forall_mem_cons] at hfresh
    have hseen : seen.contains p.token.raw = false := by simpa using hfresh.1
    have hmore : ∀ q ∈ params, q.token.raw ∉ p.token.raw :: seen := by
      intro q hq hmem
      obtain heq | hmem := List.mem_cons.mp hmem
      · exact hnodup.1 (heq ▸ List.mem_map_of_mem hq)
      · exact hfresh.2 q hq hmem
    have htake : Goal.take p.token (.params o seen) = .ok [.params o (p.token.raw :: seen)] := by
      simp only [Goal.take, p.kind_eq, hseen, Bool.false_eq_true, if_false]
    refine .step htake ?_ (ih _ hnodup.2 hmore)
    exact opened_by_last rfl hpair (p.token :: params.map TokenOf.token) []

theorem closes_callee {callee : ExprPhrase} (h : Closes C [.expr] callee.tokens []) :
    Closes C [.callee o] callee.tokens [] := by
  obtain ⟨t, rest, htokens, hkind⟩ := callee.exists_first
  rw [htokens] at h ⊢
  refine .delegate (Goal.take_callee hkind o) (fun o' ho' => ?_) h
  cases ho'

end

section

variable {C : List (Token × Token)}

mutual

theorem ExprPhrase.closes (d : ExprPhrase) (hd : d.Admissible) (hC : d.pairs ⊆ C) :
    Closes C [.expr] d.tokens [] := by
  cases d with
  | atom a => exact .start (a.ofExpr_token hd) rfl .done
  | call opener callee args close =>
    simp only [ExprPhrase.pairs, List.cons_subset, List.append_subset] at hC
    obtain ⟨hpair, hcallee, hargs⟩ := hC
    have hfirst := closes_callee (o := opener.token) (callee.closes hd.1 hcallee)
    refine .start (Goal.take_call opener.kind_eq) rfl (hfirst.append ?_)
    exact ExprPhrase.closesArgs args hd.2 hargs close hpair
  | function word opener params close body stop =>
    simp only [ExprPhrase.pairs, List.cons_subset] at hC
    obtain ⟨hword, hopener, hbody⟩ := hC
    have hparams := closes_params hopener params [] hd.1 fun _ _ => List.not_mem_nil
    have hfirst : Closes C [.paramsOpen] _ [] := .start (if_pos opener.kind_eq) rfl hparams
    have htokens : (ExprPhrase.function word opener params close body stop).tokens = word.token ::
        ((opener.token :: (params.map TokenOf.token ++ [close.token])) ++
          (StmtPhrase.tokensOf body ++ [stop.token])) := by
      simp [ExprPhrase.tokens]
    rw [htokens]
    refine .start (Goal.take_function word.kind_eq) rfl (hfirst.append ?_)
    exact StmtPhrase.closesBody body hd.2 hbody hword (if_pos stop.kind_eq) .done
termination_by structural d

theorem ExprPhrase.closesArgs (ds : List ExprPhrase) (hds : ExprPhrase.AllAdmissible ds)
    (hC : ExprPhrase.pairsOf ds ⊆ C) {o : Token} (close : TokenOf .rparen) (hpair : (o, close.token) ∈ C) :
    Closes C [.args o] (ExprPhrase.tokensOf ds ++ [close.token]) [] := by
  cases ds with
  | nil => exact .step (if_pos close.kind_eq) (opened_by_last rfl hpair [] []) .done
  | cons d ds =>
    obtain ⟨hfirst, hmore⟩ := List.append_subset.mp hC
    have hall := (d.closes hds.1 hfirst).append (ExprPhrase.closesArgs ds hds.2 hmore close hpair)
    obtain ⟨t, rest, htokens, hkind⟩ := d.exists_first
    rw [htokens] at hall
    rw [ExprPhrase.tokensOf, htokens, List.append_assoc]
    refine .delegate (Goal.take_args hkind o) (fun o' ho' => ?_) hall
    exact ⟨.args o, List.mem_singleton_self _, ho'⟩
termination_by structural ds

theorem StmtPhrase.closes (d : StmtPhrase) (hd : d.Admissible) (hC : d.pairs ⊆ C) :
    Closes C [.stmt] d.tokens [] := by
  cases d with
  | set word target value stop =>
    have htake : Goal.take target.token .target = .ok [] := by
      simp only [Goal.take, target.kind_eq]
    have htarget : Closes C [.target] [target.token] [] := .start htake rfl .done
    have hstop : Closes C [.setEnd] [stop.token] [] := .start (if_pos stop.kind_eq) rfl .done
    exact .start (Goal.take_set word.kind_eq) rfl (htarget.append ((value.closes hd hC).append hstop))
  | branch word condition body stop =>
    simp only [StmtPhrase.pairs, List.cons_subset, List.append_subset] at hC
    obtain ⟨hpair, hcondition, hbody⟩ := hC
    refine .start (Goal.take_if word.kind_eq) rfl ((condition.closes hd.1 hcondition).append ?_)
    exact StmtPhrase.closesBody body hd.2 hbody hpair (if_pos stop.kind_eq) .done
  | branchElse word condition thenBody middle elseBody stop =>
    simp only [StmtPhrase.pairs, List.cons_subset, List.append_subset] at hC
    obtain ⟨hword, hmiddle, hcondition, hthen, helse⟩ := hC
    have hturn : Goal.take middle.token (.body word.token true) = .ok [.body middle.token false] := by
      simp [Goal.take, middle.kind_eq]
    refine .start (Goal.take_if word.kind_eq) rfl ((condition.closes hd.1 hcondition).append ?_)
    refine StmtPhrase.closesBody thenBody hd.2.1 hthen hword hturn ?_
    exact StmtPhrase.closesBody elseBody hd.2.2 helse hmiddle (if_pos stop.kind_eq) .done
  | times word count body stop =>
    simp only [StmtPhrase.pairs, List.cons_subset, List.append_subset] at hC
    obtain ⟨hpair, hcount, hbody⟩ := hC
    refine .start (Goal.take_times word.kind_eq) rfl ((count.closes hd.1 hcount).append ?_)
    exact StmtPhrase.closesBody body hd.2 hbody hpair (if_pos stop.kind_eq) .done
  | forever word body stop =>
    simp only [StmtPhrase.pairs, List.cons_subset] at hC
    obtain ⟨hpair, hbody⟩ := hC
    refine .start (Goal.take_forever word.kind_eq) rfl ?_
    exact StmtPhrase.closesBody body hd hbody hpair (if_pos stop.kind_eq) .done
  | call opener callee args close =>
    simp only [StmtPhrase.pairs, List.cons_subset, List.append_subset] at hC
    obtain ⟨hpair, hcallee, hargs⟩ := hC
    have hfirst := closes_callee (o := opener.token) (callee.closes hd.1 hcallee)
    refine .start (Goal.take_callStmt opener.kind_eq) rfl (hfirst.append ?_)
    exact ExprPhrase.closesArgs args hd.2 hargs close hpair
termination_by structural d

/-- Statements and the word that ends them, and whatever that word leaves to look for. -/
theorem StmtPhrase.closesBody (ds : List StmtPhrase) (hds : StmtPhrase.AllAdmissible ds)
    (hC : StmtPhrase.pairsOf ds ⊆ C) {o stop : Token} {elseAllowed : Bool} {new left : Agenda}
    {rest : List Token} (hpair : (o, stop) ∈ C)
    (hstop : Goal.take stop (.body o elseAllowed) = .ok new) (hrest : Closes C new rest left) :
    Closes C [.body o elseAllowed] (StmtPhrase.tokensOf ds ++ stop :: rest) left := by
  cases ds with
  | nil => exact .step hstop (opened_by_last rfl hpair [] rest) hrest
  | cons d ds =>
    obtain ⟨hfirst, hmore⟩ := List.append_subset.mp hC
    have hall := (d.closes hds.1 hfirst).append
      (StmtPhrase.closesBody ds hds.2 hmore hpair hstop hrest)
    obtain ⟨t, more, htokens, -⟩ := d.exists_first
    rw [htokens] at hall
    rw [StmtPhrase.tokensOf, htokens, List.append_assoc]
    refine .delegate (StmtPhrase.take_body htokens o elseAllowed) (fun o' ho' => ?_) hall
    exact ⟨.body o elseAllowed, List.mem_singleton_self _, ho'⟩
termination_by structural ds

end

theorem StmtPhrase.closesProgram (ds : List StmtPhrase) (hds : StmtPhrase.AllAdmissible ds)
    (hC : StmtPhrase.pairsOf ds ⊆ C) : Closes C [.program] (StmtPhrase.tokensOf ds) [.program] := by
  induction ds with
  | nil => exact .nil (by simp [Goal.opener?])
  | cons d ds ih =>
    obtain ⟨hfirst, hmore⟩ := List.append_subset.mp hC
    have hall := (d.closes hds.1 hfirst).append (ih hds.2 hmore)
    obtain ⟨t, more, htokens, -⟩ := d.exists_first
    rw [htokens] at hall
    rw [StmtPhrase.tokensOf, htokens]
    have hopener : ∀ o, Goal.program.opener? = some o →
        ∃ k ∈ ([.program] : Agenda), k.opener? = some o := by
      rintro o ⟨⟩
    exact .delegate rfl hopener hall

end

/-- Whatever program the tokens begin, the token at an index opens a part of it that a later one closes. -/
def Unclosed (ts : List Token) (index : Nat) : Prop :=
  ∀ source found p body, scan source = .ok found → Program.read source = .ok p →
    found.items = StmtPhrase.tokensOf body → ts.map Token.bare <+: found.items.map Token.bare →
      ∃ opener closer, found.items[index]? = some opener ∧
        (opener, closer) ∈ StmtPhrase.pairsOf body ∧ closer ∈ found.items.drop ts.length

theorem Goal.Alike.opener? {R : Token → Token → Prop} {g g' : Goal} {o : Token} (h : Goal.Alike R g g')
    (ho : g.opener? = some o) : ∃ o', g'.opener? = some o' ∧ R o o' := by
  cases h with
  | body hR | args hR | params hR =>
    cases ho
    exact ⟨_, rfl, hR⟩
  | program | stmt | expr | callee | target | setEnd | paramsOpen => cases ho

theorem scan_nodup {source : Bytes} {ts : Tokens} (h : scan source = .ok ts) : ts.items.Nodup := by
  have hstarts := (scanFrom_starts .origin source h).2
  exact List.Nodup.of_map _ (hstarts.imp Int.ne_of_lt)

/-- Tokens at the same indices. -/
def Beside (ts ts' : List Token) (t t' : Token) : Prop :=
  ∃ i : Nat, ts[i]? = some t ∧ ts'[i]? = some t' ∧ t.bare = t'.bare

theorem forall₂_beside {ts ts' : List Token} (h : ts.map Token.bare = ts'.map Token.bare) :
    List.Forall₂ (Beside ts ts') ts ts' := by
  have hlength : ts.length = ts'.length := by simpa using congrArg List.length h
  refine List.forall₂_iff_get.mpr ⟨hlength, fun i hi hi' => ?_⟩
  refine ⟨i, List.getElem?_eq_getElem hi, List.getElem?_eq_getElem hi', ?_⟩
  have hget := congrArg (·[i]?) h
  simpa [hi, hi'] using hget

/-- What is open at the front of the agenda is closed later in every program. -/
theorem unclosed_of_after {source : Bytes} {ts : Tokens} (hscan : scan source = .ok ts) {g : Goal}
    {later : Agenda} (h : after [.program] ts.items = .ok (g :: later)) {o : Token}
    (ho : g.opener? = some o) : ∃ index, ts.items[index]? = some o ∧ Unclosed ts.items index := by
  obtain ⟨index, hindex⟩ := List.getElem?_of_mem ((sound_after h).opener g List.mem_cons_self o ho).1
  refine ⟨index, hindex, fun source' found p body hfound hread hbody hbegins => ?_⟩
  obtain ⟨rest, hrest⟩ := hbegins
  obtain ⟨us, vs, hitems, hus, -⟩ := List.map_eq_append_iff.mp hrest.symm
  have hlength : us.length = ts.items.length := by simpa using congrArg List.length hus
  obtain ⟨gs', hgs', halike⟩ := after_alike (fun _ _ hR => hR.elim fun _ hR => hR.2.2)
    (forall₂_beside hus.symm) (.cons .program .nil) h
  cases halike with
  | @cons _ g' _ later' hg =>
    obtain ⟨o', ho', i, hi, hi', -⟩ := hg.opener? ho
    -- a token stands at one index only
    obtain ⟨hlt, -⟩ := List.getElem?_eq_some_iff.mp hindex
    obtain rfl : index = i := (List.getElem?_inj hlt (scan_nodup hscan)).mp (hindex.trans hi.symm)
    obtain ⟨ts', body', hts', htokens, hadmissible, -⟩ := Program.read_derives hread
    cases hfound.symm.trans hts'
    obtain rfl := StmtPhrase.eq_of_tokensOf (hbody.symm.trans htokens)
    have hcloses := StmtPhrase.closesProgram body hadmissible (List.Subset.refl _)
    obtain ⟨c, hc, hpair⟩ := hcloses.pending us vs (hbody.symm.trans hitems) (g' :: later') hgs' g'
      List.mem_cons_self o' ho'
    refine ⟨o', c, ?_, hpair, ?_⟩
    · rw [hitems, List.getElem?_append_left (hlength ▸ hlt)]
      exact hi'
    · rw [hitems, ← hlength, List.drop_left]
      exact hc

end Stepwise
