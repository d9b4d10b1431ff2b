import Stepwise.Proofs.Findings
import Stepwise.Proofs.Indifference
import Stepwise.Proofs.Lexical
import Stepwise.Proofs.Reading

/-! Loop stacks are no concern of programs. No text can spell the name they are bound under, so nothing
that has been read looks it up or assigns it: two stores that differ only there are the same to a program,
and after it they differ only there still. -/

namespace Stepwise

open Execution

/-- A function that is written in a text. -/
def Literal.IsRead (l : Literal) : Prop :=
  ∃ source p around, Program.read source = .ok p ∧ (l, around) ∈ p.functions

theorem Literal.IsRead.not_mem_names {l : Literal} (h : l.IsRead) : loopBinding ∉ l.names := by
  obtain ⟨source, p, around, hread, hl⟩ := h
  exact fun hname => (read_proper hread).not_mem_names (Program.names_of_functions hl hname)

namespace Store

/-- A loop stack that is bound under a name which programs can spell. -/
def Shows (s : Store) (ref : Nat) : Prop :=
  ∃ id name, name ≠ loopBinding ∧ s.lookup? id name = some (.loops ref)

/-- The stores differ in nothing but the bindings of loop stacks and the frames on them. -/
structure DifferInLoops (s t : Store) : Prop extends SameBindings s t where
  stack : ∀ ref, s.Shows ref → t.stack ref = s.stack ref

/-- All closures that are bound come from texts. -/
def IsRead (s : Store) : Prop :=
  ∀ id name c, name ≠ loopBinding → s.lookup? id name = some (.function c) → c.literal.IsRead

/-- From `s` to `t` the loop stacks stay as they are, and so do the bindings of them. -/
structure KeepsLoops (s t : Store) : Prop where
  stack : t.loopStacks = s.loopStacks
  bound : ∀ id, id < s.scopes.size → t.lookup? id loopBinding = s.lookup? id loopBinding

variable {s t : Store}

theorem DifferInLoops.alike (h : s.DifferInLoops t) (hs : s.IsRead) : s.Alike s.Shows t where
  toSameBindings := h.toSameBindings
  stack := h.stack
  plain id name v hn hv := by
    cases v with
    | function c => exact (hs id name c hn hv).not_mem_names
    | loops ref => exact ⟨id, name, hn, hv⟩
    | absent | null | boolean | integer | string | native => trivial

theorem Grows.keepsLoops {writable : ScopeId → Prop} (h : s.Grows writable t)
    (hbound : ∀ id, writable id → id < s.scopes.size → t.lookup? id loopBinding = s.lookup? id loopBinding) :
    s.KeepsLoops t where
  stack := h.loops
  bound id hid := by
    by_cases hw : writable id
    · exact hbound id hw hid
    · exact lookup?_congr (h.scope id hid hw) loopBinding

end Store

theorem Execution.after_reply {α : Type} {x : Execution α} {r : Except Failure α} {w w' : World}
    (h : x w = reply r w') : x.after w = w' := by
  cases r with
  | ok a => exact after_ok h
  | error e => exact after_error h

/-- However the evaluation of a program ends, if it does not spell the name of loop stacks it leaves them. -/
theorem evaluate_keepsLoops (setting : Setting) (scope : ScopeId) {p : Program}
    (hnames : loopBinding ∉ p.names) (w : World) :
    w.store.KeepsLoops ((setting.evaluate scope (.program p)).after w).store := by
  refine (evaluate_spares setting scope (.program p) w).keepsLoops ?_
  rintro id rfl hid
  have hexec : Executes (fun _ => Leaves id loopBinding) (· ≠ loopBinding) setting.host setting.invoke id :=
    leaves_executes (invokeAt_spares setting setting.depth) id loopBinding
  have hleaves : Leaves id loopBinding (setting.evaluate id (.program p)) :=
    hexec.evalBody .absent p.body fun name hname =>
      ne_of_mem_of_not_mem (Stmt.mem_namesOf_of_assignedIn p.body hname) hnames
  exact (hleaves w hid).2

/-- The call of any closure leaves all loop stacks, whatever its body spells. -/
theorem invokeAt_keepsLoops (setting : Setting) (left : Nat) (span : Span) (c : Closure) (args : List Value)
    (w : World) : w.store.KeepsLoops ((invokeAt setting left span c args).after w).store :=
  (invokeAt_spares setting left span c args w).keepsLoops fun _ h => h.elim

/-- All names in a program that has been read are symbols, and the name of loop stacks is none. From two
stores that differ only in their loop stacks the program is evaluated to the same end, with the same output,
and all bindings are the same afterwards but those of loop stacks, which it leaves as they were in each.
A step leaves them to its own loop: any call of a closure on the way, at whatever depth, keeps them all. -/
theorem programs_do_not_see_loops {source : Bytes} {p : Program} {setting : Setting} {s t : Store}
    {writer : Writer} (hread : Program.read source = .ok p) (hhost : setting.host = primitivesOn writer)
    (hloops : s.DifferInLoops t) (hs : s.IsRead) :
    (∀ name ∈ p.names, isSymbol name ∧ name ≠ loopBinding) ∧
    (∀ scope out polls, ∃ r s' t' out' polls',
      setting.evaluate scope (.program p) ⟨s, out, polls⟩ = reply r ⟨s', out', polls'⟩ ∧
      setting.evaluate scope (.program p) ⟨t, out, polls⟩ = reply r ⟨t', out', polls'⟩ ∧
      s'.SameBindings t' ∧ s.KeepsLoops s' ∧ t.KeepsLoops t') ∧
    ∀ left span c args (w : World),
      w.store.KeepsLoops ((invokeAt setting left span c args).after w).store := by
  have hproper := read_proper hread
  have hnames := hproper.not_mem_names
  refine ⟨fun name hname => ?_, fun scope out polls => ?_, invokeAt_keepsLoops setting⟩
  · exact ⟨hproper.isSymbol hname, ne_of_mem_of_not_mem hname hnames⟩
  have hignore : setting.host.IgnoresLoops := hhost ▸ primitivesOn_ignoresLoops writer
  have hinv : Invoke.Indifferent s.Shows setting.invoke := invokeAt_indifferent setting hignore setting.depth
  have hindifferent : Indifferent s.Shows (Value.Plain s.Shows) (setting.evaluate scope (.program p)) :=
    evalBody_indifferent hignore hinv Value.plain_absent p.body hnames
  obtain ⟨r, s', t', out', polls', hx, hy, halike, -⟩ := hindifferent s t out polls (hloops.alike hs)
  refine ⟨r, s', t', out', polls', hx, hy, halike.toSameBindings, ?_, ?_⟩
  · have hkeeps := evaluate_keepsLoops setting scope hnames ⟨s, out, polls⟩
    rwa [after_reply hx] at hkeeps
  · have hkeeps := evaluate_keepsLoops setting scope hnames ⟨t, out, polls⟩
    rwa [after_reply hy] at hkeeps

/-- A loop around calls of a function that was read from another text and loops itself. In one scope no loop
stack is bound, in the other one with a frame on it, which is there afterwards. -/
theorem programs_do_not_see_loops_calling :
    let definition := utf8 "set f function (n) times n (print n) end end end"
    let source := utf8 "times 2 (f 2) end"
    ∃ q l around p, Program.read definition = .ok q ∧ (l, around) ∈ q.functions ∧
      Program.read source = .ok p ∧
      let s := Store.empty.addRoot (.ofList [(Primitive.print.name, .native Primitive.print.native),
        (utf8 "f", .function ⟨0, l, 0⟩)])
      let t := (s.addStack [.endless]).set 0 loopBinding (.loops 0)
      ∃ r s' t' out' polls',
        Setting.evaluate ⟨primitives, 5⟩ 0 (.program p) ⟨s, #[], 99⟩ = reply r ⟨s', out', polls'⟩ ∧
        Setting.evaluate ⟨primitives, 5⟩ 0 (.program p) ⟨t, #[], 99⟩ = reply r ⟨t', out', polls'⟩ ∧
        t'.lookup? 0 loopBinding = some (.loops 0) ∧ t'.stack 0 = [.endless] := by
  intro definition source
  have hdefinition : (Program.read definition).map (fun p => p.functions.isEmpty) = .ok false := by
    dsimp only [definition]
    cbv
  have hsource : (Program.read source).isOk = true := by
    dsimp only [source]
    cbv
  obtain ⟨q, l, around, hq, hl⟩ : ∃ q l around,
      Program.read definition = .ok q ∧ (l, around) ∈ q.functions := by
    cases hq : Program.read definition with
    | error d =>
      rw [hq] at hdefinition
      cases hdefinition
    | ok q =>
      rw [hq] at hdefinition
      cases hfunctions : q.functions with
      | nil => simp [Except.map, hfunctions] at hdefinition
      | cons f rest => exact ⟨q, f.1, f.2, rfl, hfunctions ▸ List.mem_cons_self⟩
  obtain ⟨p, hread⟩ : ∃ p, Program.read source = .ok p := by
    cases hread : Program.read source with
    | ok p => exact ⟨p, rfl⟩
    | error d =>
      rw [hread] at hsource
      cases hsource
  refine ⟨q, l, around, p, hq, hl, hread, ?_⟩
  intro s t
  have hbound (id : ScopeId) (name : Name) (v : Value) (hv : s.lookup? id name = some v) :
      v = .native Primitive.print.native ∨ v = .function ⟨0, l, 0⟩ := by
    cases id with
    | zero =>
      have hmem := Bindings.mem_of_get?_ofList hv
      simp only [List.mem_cons, Prod.mk.injEq, List.not_mem_nil, or_false] at hmem
      exact hmem.imp And.right And.right
    | succ id => cases hv
  have hclosures : s.IsRead := by
    intro id name c _ hv
    obtain ⟨⟨⟩⟩ | ⟨⟨⟩⟩ := hbound id name _ hv
    exact ⟨definition, q, around, hq, hl⟩
  have hadd : s.SameBindings (s.addStack [.endless]) := ⟨rfl, fun _ => rfl, fun _ _ _ => rfl, rfl⟩
  have hshows (ref : Nat) (h : s.Shows ref) : t.stack ref = s.stack ref := by
    obtain ⟨id, name, -, hv⟩ := h
    obtain ⟨⟨⟩⟩ | ⟨⟨⟩⟩ := hbound id name _ hv
  have hloops : s.DifferInLoops t :=
    { hadd.trans (Store.sameBindings_set_loops _ 0 _) with stack := hshows }
  obtain ⟨r, s', t', out', polls', hx, hy, -, -, hkeeps⟩ :=
    (@programs_do_not_see_loops source p ⟨primitives, 5⟩ s t .unfailing hread rfl hloops
      hclosures).2.1 0 #[] 99
  refine ⟨r, s', t', out', polls', hx, hy, ?_, ?_⟩
  · rw [hkeeps.bound 0 Nat.one_pos]
    rfl
  · rw [Store.stack, hkeeps.stack]
    rfl

end Stepwise
