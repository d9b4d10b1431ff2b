import Stepwise.Proofs.Derivation
import Stepwise.Proofs.Failures

/-! What a source text can fail with. A tree that has been read is complete, so the only constructs in it
that are invalid are `forever` as a value and counts that no loop can have. Among scalars and primitives,
whether it is evaluated, checked or stepped through in a session, nothing fails but these and what the
course of the run brings about, and nothing ever fails internally. -/

namespace Stepwise

open Execution

/-- A count that no loop can have. -/
def Expr.countFaults : Expr → List Diagnostic
  | .missing | .forever _ | .number _ _ | .symbol _ => []
  | .boolean span _ => [⟨.countNotAllowed .boolean, span⟩]
  | .null span => [⟨.countNotAllowed .null, span⟩]
  | .string span _ => [⟨.countNotAllowed .string, span⟩]
  | .call span _ _ => [⟨.countNotAllowed .callExpression, span⟩]
  | .function span _ _ => [⟨.countNotAllowed .function, span⟩]

mutual

/-- The invalid constructs that can be written: `forever` in the place of a value, and counts that no
loop can have. -/
def Expr.faults : Expr → List Diagnostic
  | .forever span => [⟨.foreverAsValue, span⟩]
  | .call _ callee args => callee.faults ++ Expr.faultsIn args
  | .function _ _ body => body.faults
  | .missing | .symbol _ | .number _ _ | .boolean _ _ | .null _ | .string _ _ => []

def Expr.faultsIn : List Expr → List Diagnostic
  | [] => []
  | e :: es => e.faults ++ Expr.faultsIn es

def Block.faults : Block → List Diagnostic
  | .missing => []
  | .of _ body => Stmt.faultsIn body

def Stmt.faults : Stmt → List Diagnostic
  | .missing => []
  | .set _ _ value => value.faults
  | .branch _ condition thenBlock elseBlock =>
    condition.faults ++ thenBlock.faults ++ elseBlock.faults
  | .times _ count body => count.countFaults ++ body.faults
  | .call _ callee args => callee.faults ++ Expr.faultsIn args

def Stmt.faultsIn : List Stmt → List Diagnostic
  | [] => []
  | s :: rest => s.faults ++ Stmt.faultsIn rest

end

def Program.faults (p : Program) : List Diagnostic := Stmt.faultsIn p.body

/-- Nothing internal fails, and no construct is invalid but these. Stale locations are left out here. -/
def Terms.ofFaults (faults : List Diagnostic) : Terms where
  permits cause span := cause.isStale = true ∨
    cause.kind ≠ .internal ∧ (cause.kind = .invalidConstruct → ⟨cause, span⟩ ∈ faults)
  sites _ := True
  endless := True
  stands _ := True
  ofRun {cause span} h _ := by
    cases cause with
    | unbound | nativeArity | functionArity | notCallable | callDepth | countNotInteger =>
      exact .inr ⟨by rintro ⟨⟩, by rintro ⟨⟩⟩
    | _ => exact .inl h
  ofStale := .inl

/-- Terms that permit no construct but faults, and have nothing against a program otherwise. -/
structure Terms.Admits (t : Terms) (faults : List Diagnostic) (visits : List Visit) : Prop where
  endless : t.endless
  stands : ∀ s, t.stands s
  faults : ∀ d ∈ faults, d.kind = .invalidConstruct → t.sites d.span → t.permits d.cause d.span
  sites : ∀ visit ∈ visits, t.sites visit.node.span

namespace Terms.Admits

variable {t : Terms} {faults faults' : List Diagnostic} {visits visits' : List Visit}

theorem mono (h : t.Admits faults visits) (hfaults : faults' ⊆ faults) (hvisits : visits' ⊆ visits) :
    t.Admits faults' visits' :=
  ⟨h.endless, h.stands, fun d hd => h.faults d (hfaults hd), fun v hv => h.sites v (hvisits hv)⟩

theorem left (h : t.Admits (faults ++ faults') (visits ++ visits')) : t.Admits faults visits :=
  h.mono (List.subset_append_left _ _) (List.subset_append_left _ _)

theorem right (h : t.Admits (faults ++ faults') (visits ++ visits')) : t.Admits faults' visits' :=
  h.mono (List.subset_append_right _ _) (List.subset_append_right _ _)

theorem below {depth : Nat} {n : Node} (h : t.Admits faults (Visit.enter (fun _ => true) depth n visits)) :
    t.Admits faults visits :=
  h.mono (List.Subset.refl _) (List.subset_cons_self _ _)

theorem site {depth : Nat} {n : Node} (h : t.Admits faults (Visit.enter (fun _ => true) depth n visits)) :
    t.sites n.span :=
  h.sites _ List.mem_cons_self

end Terms.Admits

section Phrases

variable {t : Terms} {depth : Nat}

theorem ExprPhrase.isMissing_tree (d : ExprPhrase) : d.tree.isMissing = false := by
  cases d with
  | atom a => cases a <;> rfl
  | call | function => rfl

theorem ExprPhrase.countMeets (d : ExprPhrase)
    (h : t.Admits d.tree.countFaults (Visit.expr (fun _ => true) depth d.tree)) (span : Span) :
    d.tree.CountMeets t span := by
  cases d with
  | atom a =>
    cases a with
    | number => trivial
    | symbol => exact h.site
    | forever => exact h.endless
    | string | yes | no | null => exact h.faults _ List.mem_cons_self rfl h.site
  | call | function => exact h.faults _ List.mem_cons_self rfl h.site

mutual

/-- A phrase is complete, so its tree can only fail for a fault that is in it. -/
theorem ExprPhrase.meets (d : ExprPhrase) {depth : Nat}
    (h : t.Admits d.tree.faults (Visit.expr (fun _ => true) depth d.tree)) : d.tree.Meets t := by
  cases d with
  | atom a =>
    cases a with
    | forever => exact h.faults _ List.mem_cons_self rfl h.site
    | symbol => exact h.site
    | _ => trivial
  | call opener callee args close =>
    refine ⟨h.site, fun hmissing => ?_, callee.meets h.below.left, ExprPhrase.allMeet args h.below.right⟩
    rw [callee.isMissing_tree] at hmissing
    cases hmissing
  | function word opener params close body stop =>
    have hbody : t.Admits (Stmt.faultsIn (StmtPhrase.trees body))
        (Visit.stmts (fun _ => true) (depth + 2) (StmtPhrase.trees body)) :=
      h.below.mono (List.Subset.refl _)
        (List.subset_append_of_subset_right _ (List.subset_cons_self _ _))
    exact ⟨by rintro ⟨⟩, StmtPhrase.allMeet body hbody⟩
termination_by structural d

theorem ExprPhrase.allMeet (ds : List ExprPhrase) {depth : Nat}
    (h : t.Admits (Expr.faultsIn (ExprPhrase.trees ds))
      (Visit.exprs (fun _ => true) depth (ExprPhrase.trees ds))) :
    Expr.AllMeet t (ExprPhrase.trees ds) := by
  cases ds with
  | nil => trivial
  | cons d ds => exact ⟨d.meets h.left, ExprPhrase.allMeet ds h.right⟩
termination_by structural ds

theorem StmtPhrase.meets (d : StmtPhrase) {depth : Nat}
    (h : t.Admits d.tree.faults (Visit.stmt (fun _ => true) depth d.tree)) : d.tree.Meets t := by
  cases d with
  | set word target value stop =>
    have hvalue : t.Admits value.tree.faults (Visit.expr (fun _ => true) (depth + 1) value.tree) :=
      h.below.mono (List.Subset.refl _) (List.subset_append_right _ _)
    refine ⟨fun hmissing => ?_, value.meets hvalue⟩
    rw [value.isMissing_tree] at hmissing
    obtain hnone | hmissing := hmissing
    · cases hnone
    · cases hmissing
  | branch word condition body stop =>
    have hparts := h.below.left
    refine ⟨fun hmissing => ?_, condition.meets hparts.left, StmtPhrase.allMeet body hparts.right.below,
      trivial⟩
    rw [condition.isMissing_tree] at hmissing
    cases hmissing
  | branchElse word condition thenBody middle elseBody stop =>
    have hparts := h.below.left
    refine ⟨fun hmissing => ?_, condition.meets hparts.left,
      StmtPhrase.allMeet thenBody hparts.right.below, StmtPhrase.allMeet elseBody h.below.right.below⟩
    rw [condition.isMissing_tree] at hmissing
    cases hmissing
  | times word count body stop =>
    exact ⟨by rintro ⟨⟩, count.countMeets h.below.left _, StmtPhrase.allMeet body h.below.right.below⟩
  | forever word body stop =>
    have hbody : t.Admits (Stmt.faultsIn (StmtPhrase.trees body))
        (Visit.stmts (fun _ => true) (depth + 2) (StmtPhrase.trees body)) :=
      h.below.mono (List.Subset.refl _)
        (List.subset_append_of_subset_right _ (List.subset_cons_self _ _))
    exact ⟨by rintro ⟨⟩, h.endless, StmtPhrase.allMeet body hbody⟩
  | call opener callee args close =>
    refine ⟨h.site, fun hmissing => ?_, callee.meets h.below.left, ExprPhrase.allMeet args h.below.right⟩
    rw [callee.isMissing_tree] at hmissing
    cases hmissing
termination_by structural d

theorem StmtPhrase.allMeet (ds : List StmtPhrase) {depth : Nat}
    (h : t.Admits (Stmt.faultsIn (StmtPhrase.trees ds))
      (Visit.stmts (fun _ => true) depth (StmtPhrase.trees ds))) :
    Stmt.AllMeet t (StmtPhrase.trees ds) := by
  cases ds with
  | nil => trivial
  | cons d ds => exact ⟨⟨h.stands _, d.meets h.left⟩, StmtPhrase.allMeet ds h.right⟩
termination_by structural ds

end

end Phrases

theorem Program.meets_of_read {source : Bytes} {p : Program} (hread : Program.read source = .ok p)
    {t : Terms} (h : t.Admits p.faults ((Node.program p).walk fun _ => true)) : Stmt.AllMeet t p.body := by
  obtain ⟨ts, body, -, -, -, rfl⟩ := Program.read_derives hread
  exact StmtPhrase.allMeet body h.below

theorem Program.read_meets {source : Bytes} {p : Program} (h : Program.read source = .ok p) :
    Stmt.AllMeet (.ofFaults p.faults) p.body := by
  refine Program.meets_of_read h ⟨trivial, fun _ => trivial, fun d hd hkind _ => ?_, fun _ _ => trivial⟩
  have hkind : d.cause.kind = .invalidConstruct := hkind
  exact .inr ⟨by rw [hkind]; rintro ⟨⟩, fun _ => hd⟩

/-- Nothing internal has failed, and if a construct is invalid then it is one of the program's faults. -/
def Failure.IsFaultOf (p : Program) (f : Failure) : Prop :=
  ∀ d, f.diagnostic? = some d → d.kind ≠ .internal ∧ (d.kind = .invalidConstruct → d ∈ p.faults)

theorem Failure.Permitted.isFaultOf {p : Program} {f : Failure}
    (h : f.Permitted (.ofFaults p.faults)) (hstale : f.isStale = false) : f.IsFaultOf p := by
  intro d hd
  refine (h d hd).resolve_left fun hcause => ?_
  rw [Failure.isStale, hd, Option.any_some, hcause] at hstale
  cases hstale

theorem Failure.diagnostic?_placedAt {f : Failure} {span : Span} {d : Diagnostic}
    (h : (f.placedAt span).diagnostic? = some d) :
    ∃ d', f.diagnostic? = some d' ∧ d'.cause = d.cause := by
  rw [placedAt] at h
  split at h
  · next d' hd' =>
    split at h
    · cases h
      exact ⟨d', hd', rfl⟩
    · exact ⟨d, h, rfl⟩
  · exact ⟨d, h, rfl⟩

section Primitives

theorem primitives_kind {n : Native} {s : Store} {scope : ScopeId} {args : List Value}
    {written : Array Bytes} {f : Failure} {d : Diagnostic}
    (h : (primitives n s scope args written).result = .error f) (hd : f.diagnostic? = some d) :
    d.kind = .badType ∨ d.kind = .arithmetic := by
  obtain ⟨cause, span⟩ := d
  obtain ⟨-, p, hp⟩ := primitives_refuses h hd
  cases hp with
  | zero => exact .inr rfl
  | operands | count => exact .inl rfl

theorem allowsPrimitives_ofFaults (faults : List Diagnostic) :
    (Terms.ofFaults faults).AllowsPrimitives := by
  intro n s scope args written f span _ h d hd
  obtain ⟨d', hd', hcause⟩ := Failure.diagnostic?_placedAt hd
  have hkind := primitives_kind h hd'
  rw [Diagnostic.kind, hcause] at hkind
  refine .inr ⟨fun hinternal => ?_, fun hinvalid => ?_⟩
  · rw [hinternal] at hkind
    simp at hkind
  · rw [hinvalid] at hkind
    simp at hkind

end Primitives

theorem Failure.Due.isFaultOf {p : Program} {f : Failure} (h : f.Due (.ofFaults p.faults)) :
    f.IsFaultOf p :=
  h.permitted.isFaultOf h.current

section Runs

variable {r : Realm} {p : Program} {setting : Setting} {scope : ScopeId} {w : World}

end Runs

def Stop.IsFaultOf (p : Program) : Stop → Prop
  | .failure f => f.IsFaultOf p
  | .noProgram | .outOfSteps => True

theorem Stop.Due.isFaultOf {p : Program} {stop : Stop} (h : stop.Due (.ofFaults p.faults)) :
    stop.IsFaultOf p := by
  cases stop with
  | failure f => exact Failure.Due.isFaultOf h
  | noProgram | outOfSteps => trivial

namespace Live

section Sessions

variable {o : SessionOptions} {r : Realm} {source : Bytes} {p : Program} {l : Live}

/-- What such a session is made in: its text can be read, and its realm has the faults of the text. -/
structure Suits (o : SessionOptions) (r : Realm) (source : Bytes) (p : Program) : Prop where
  read : Program.read source = .ok p
  host : o.setting.host = primitives
  terms : r.terms = .ofFaults p.faults
  root : r.home o.root
  seeds : ∀ entry ∈ o.seeds.entries, entry.2.isScalar = true

namespace Suits

theorem serves (h : Suits o r source p) : Serves o r source p where
  read := h.read
  host := h.host
  meets := h.terms ▸ Program.read_meets h.read
  allows := h.terms ▸ allowsPrimitives_ofFaults p.faults
  root := h.root
  seeds := h.seeds

theorem reaches (h : Suits o r source p) {w : World} (hw : r.Upholds w.store) {l : Live}
    (hreach : (o.start w).ReachesOn source l) : l.Sound o r source :=
  h.serves.reaches hw hreach

theorem isFaultOf (h : Suits o r source p) {stop : Stop} (hstop : stop.Due r.terms) :
    stop.IsFaultOf p :=
  Stop.Due.isFaultOf (h.terms ▸ hstop)

theorem step_stop (h : Suits o r source p) {l : Live} (hl : l.Sound o r source) {stop : Stop} {l' : Live}
    (hstep : Session.step l = .error stop l') : stop.IsFaultOf p :=
  h.isFaultOf (h.serves.step_stop hl hstep)

theorem evaluate_stop (h : Suits o r source p) {l : Live} (hl : l.Sound o r source) {stop : Stop}
    {l' : Live} (hrun : Session.evaluate l = .error stop l') : stop.IsFaultOf p :=
  h.isFaultOf (h.serves.evaluate_stop hl hrun)

theorem check_stop (h : Suits o r source p) {l : Live} (hl : l.Sound o r source) {stop : Stop}
    {l' : Live} (hcheck : Session.check l = .error stop l') : stop.IsFaultOf p :=
  h.isFaultOf (h.serves.check_stop hl hcheck)

end Suits

end Sessions

end Live

end Stepwise
