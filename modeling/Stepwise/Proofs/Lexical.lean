import Mathlib.Data.List.Nodup
import Stepwise.Proofs.Derivation
import Stepwise.Proofs.Moments
import Stepwise.Proofs.Names

/-! What is written in a program: its statements, its functions, and the names that the bodies around
a function bind. No two statements of a program that has been read start at the same place, and no
two functions do. -/

namespace Stepwise

/-- The names that a call of a function can bind in its own scope. -/
def Literal.bound (l : Literal) : List Name := l.paramNames ++ l.body.assigned

mutual

/-- The statements of a tree, in the bodies of functions as well. -/
def Expr.stmts : Expr → List Stmt
  | .call _ callee args => callee.stmts ++ Expr.stmtsOf args
  | .function _ _ body => body.stmts
  | .missing | .symbol _ | .number _ _ | .boolean _ _ | .null _ | .string _ _ | .forever _ => []

def Expr.stmtsOf : List Expr → List Stmt
  | [] => []
  | e :: es => e.stmts ++ Expr.stmtsOf es

def Block.stmts : Block → List Stmt
  | .missing => []
  | .of _ body => Stmt.stmtsOf body

def Stmt.stmts : Stmt → List Stmt
  | .missing => [.missing]
  | .set span target value => .set span target value :: value.stmts
  | .branch span condition thenBlock elseBlock =>
    .branch span condition thenBlock elseBlock ::
      (condition.stmts ++ (thenBlock.stmts ++ elseBlock.stmts))
  | .times span count body => .times span count body :: (count.stmts ++ body.stmts)
  | .call span callee args => .call span callee args :: (callee.stmts ++ Expr.stmtsOf args)

def Stmt.stmtsOf : List Stmt → List Stmt
  | [] => []
  | s :: rest => s.stmts ++ Stmt.stmtsOf rest

end

mutual

/-- The functions of a tree, each with the names that the bodies around it bind. -/
def Expr.functions (around : List Name) : Expr → List (Literal × List Name)
  | .call _ callee args => callee.functions around ++ Expr.functionsOf around args
  | .function span params body =>
    (⟨span, params, body⟩, around) ::
      body.functions (Literal.bound ⟨span, params, body⟩ ++ around)
  | .missing | .symbol _ | .number _ _ | .boolean _ _ | .null _ | .string _ _ | .forever _ => []

def Expr.functionsOf (around : List Name) : List Expr → List (Literal × List Name)
  | [] => []
  | e :: es => e.functions around ++ Expr.functionsOf around es

def Block.functions (around : List Name) : Block → List (Literal × List Name)
  | .missing => []
  | .of _ body => Stmt.functionsOf around body

def Stmt.functions (around : List Name) : Stmt → List (Literal × List Name)
  | .missing => []
  | .set _ _ value => value.functions around
  | .branch _ condition thenBlock elseBlock =>
    condition.functions around ++ (thenBlock.functions around ++ elseBlock.functions around)
  | .times _ count body => count.functions around ++ body.functions around
  | .call _ callee args => callee.functions around ++ Expr.functionsOf around args

def Stmt.functionsOf (around : List Name) : List Stmt → List (Literal × List Name)
  | [] => []
  | s :: rest => s.functions around ++ Stmt.functionsOf around rest

end

section Nested

variable {l : Literal} {names : List Name}

mutual

/-- What is written in a function of a tree is written in the tree. -/
theorem Expr.functions_nested (e : Expr) {around : List Name} (h : (l, names) ∈ e.functions around) :
    l.body.functions (l.bound ++ names) ⊆ e.functions around := by
  cases e with
  | call span callee args =>
    rw [Expr.functions] at h ⊢
    obtain h | h := List.mem_append.mp h
    · exact List.subset_append_of_subset_left _ (callee.functions_nested h)
    · exact List.subset_append_of_subset_right _ (Expr.functionsOf_nested args h)
  | function span params body =>
    rw [Expr.functions] at h ⊢
    obtain h | h := List.mem_cons.mp h
    · cases h
      exact List.subset_cons_self _ _
    · exact List.subset_cons_of_subset _ (body.functions_nested h)
  | missing | symbol | number | boolean | null | string | forever =>
    rw [Expr.functions] at h
    cases h
termination_by structural e

theorem Expr.functionsOf_nested (es : List Expr) {around : List Name}
    (h : (l, names) ∈ Expr.functionsOf around es) :
    l.body.functions (l.bound ++ names) ⊆ Expr.functionsOf around es := by
  cases es with
  | nil => cases h
  | cons e es =>
    rw [Expr.functionsOf] at h ⊢
    obtain h | h := List.mem_append.mp h
    · exact List.subset_append_of_subset_left _ (e.functions_nested h)
    · exact List.subset_append_of_subset_right _ (Expr.functionsOf_nested es h)
termination_by structural es

theorem Block.functions_nested (b : Block) {around : List Name} (h : (l, names) ∈ b.functions around) :
    l.body.functions (l.bound ++ names) ⊆ b.functions around := by
  cases b with
  | missing => cases h
  | of span body =>
    rw [Block.functions] at h ⊢
    exact Stmt.functionsOf_nested body h
termination_by structural b

theorem Stmt.functions_nested (s : Stmt) {around : List Name} (h : (l, names) ∈ s.functions around) :
    l.body.functions (l.bound ++ names) ⊆ s.functions around := by
  cases s with
  | missing => cases h
  | set span target value =>
    rw [Stmt.functions] at h ⊢
    exact value.functions_nested h
  | branch span condition thenBlock elseBlock =>
    rw [Stmt.functions] at h ⊢
    obtain h | h := List.mem_append.mp h
    · exact List.subset_append_of_subset_left _ (condition.functions_nested h)
    · refine List.subset_append_of_subset_right _ ?_
      obtain h | h := List.mem_append.mp h
      · exact List.subset_append_of_subset_left _ (thenBlock.functions_nested h)
      · exact List.subset_append_of_subset_right _ (elseBlock.functions_nested h)
  | times span count body =>
    rw [Stmt.functions] at h ⊢
    obtain h | h := List.mem_append.mp h
    · exact List.subset_append_of_subset_left _ (count.functions_nested h)
    · exact List.subset_append_of_subset_right _ (body.functions_nested h)
  | call span callee args =>
    rw [Stmt.functions] at h ⊢
    obtain h | h := List.mem_append.mp h
    · exact List.subset_append_of_subset_left _ (callee.functions_nested h)
    · exact List.subset_append_of_subset_right _ (Expr.functionsOf_nested args h)
termination_by structural s

theorem Stmt.functionsOf_nested (body : List Stmt) {around : List Name}
    (h : (l, names) ∈ Stmt.functionsOf around body) :
    l.body.functions (l.bound ++ names) ⊆ Stmt.functionsOf around body := by
  cases body with
  | nil => cases h
  | cons s rest =>
    rw [Stmt.functionsOf] at h ⊢
    obtain h | h := List.mem_append.mp h
    · exact List.subset_append_of_subset_left _ (s.functions_nested h)
    · exact List.subset_append_of_subset_right _ (Stmt.functionsOf_nested rest h)
termination_by structural body

end

mutual

/-- The names in a function of a tree are names in the tree. -/
theorem Expr.functions_names (e : Expr) {around : List Name} (h : (l, names) ∈ e.functions around) :
    l.names ⊆ e.names := by
  cases e with
  | call span callee args =>
    rw [Expr.functions] at h
    obtain h | h := List.mem_append.mp h
    · exact List.subset_append_of_subset_left _ (callee.functions_names h)
    · exact List.subset_append_of_subset_right _ (Expr.functionsOf_names args h)
  | function span params body =>
    rw [Expr.functions] at h
    obtain h | h := List.mem_cons.mp h
    · cases h
      exact List.Subset.refl _
    · exact List.subset_append_of_subset_right _ (body.functions_names h)
  | missing | symbol | number | boolean | null | string | forever =>
    rw [Expr.functions] at h
    cases h
termination_by structural e

theorem Expr.functionsOf_names (es : List Expr) {around : List Name}
    (h : (l, names) ∈ Expr.functionsOf around es) : l.names ⊆ Expr.namesOf es := by
  cases es with
  | nil => cases h
  | cons e es =>
    rw [Expr.functionsOf] at h
    obtain h | h := List.mem_append.mp h
    · exact List.subset_append_of_subset_left _ (e.functions_names h)
    · exact List.subset_append_of_subset_right _ (Expr.functionsOf_names es h)
termination_by structural es

theorem Block.functions_names (b : Block) {around : List Name} (h : (l, names) ∈ b.functions around) :
    l.names ⊆ b.names := by
  cases b with
  | missing => cases h
  | of span body =>
    rw [Block.functions] at h
    exact Stmt.functionsOf_names body h
termination_by structural b

theorem Stmt.functions_names (s : Stmt) {around : List Name} (h : (l, names) ∈ s.functions around) :
    l.names ⊆ s.names := by
  cases s with
  | missing => cases h
  | set span target value =>
    rw [Stmt.functions] at h
    exact List.subset_append_of_subset_right _ (value.functions_names h)
  | branch span condition thenBlock elseBlock =>
    rw [Stmt.functions] at h
    obtain h | h := List.mem_append.mp h
    · exact List.subset_append_of_subset_left _ (condition.functions_names h)
    · refine List.subset_append_of_subset_right _ ?_
      obtain h | h := List.mem_append.mp h
      · exact List.subset_append_of_subset_left _ (thenBlock.functions_names h)
      · exact List.subset_append_of_subset_right _ (elseBlock.functions_names h)
  | times span count body =>
    rw [Stmt.functions] at h
    obtain h | h := List.mem_append.mp h
    · exact List.subset_append_of_subset_left _ (count.functions_names h)
    · exact List.subset_append_of_subset_right _ (body.functions_names h)
  | call span callee args =>
    rw [Stmt.functions] at h
    obtain h | h := List.mem_append.mp h
    · exact List.subset_append_of_subset_left _ (callee.functions_names h)
    · exact List.subset_append_of_subset_right _ (Expr.functionsOf_names args h)
termination_by structural s

theorem Stmt.functionsOf_names (body : List Stmt) {around : List Name}
    (h : (l, names) ∈ Stmt.functionsOf around body) : l.names ⊆ Stmt.namesOf body := by
  cases body with
  | nil => cases h
  | cons s rest =>
    rw [Stmt.functionsOf] at h
    obtain h | h := List.mem_append.mp h
    · exact List.subset_append_of_subset_left _ (s.functions_names h)
    · exact List.subset_append_of_subset_right _ (Stmt.functionsOf_names rest h)
termination_by structural body

end

end Nested

namespace Program

def stmts (p : Program) : List Stmt := Stmt.stmtsOf p.body

def assigned (p : Program) : List Name := Stmt.assignedIn p.body

def functions (p : Program) : List (Literal × List Name) := Stmt.functionsOf p.assigned p.body

theorem names_of_functions {p : Program} {l : Literal} {around : List Name} (h : (l, around) ∈ p.functions) :
    l.names ⊆ p.names :=
  Stmt.functionsOf_names p.body h

end Program

theorem length_advance (c : Cursor) (bytes : Bytes) :
    (c.advance bytes).offset = c.offset + bytes.length := by
  induction bytes generalizing c with
  | nil => rfl
  | cons b bytes ih =>
    have hnext : (c.next b).offset = c.offset + 1 := by
      rw [Cursor.next]
      split <;> rfl
    rw [Cursor.advance, List.foldl_cons, ← Cursor.advance, ih, hnext, List.length_cons]
    omega

def Token.starts (ts : List Token) : List Int := ts.map fun t => t.span.start

/-- Every token starts after the one before it. -/
theorem scanFrom_starts (c : Cursor) (text : Bytes) {ts : Tokens} (h : scanFrom c text = .ok ts) :
    (∀ n ∈ Token.starts ts.items, (c.offset : Int) ≤ n) ∧ (Token.starts ts.items).Pairwise (· < ·) := by
  fun_induction scanFrom c text generalizing ts with
  | case1 =>
    cases h
    exact ⟨fun n hn => absurd hn List.not_mem_nil, .nil⟩
  | case2 => cases h
  | case3 c text skipped here b rest hdrop hlt kind raw hlex past =>
    rename_i ih
    obtain ⟨ts', hts', h⟩ := except_bind_eq_ok h
    cases h
    obtain ⟨hlater, hsorted⟩ := ih hts'
    have hhere : c.offset ≤ here.offset := by
      rw [length_advance]
      exact Nat.le_add_right _ _
    have hraw : 0 < raw.length := List.length_pos_iff.mpr (lexeme_ne_nil hlex)
    have hpast : past.offset = here.offset + raw.length := length_advance here raw
    have hstarts : Token.starts (ts'.push ⟨kind, raw, here.span past⟩).items =
      (here.offset : Int) :: Token.starts ts'.items := rfl
    rw [hstarts]
    refine ⟨fun n hn => ?_, List.pairwise_cons.mpr ⟨fun n hn => ?_, hsorted⟩⟩
    · obtain rfl | hn := List.mem_cons.mp hn
      · exact Int.ofNat_le.mpr hhere
      · have := hlater n hn
        omega
    · have := hlater n hn
      omega

/-- Statements and functions that start, in their order, at some of the tokens. -/
structure Placed (ts : List Token) (ss : List Stmt)
    (fs : List Name → List (Literal × List Name)) : Prop where
  stmts : (ss.map fun s => s.span.start).Sublist (Token.starts ts)
  functions : ∀ around, ((fs around).map fun l => l.1.span.start).Sublist (Token.starts ts)

namespace Placed

variable {t : Token} {ts ts' : List Token} {s : Stmt} {ss ss' : List Stmt}
  {fs fs' : List Name → List (Literal × List Name)}

theorem nil (ts : List Token) : Placed ts [] fun _ => [] :=
  ⟨List.nil_sublist _, fun _ => List.nil_sublist _⟩

theorem skip (h : Placed ts ss fs) : Placed (t :: ts) ss fs :=
  ⟨h.stmts.cons _, fun around => (h.functions around).cons _⟩

theorem append (h : Placed ts ss fs) (h' : Placed ts' ss' fs') :
    Placed (ts ++ ts') (ss ++ ss') fun around => fs around ++ fs' around where
  stmts := by
    rw [Token.starts, List.map_append, List.map_append]
    exact h.stmts.append h'.stmts
  functions around := by
    rw [Token.starts, List.map_append, List.map_append]
    exact (h.functions around).append (h'.functions around)

theorem before (h : Placed ts ss fs) (ts' : List Token) : Placed (ts ++ ts') ss fs := by
  have hboth := h.append (nil ts')
  simpa only [List.append_nil] using hboth

theorem stmt (h : Placed ts ss fs) (hs : s.span.start = t.span.start) :
    Placed (t :: ts) (s :: ss) fs where
  stmts := by
    rw [List.map_cons, hs]
    exact h.stmts.cons_cons _
  functions around := (h.functions around).cons _

theorem function {l : Literal} (h : Placed ts ss fs) (hl : l.span.start = t.span.start)
    (inner : List Name → List Name) :
    Placed (t :: ts) ss fun around => (l, around) :: fs (inner around) where
  stmts := h.stmts.cons _
  functions around := by
    rw [List.map_cons, hl]
    exact (h.functions (inner around)).cons_cons _

end Placed

theorem Atom.placed (a : Atom) : Placed [a.token] a.tree.stmts a.tree.functions := by
  cases a with
  | number | string | yes | no | null | symbol | forever =>
    simp only [tree, Expr.stmts, Expr.functions]
    exact .nil _

mutual

theorem ExprPhrase.placed (d : ExprPhrase) : Placed d.tokens d.tree.stmts d.tree.functions := by
  cases d with
  | atom a =>
    rw [ExprPhrase.tokens, ExprPhrase.tree]
    exact a.placed
  | call opener callee args close =>
    simp only [ExprPhrase.tokens, ExprPhrase.tree, Expr.stmts, Expr.functions]
    exact .skip (callee.placed.append ((ExprPhrase.placedAll args).before _))
  | function word opener params close body stop =>
    simp only [ExprPhrase.tokens, ExprPhrase.tree, Expr.stmts, Expr.functions, blockBefore, Block.stmts,
      Block.functions]
    have hbody : Placed (opener.token :: (params.map TokenOf.token ++
        close.token :: (StmtPhrase.tokensOf body ++ [stop.token]))) _ _ :=
      .skip ((Placed.nil _).append (.skip ((StmtPhrase.placedAll body).before _)))
    exact hbody.function rfl fun around => Literal.bound _ ++ around
termination_by structural d

theorem ExprPhrase.placedAll (ds : List ExprPhrase) : Placed (ExprPhrase.tokensOf ds)
    (Expr.stmtsOf (ExprPhrase.trees ds))
    (fun around => Expr.functionsOf around (ExprPhrase.trees ds)) := by
  cases ds with
  | nil =>
    simp only [ExprPhrase.trees, Expr.stmtsOf, Expr.functionsOf]
    exact .nil _
  | cons d ds =>
    simp only [ExprPhrase.tokensOf, ExprPhrase.trees, Expr.stmtsOf, Expr.functionsOf]
    exact d.placed.append (ExprPhrase.placedAll ds)
termination_by structural ds

theorem StmtPhrase.placed (d : StmtPhrase) : Placed d.tokens d.tree.stmts d.tree.functions := by
  cases d with
  | set word target value stop =>
    simp only [StmtPhrase.tokens, StmtPhrase.tree, Stmt.stmts, Stmt.functions]
    exact .stmt (.skip (value.placed.before _)) rfl
  | branch word condition body stop =>
    simp only [StmtPhrase.tokens, StmtPhrase.tree, Stmt.stmts, Stmt.functions, blockBefore, Block.stmts,
      Block.functions]
    exact .stmt (condition.placed.append ((StmtPhrase.placedAll body).append (.nil _))) rfl
  | branchElse word condition thenBody middle elseBody stop =>
    simp only [StmtPhrase.tokens, StmtPhrase.tree, Stmt.stmts, Stmt.functions, blockBefore, Block.stmts,
      Block.functions]
    exact .stmt (condition.placed.append ((StmtPhrase.placedAll thenBody).append
      (.skip ((StmtPhrase.placedAll elseBody).before _)))) rfl
  | times word count body stop =>
    simp only [StmtPhrase.tokens, StmtPhrase.tree, Stmt.stmts, Stmt.functions, blockBefore, Block.stmts,
      Block.functions]
    exact .stmt (count.placed.append ((StmtPhrase.placedAll body).before _)) rfl
  | forever word body stop =>
    simp only [StmtPhrase.tokens, StmtPhrase.tree, Stmt.stmts, Stmt.functions, blockBefore, Block.stmts,
      Block.functions, Expr.stmts, Expr.functions, List.nil_append]
    exact .stmt ((StmtPhrase.placedAll body).before _) rfl
  | call opener callee args close =>
    simp only [StmtPhrase.tokens, StmtPhrase.tree, Stmt.stmts, Stmt.functions]
    exact .stmt (callee.placed.append ((ExprPhrase.placedAll args).before _)) rfl
termination_by structural d

theorem StmtPhrase.placedAll (ds : List StmtPhrase) : Placed (StmtPhrase.tokensOf ds)
    (Stmt.stmtsOf (StmtPhrase.trees ds))
    (fun around => Stmt.functionsOf around (StmtPhrase.trees ds)) := by
  cases ds with
  | nil =>
    simp only [StmtPhrase.trees, Stmt.stmtsOf, Stmt.functionsOf]
    exact .nil _
  | cons d ds =>
    simp only [StmtPhrase.tokensOf, StmtPhrase.trees, Stmt.stmtsOf, Stmt.functionsOf]
    exact d.placed.append (StmtPhrase.placedAll ds)
termination_by structural ds

end

namespace Program

variable {source : Bytes} {p : Program}

theorem read_placed (h : read source = .ok p) :
    ∃ ts, (Token.starts ts).Pairwise (· < ·) ∧ Placed ts p.stmts fun _ => p.functions := by
  obtain ⟨ts, body, hts, htokens, -, rfl⟩ := read_derives h
  have hbody := StmtPhrase.placedAll body
  rw [← htokens] at hbody
  exact ⟨ts.items, (scanFrom_starts .origin source hts).2, hbody.stmts, fun _ => hbody.functions _⟩

/-- No two statements of a program that has been read start at the same place. -/
theorem read_starts_nodup (h : read source = .ok p) : (p.stmts.map fun s => s.span.start).Nodup := by
  obtain ⟨ts, hsorted, hplaced⟩ := read_placed h
  exact (hsorted.imp Int.ne_of_lt).sublist hplaced.stmts

theorem read_stmts_nodup (h : read source = .ok p) : p.stmts.Nodup :=
  List.Nodup.of_map _ (read_starts_nodup h)

/-- The functions of a program that has been read are different ones. -/
theorem read_functions_injective (h : read source = .ok p) {l : Literal} {around around' : List Name}
    (hl : (l, around) ∈ p.functions) (hl' : (l, around') ∈ p.functions) : around = around' := by
  obtain ⟨ts, hsorted, hplaced⟩ := read_placed h
  have hnodup := (hsorted.imp Int.ne_of_lt).sublist (hplaced.functions [])
  exact congrArg Prod.snd (List.inj_on_of_nodup_map hnodup hl hl' rfl)

end Program

namespace Task

def functions (around : List Name) : Task → List (Literal × List Name)
  | .body stmts => Stmt.functionsOf around stmts
  | .stmt s => s.functions around
  | .block b | .loop b _ => b.functions around
  | .expr e => e.functions around
  | .args es => Expr.functionsOf around es
  | .closure c => c.literal.body.functions around

/-- The names it can assign in the scope it runs in. -/
def assigned : Task → List Name
  | .body stmts => Stmt.assignedIn stmts
  | .stmt s => s.assigned
  | .block b | .loop b _ => b.assigned
  | .expr _ | .args _ => []
  | .closure c => c.literal.body.assigned

/-- One task is a part of another in the same body. -/
structure PartOf (t u : Task) : Prop where
  functions : ∀ around, t.functions around ⊆ u.functions around
  assigned : t.assigned ⊆ u.assigned

theorem PartOf.refl (t : Task) : t.PartOf t := ⟨fun _ => List.Subset.refl _, List.Subset.refl _⟩

section Parts

variable {span : Span} {s : Stmt} {rest body : List Stmt} {x : Symbol} {e c callee : Expr}
  {es args : List Expr} {t b : Block} {frame frame' : LoopFrame}

theorem first_partOf : (stmt s).PartOf (.body (s :: rest)) where
  functions around := by
    simp only [functions, Stmt.functionsOf]
    exact List.subset_append_left _ _
  assigned := by
    simp only [Task.assigned, Stmt.assignedIn]
    exact List.subset_append_left _ _

theorem next_partOf : (Task.body rest).PartOf (.body (s :: rest)) where
  functions around := by
    simp only [functions, Stmt.functionsOf]
    exact List.subset_append_right _ _
  assigned := by
    simp only [Task.assigned, Stmt.assignedIn]
    exact List.subset_append_right _ _

theorem body_partOf : (Task.body body).PartOf (.block (.of span body)) where
  functions around := by
    simp only [functions, Block.functions]
    exact List.Subset.refl _
  assigned := by
    simp only [Task.assigned, Block.assigned]
    exact List.Subset.refl _

theorem value_partOf : (expr e).PartOf (.stmt (.set span (some x) e)) where
  functions around := by
    simp only [functions, Stmt.functions]
    exact List.Subset.refl _
  assigned := List.nil_subset _

theorem condition_partOf : (expr c).PartOf (.stmt (.branch span c t b)) where
  functions around := by
    simp only [functions, Stmt.functions]
    exact List.subset_append_left _ _
  assigned := List.nil_subset _

theorem then_partOf : (block t).PartOf (.stmt (.branch span c t b)) where
  functions around := by
    simp only [functions, Stmt.functions]
    exact List.subset_append_of_subset_right _ (List.subset_append_left _ _)
  assigned := by
    simp only [Task.assigned, Stmt.assigned]
    exact List.subset_append_left _ _

theorem else_partOf : (block b).PartOf (.stmt (.branch span c t b)) where
  functions around := by
    simp only [functions, Stmt.functions]
    exact List.subset_append_of_subset_right _ (List.subset_append_right _ _)
  assigned := by
    simp only [Task.assigned, Stmt.assigned]
    exact List.subset_append_right _ _

theorem count_partOf : (expr e).PartOf (.stmt (.times span e b)) where
  functions around := by
    simp only [functions, Stmt.functions]
    exact List.subset_append_left _ _
  assigned := List.nil_subset _

theorem loop_partOf : (loop b frame).PartOf (.stmt (.times span e b)) where
  functions around := by
    simp only [functions, Stmt.functions]
    exact List.subset_append_right _ _
  assigned := by
    simp only [Task.assigned, Stmt.assigned]
    exact List.Subset.refl _

theorem round_partOf : (block b).PartOf (.stmt (.times span e b)) where
  functions around := by
    simp only [functions, Stmt.functions]
    exact List.subset_append_right _ _
  assigned := by
    simp only [Task.assigned, Stmt.assigned]
    exact List.Subset.refl _

theorem pass_partOf : (block b).PartOf (.loop b frame) :=
  ⟨fun _ => List.Subset.refl _, List.Subset.refl _⟩

theorem again_partOf : (loop b frame').PartOf (.loop b frame) :=
  ⟨fun _ => List.Subset.refl _, List.Subset.refl _⟩

theorem call_partOf : (expr (.call span callee args)).PartOf (.stmt (.call span callee args)) where
  functions around := by
    simp only [functions, Stmt.functions, Expr.functions]
    exact List.Subset.refl _
  assigned := List.nil_subset _

theorem callee_partOf : (expr callee).PartOf (.expr (.call span callee args)) where
  functions around := by
    simp only [functions, Expr.functions]
    exact List.subset_append_left _ _
  assigned := List.nil_subset _

theorem args_partOf : (Task.args args).PartOf (.expr (.call span callee args)) where
  functions around := by
    simp only [functions, Expr.functions]
    exact List.subset_append_right _ _
  assigned := List.nil_subset _

theorem arg_partOf : (expr e).PartOf (.args (e :: es)) where
  functions around := by
    simp only [functions, Expr.functionsOf]
    exact List.subset_append_left _ _
  assigned := List.nil_subset _

theorem nextArg_partOf : (Task.args es).PartOf (.args (e :: es)) where
  functions around := by
    simp only [functions, Expr.functionsOf]
    exact List.subset_append_right _ _
  assigned := List.nil_subset _

theorem inside_partOf {c : Closure} : (block c.literal.body).PartOf (.closure c) :=
  ⟨fun _ => List.Subset.refl _, List.Subset.refl _⟩

end Parts

end Task

end Stepwise
