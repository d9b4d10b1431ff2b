import Stepwise.Manifest
import Stepwise.Proofs.Partition

/-! Symbols. What may stand as a name is told by a test on bytes, and by the scanner when it comes to a
word; the two are one. So the names that manifests bind are the names that programs can have in them. -/

namespace Stepwise

/-- A token with nothing before it but the text that has been scanned. -/
theorem Laid.next {before raw rest : Bytes} {kind : TokenKind} {ts : List Token} (hkind : kind ≠ .eof)
    (hspells : kind.Spells raw) (hrest : kind.isOpenEnded → Bounded rest)
    (h : Laid (before ++ raw) rest ts) : Laid before (raw ++ rest) (.following before kind raw :: ts) := by
  have hbefore : Laid (before ++ [] ++ raw) rest ts := by rwa [List.append_nil]
  have hlaid := Laid.token .nil hkind hspells hrest hbefore
  rwa [List.nil_append, List.append_nil] at hlaid

theorem laid_nil (before : Bytes) : Laid before [] [] := .ending (.inl .nil)

theorem laid_symbol {name : Name} (h : isSymbol name) : Laid [] name [.following [] .ident name] := by
  have hname : Laid [] (name ++ []) [.following [] .ident name] :=
    .next (by decide) h (fun _ => rfl) (laid_nil name)
  rwa [List.append_nil] at hname

theorem scan_symbol {name : Name} (h : isSymbol name) :
    (scan name).map Tokens.toList = .ok [.following [] .ident name, .following name .eof []] := by
  have hscan : scan name = .ok ⟨[.following [] .ident name], .following name .eof []⟩ :=
    (laid_symbol h).scan
  rw [hscan]
  rfl

/-- A name between parentheses. -/
def callOf (name : Name) : Bytes := 40 :: (name ++ [41])

theorem laid_callOf {name : Name} (h : isSymbol name) :
    Laid [] (callOf name)
      [.following [] .lparen [40], .following [40] .ident name, .following (40 :: name) .rparen [41]] := by
  have hlparen {rest : Bytes} : TokenKind.lparen.isOpenEnded → Bounded rest :=
    fun h => absurd h Bool.false_ne_true
  have hrparen {rest : Bytes} : TokenKind.rparen.isOpenEnded → Bounded rest :=
    fun h => absurd h Bool.false_ne_true
  have hclose : Laid (40 :: name) ([41] ++ []) [.following (40 :: name) .rparen [41]] :=
    .next (by decide) rfl hrparen (laid_nil _)
  have hname : Laid [40] (name ++ [41]) (.following [40] .ident name :: _) :=
    .next (by decide) h (fun _ => rfl) hclose
  have hopen : Laid [] ([40] ++ (name ++ [41])) (.following [] .lparen [40] :: _) :=
    .next (by decide) rfl hlparen hname
  exact hopen

/-- Every symbol is a name in some program. -/
theorem exists_read_of_isSymbol {name : Name} (h : isSymbol name) :
    ∃ source p, Program.read source = .ok p ∧ name ∈ p.names := by
  let opener : TokenOf .lparen := ⟨.following [] .lparen [40], rfl, rfl⟩
  let symbol : TokenOf .ident := ⟨.following [40] .ident name, rfl, h⟩
  let close : TokenOf .rparen := ⟨.following (40 :: name) .rparen [41], rfl, rfl⟩
  let d : StmtPhrase := .call opener (.atom (.symbol symbol)) [] close
  have hbody : StmtPhrase.AllAdmissible [d] := ⟨⟨trivial, trivial⟩, trivial⟩
  exact ⟨callOf name, _, Program.read_yields (laid_callOf h).scan rfl hbody, List.mem_cons_self⟩

namespace RawManifest

theorem binding_issue_iff (name other : Name) (v : ConfigValue) :
    issueOf (binding other v) = some (.bindingName name) ↔ other = name ∧ isSymbol name = false := by
  rw [binding]
  by_cases h : isSymbol other
  · simp only [h, Bool.not_true]
    constructor
    · intro hissue
      cases hv : v.toValue <;> simp [hv, issueOf] at hissue
    · rintro ⟨rfl, hname⟩
      rw [h] at hname
      cases hname
  · rw [Bool.not_eq_true] at h
    simp only [h, Bool.not_false, if_true, issueOf, Option.some_inj, ManifestIssue.bindingName.injEq]
    constructor
    · rintro rfl
      exact ⟨rfl, h⟩
    · exact And.left

/-- A manifest is told of every name it binds that is no symbol, and of no other name. -/
theorem bindingName_mem_issues (raw : RawManifest) (name : Name) :
    .bindingName name ∈ raw.issues ↔
      (∃ v, (name, v) ∈ raw.bindings.entries) ∧ isSymbol name = false := by
  have horigin : ManifestIssue.bindingName name ∉ originIssues raw.program.trim raw.spec := by
    unfold originIssues
    split <;> simp
  have hreset : ManifestIssue.bindingName name ∉ resetIssues raw.reset.trim := by
    rw [resetIssues]
    split <;> simp
  have hdelay : ManifestIssue.bindingName name ∉ (issueOf (delayOf raw.stepDelay.trim)).toList := by
    intro h
    rw [Option.mem_toList, delayOf] at h
    split at h
    · cases h
    split at h
    · cases h
    split at h <;> cases h
  have hsteps : ManifestIssue.bindingName name ∉
      (if raw.maxSteps < 0 then [ManifestIssue.negativeSteps] else []) := by
    split <;> simp
  simp only [issues, List.mem_append, horigin, hreset, hdelay, hsteps, or_false, false_or,
    List.mem_filterMap, judgedBindings, List.mem_map, Bindings.sorted, List.mem_mergeSort]
  constructor
  · rintro ⟨_, ⟨⟨other, v⟩, hmem, rfl⟩, hissue⟩
    obtain ⟨rfl, hname⟩ := (binding_issue_iff name other v).mp hissue
    exact ⟨⟨v, hmem⟩, hname⟩
  · rintro ⟨⟨v, hmem⟩, hname⟩
    exact ⟨_, ⟨⟨name, v⟩, hmem, rfl⟩, (binding_issue_iff name name v).mpr ⟨rfl, hname⟩⟩

theorem isSymbol_of_judge {raw : RawManifest} {path : Path} {m : Manifest} (h : raw.judge path = .ok m)
    {name : Name} {v : Value} (hv : m.bindings.get? name = some v) : isSymbol name := by
  rw [judge] at h
  split at h
  · cases h
    obtain ⟨r, hr, hok⟩ := List.mem_filterMap.mp (Bindings.mem_of_get?_ofList hv)
    obtain ⟨⟨other, v'⟩, -, rfl⟩ := List.mem_map.mp hr
    simp only [binding] at hok
    by_cases hname : isSymbol other
    · cases hvalue : v'.toValue <;> simp [hname, hvalue, Except.toOption] at hok
      exact hok.1 ▸ hname
    · simp [hname, Except.toOption] at hok
  · cases h

/-- A manifest that binds one name. -/
def binds (name : Name) : RawManifest :=
  { blank with program := utf8 "p", bindings := ⟨[(name, .null)], List.nodup_singleton _⟩ }

theorem judge_binds {name : Name} (h : isSymbol name) (path : Path) :
    ∃ m, (binds name).judge path = .ok m ∧ m.bindings.get? name = some .null := by
  have hjudged : (binds name).judgedBindings = [.ok (name, .null)] := by
    simp [judgedBindings, binds, Bindings.sorted, binding, h, ConfigValue.toValue]
  have hissues : (binds name).issues = [] := by
    rw [issues, hjudged]
    rfl
  refine ⟨_, by rw [judge, hissues], ?_⟩
  simp [hjudged, Except.toOption, Bindings.ofList, Bindings.get?_insert]

end RawManifest

/-- A name is a symbol if and only if the scanner takes it for one identifier and nothing else. These
are the names that occur in programs; a manifest may bind them, and is told of every other one. -/
theorem symbols_are_the_names_of_programs (name : Bytes) :
    (isSymbol name ↔ ∃ t eof, (scan name).map Tokens.toList = .ok [t, eof] ∧
      t.kind = .ident ∧ t.raw = name ∧ eof.kind = .eof) ∧
    (isSymbol name ↔ ∃ source p, Program.read source = .ok p ∧ name ∈ p.names) ∧
    (isSymbol name ↔ ∃ (raw : RawManifest) (path : Path) (m : Manifest) (v : Value),
      raw.judge path = .ok m ∧ m.bindings.get? name = some v) ∧
    ∀ raw : RawManifest, .bindingName name ∈ raw.issues ↔
      (∃ v, (name, v) ∈ raw.bindings.entries) ∧
        ¬ ∃ source p, Program.read source = .ok p ∧ name ∈ p.names := by
  have hprograms : isSymbol name ↔ ∃ source p, Program.read source = .ok p ∧ name ∈ p.names := by
    refine ⟨exists_read_of_isSymbol, ?_⟩
    rintro ⟨source, p, hread, hname⟩
    exact (read_proper hread).isSymbol hname
  refine ⟨⟨fun h => ⟨_, _, scan_symbol h, rfl, rfl, rfl⟩, ?_⟩, hprograms, ⟨fun h => ?_, ?_⟩, fun raw => ?_⟩
  · rintro ⟨t, eof, hscan, hkind, hraw, -⟩
    cases hts : scan name with
    | error d =>
      rw [hts] at hscan
      cases hscan
    | ok ts =>
      have hlist : ts.items ++ [ts.eof] = [t] ++ [eof] := by
        rw [hts] at hscan
        exact Except.ok.inj hscan
      have hmem : t ∈ ts.items := by
        rw [(List.append_inj' hlist rfl).1]
        exact List.mem_singleton_self t
      have hspelled : t.kind.Spells t.raw := scanFrom_spelled .origin name hts t hmem
      rwa [hkind, hraw] at hspelled
  · obtain ⟨m, hjudge, hbound⟩ := RawManifest.judge_binds h []
    exact ⟨_, [], m, _, hjudge, hbound⟩
  · rintro ⟨raw, path, m, v, hjudge, hbound⟩
    exact RawManifest.isSymbol_of_judge hjudge hbound
  · rw [RawManifest.bindingName_mem_issues, ← hprograms, Bool.not_eq_true]

end Stepwise
