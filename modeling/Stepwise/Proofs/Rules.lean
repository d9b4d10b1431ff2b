import Mathlib
import Stepwise.Manifest

/-! The rules of manifests. A manifest is accepted when it breaks none of them, and what it binds is then
what its values convert to. Otherwise every rule that it breaks is told once, in the order of the rules and
of the names that are bound, in whatever order the bindings come. -/

namespace Stepwise

namespace Bindings

variable {α : Type} {b b' : Bindings α} {name : Name} {a : α} {entries : List (Name × α)}

theorem lookup_eq_some_iff (h : (entries.map Prod.fst).Nodup) :
    entries.lookup name = some a ↔ (name, a) ∈ entries := by
  induction entries with
  | nil => simp
  | cons entry rest ih =>
    obtain ⟨n, x⟩ := entry
    rw [List.map_cons, List.nodup_cons] at h
    by_cases hn : name = n
    · subst hn
      have hrest : (name, a) ∉ rest := fun hmem => h.1 (List.mem_map.mpr ⟨_, hmem, rfl⟩)
      simp [hrest, eq_comm]
    · simp [List.lookup_cons, beq_eq_false_iff_ne.mpr hn, ih h.2, hn]

theorem get?_eq_some_iff : b.get? name = some a ↔ (name, a) ∈ b.entries :=
  lookup_eq_some_iff b.distinct

theorem insertEntry_of_notMem (h : name ∉ entries.map Prod.fst) (a : α) :
    insertEntry name a entries = entries ++ [(name, a)] := by
  induction entries with
  | nil => rfl
  | cons entry rest ih =>
    obtain ⟨n, x⟩ := entry
    rw [List.map_cons, List.mem_cons, not_or] at h
    rw [insertEntry, if_neg (Ne.symm h.1), ih h.2, List.cons_append]

theorem entries_foldl (h : ((b.entries ++ entries).map Prod.fst).Nodup) :
    (entries.foldl (fun b (name, a) => b.insert name a) b).entries = b.entries ++ entries := by
  induction entries generalizing b with
  | nil => rw [List.foldl_nil, List.append_nil]
  | cons entry rest ih =>
    obtain ⟨n, x⟩ := entry
    have hn : n ∉ b.entries.map Prod.fst := by
      rw [List.map_append, List.nodup_append] at h
      exact fun hmem => h.2.2 n hmem n List.mem_cons_self rfl
    have hinsert : (b.insert n x).entries = b.entries ++ [(n, x)] := insertEntry_of_notMem hn x
    have happend : (b.insert n x).entries ++ rest = b.entries ++ (n, x) :: rest := by
      rw [hinsert, List.append_assoc, List.singleton_append]
    rw [List.foldl_cons, ih (by rwa [happend]), happend]

theorem entries_ofList (h : (entries.map Prod.fst).Nodup) : (ofList entries).entries = entries :=
  entries_foldl (b := empty) h

theorem sorted_perm (b : Bindings α) : b.sorted.Perm b.entries := List.mergeSort_perm _ _

theorem le_iff {x y : Name} : Bytes.le x y ↔ x ≤ y := by
  rw [Bytes.le, Bool.not_eq_true', decide_eq_false_iff_not, List.not_lt]

theorem le_trans (x y z : Name) (hxy : Bytes.le x y) (hyz : Bytes.le y z) : Bytes.le x z :=
  le_iff.mpr (List.le_trans (le_iff.mp hxy) (le_iff.mp hyz))

theorem le_total (x y : Name) : Bytes.le x y || Bytes.le y x := by
  rw [Bool.or_eq_true, le_iff, le_iff]
  exact List.le_total x y

theorem sorted_pairwise (b : Bindings α) : b.sorted.Pairwise fun x y => x.1 < y.1 := by
  have hle : b.sorted.Pairwise fun x y => Bytes.le x.1 y.1 :=
    List.pairwise_mergeSort (fun x y z => le_trans x.1 y.1 z.1) (fun x y => le_total x.1 y.1) _
  have hne : b.sorted.Pairwise fun x y => x.1 ≠ y.1 := by
    rw [← List.pairwise_map (f := Prod.fst)]
    exact ((sorted_perm b).map Prod.fst).nodup_iff.mpr b.distinct
  refine (hle.and hne).imp fun {x y} hxy => ?_
  by_contra hlt
  exact hxy.2 (List.le_antisymm (le_iff.mp hxy.1) (List.not_lt.mp hlt))

theorem names_eq_of_perm {β : Type} {c : Bindings β}
    (h : (b.entries.map Prod.fst).Perm (c.entries.map Prod.fst)) : b.names = c.names := by
  have hsorted (names : List Name) : (names.mergeSort Bytes.le).Pairwise fun x y => Bytes.le x y :=
    List.pairwise_mergeSort le_trans le_total names
  refine List.Perm.eq_of_pairwise (fun x y _ _ hxy hyx => ?_) (hsorted _) (hsorted _)
    ((List.mergeSort_perm _ _).trans (h.trans (List.mergeSort_perm _ _).symm))
  exact List.le_antisymm (le_iff.mp hxy) (le_iff.mp hyx)

/-- The order in which bindings come does not count. -/
theorem sorted_eq_of_perm (hperm : b'.entries.Perm b.entries) : b'.sorted = b.sorted := by
  refine List.Perm.eq_of_pairwise (fun x y _ _ hxy hyx => ?_) (sorted_pairwise b') (sorted_pairwise b)
    ((sorted_perm b').trans (hperm.trans (sorted_perm b).symm))
  exact absurd (List.lt_trans hxy hyx) (List.lt_irrefl x.1)

end Bindings

/-- What is wrong with a source whose fields are trimmed. -/
inductive SourceSpec.Breaks (s : SourceSpec) : SourceIssue → Prop
  | noRepository : s.git = [] → Breaks s .noRepository
  | noPath : s.path = [] → Breaks s .noPath
  | outsidePath : s.path ≠ [] → Path.isLocal s.path = false → Breaks s (.outsidePath s.path)
  | manyRevisions : s.rev ≠ [] ∧ s.tag ≠ [] ∨ s.rev ≠ [] ∧ s.branch ≠ [] ∨ s.tag ≠ [] ∧ s.branch ≠ [] →
    Breaks s .manyRevisions

/-- A repository, a path inside it, and no revision or one. -/
structure SourceSpec.Valid (s : SourceSpec) : Prop where
  git : s.git ≠ []
  path : s.path ≠ []
  isLocal : Path.isLocal s.path
  revisions : s.rev = [] ∧ s.tag = [] ∨ s.rev = [] ∧ s.branch = [] ∨ s.tag = [] ∧ s.branch = []

namespace SourceSpec

variable {s : SourceSpec} {issue : SourceIssue}

theorem one_lt_revisions : 1 < s.revisions.length ↔
    s.rev ≠ [] ∧ s.tag ≠ [] ∨ s.rev ≠ [] ∧ s.branch ≠ [] ∨ s.tag ≠ [] ∧ s.branch ≠ [] := by
  rw [revisions]
  cases s.rev <;> cases s.tag <;> cases s.branch <;> simp

theorem mem_issues_iff : issue ∈ s.issues ↔ s.Breaks issue := by
  have hpath : issue ∈ s.pathIssues ↔ s.path = [] ∧ issue = .noPath ∨
      s.path ≠ [] ∧ Path.isLocal s.path = false ∧ issue = .outsidePath s.path := by
    rw [pathIssues]
    by_cases hempty : s.path = []
    · simp [hempty]
    · cases hlocal : Path.isLocal s.path <;> simp [hempty]
  have hmany : issue ∈ (if 1 < s.revisions.length then [SourceIssue.manyRevisions] else []) ↔
      1 < s.revisions.length ∧ issue = .manyRevisions := by
    split_ifs with h <;> simp [h]
  rw [issues, List.mem_append, List.mem_append, hpath, hmany, one_lt_revisions]
  constructor
  · rintro ((hgit | ⟨hempty, rfl⟩ | ⟨hempty, hlocal, rfl⟩) | ⟨hrevisions, rfl⟩)
    · split_ifs at hgit with h
      · obtain rfl := List.mem_singleton.mp hgit
        exact .noRepository (List.isEmpty_iff.mp h)
      · cases hgit
    · exact .noPath hempty
    · exact .outsidePath hempty hlocal
    · exact .manyRevisions hrevisions
  · rintro (h | h | ⟨h, hlocal⟩ | h)
    · simp [h]
    · exact .inl (.inr (.inl ⟨h, rfl⟩))
    · exact .inl (.inr (.inr ⟨h, hlocal, rfl⟩))
    · exact .inr ⟨h, rfl⟩

theorem valid_iff : s.Valid ↔ ∀ issue, ¬ s.Breaks issue := by
  constructor
  · rintro ⟨hgit, hpath, hlocal, hrevisions⟩ issue (h | h | ⟨-, h⟩ | h)
    · exact hgit h
    · exact hpath h
    · rw [h] at hlocal
      cases hlocal
    · tauto
  · intro h
    have hpath : s.path ≠ [] := fun hpath => h _ (.noPath hpath)
    refine ⟨fun hgit => h _ (.noRepository hgit), hpath, ?_, ?_⟩
    · by_contra hlocal
      exact h _ (.outsidePath hpath (Bool.not_eq_true _ ▸ hlocal))
    · by_contra hmany
      refine h _ (.manyRevisions ?_)
      tauto

end SourceSpec

/-- The rules a manifest can break, each with what is told of it. -/
inductive RawManifest.Breaks (raw : RawManifest) : ManifestIssue → Prop
  | nothingToRun : raw.program.trim = [] → raw.source = none → Breaks raw .nothingToRun
  | tooMuchToRun : raw.program.trim ≠ [] → raw.source.isSome → Breaks raw .tooMuchToRun
  | source {s : SourceSpec} {issue : SourceIssue} : raw.program.trim = [] → raw.source = some s →
    s.trimmed.Breaks issue → Breaks raw (.source issue)
  | bindingName {name : Name} {v : ConfigValue} : raw.bindings.get? name = some v →
    isSymbol name = false → Breaks raw (.bindingName name)
  | bindingValue {name : Name} {v : ConfigValue} {reason : Bytes} : raw.bindings.get? name = some v →
    isSymbol name → v.toValue = .error reason → Breaks raw (.bindingValue name reason)
  | reset : raw.reset.trim ∉ [[], utf8 "location", utf8 "namespace"] → Breaks raw (.reset raw.reset.trim)
  | negativeSteps : raw.maxSteps < 0 → Breaks raw .negativeSteps
  | delay : raw.stepDelay.trim ≠ [] → Duration.read? raw.stepDelay.trim = none →
    Breaks raw (.delay raw.stepDelay.trim)
  | negativeDelay {d : Int} : raw.stepDelay.trim ≠ [] → Duration.read? raw.stepDelay.trim = some d →
    d < 0 → Breaks raw .negativeDelay

/-- What all the rules ask for. -/
structure RawManifest.Valid (raw : RawManifest) : Prop where
  origin : raw.program.trim = [] ↔ raw.source.isSome
  source : ∀ s, raw.source = some s → s.trimmed.Valid
  names : ∀ name v, raw.bindings.get? name = some v → isSymbol name
  values : ∀ name v, raw.bindings.get? name = some v → ∃ w, v.toValue = .ok w
  reset : raw.reset.trim ∈ [[], utf8 "location", utf8 "namespace"]
  maxSteps : 0 ≤ raw.maxSteps
  stepDelay : raw.stepDelay.trim = [] ∨ ∃ d, Duration.read? raw.stepDelay.trim = some d ∧ 0 ≤ d

namespace ManifestIssue

/-- Where an issue stands among the rules, and the name it is about. -/
def place : ManifestIssue → Nat × Name
  | .nothingToRun | .tooMuchToRun => (0, [])
  | .source .noRepository => (1, [])
  | .source .noPath | .source (.outsidePath _) => (2, [])
  | .source .manyRevisions => (3, [])
  | .bindingName name | .bindingValue name _ => (4, name)
  | .reset _ => (5, [])
  | .negativeSteps => (6, [])
  | .delay _ | .negativeDelay => (7, [])

/-- The order in which issues are told; of one rule, and one name, there is only one. -/
def Before (i j : ManifestIssue) : Prop :=
  i.place.1 < j.place.1 ∨ i.place.1 = j.place.1 ∧ i.place.2 < j.place.2

end ManifestIssue

/-- What a manifest makes of the fields it is read from. -/
structure Manifest.Takes (m : Manifest) (raw : RawManifest) (path : Path) : Prop where
  path : m.path = path ∧ m.dir = Path.parent path
  program : m.program = raw.program.trim
  source : m.source = raw.source.map SourceSpec.trimmed
  bindings : ∀ name w, m.bindings.get? name = some w ↔
    ∃ v, raw.bindings.get? name = some v ∧ v.toValue = .ok w
  names : m.bindings.names = raw.bindings.names
  reset : ResetPolicy.ofName? raw.reset.trim = some m.reset
  maxSteps : m.maxSteps = raw.maxSteps
  stepDelay : raw.stepDelay.trim = [] ∧ m.stepDelay = 0 ∨ Duration.read? raw.stepDelay.trim = some m.stepDelay
  trace : m.trace = raw.trace

namespace RawManifest

variable {raw : RawManifest} {issue : ManifestIssue}

theorem mem_originIssues : issue ∈ originIssues raw.program.trim raw.spec ↔
    raw.program.trim = [] ∧ raw.source = none ∧ issue = .nothingToRun ∨
    raw.program.trim ≠ [] ∧ raw.source.isSome ∧ issue = .tooMuchToRun ∨
    ∃ s i, raw.program.trim = [] ∧ raw.source = some s ∧ s.trimmed.Breaks i ∧ issue = .source i := by
  simp only [← SourceSpec.mem_issues_iff]
  rw [originIssues.eq_def, spec]
  by_cases hprogram : raw.program.trim = []
  · cases raw.source with
    | none => simp [hprogram]
    | some s => simp [hprogram, eq_comm]
  · have hempty : raw.program.trim.isEmpty = false := by simpa using hprogram
    cases raw.source <;> simp [hprogram, hempty]

theorem mem_bindingIssues : issue ∈ raw.judgedBindings.filterMap issueOf ↔
    ∃ name v, (name, v) ∈ raw.bindings.entries ∧
      (isSymbol name = false ∧ issue = .bindingName name ∨
        isSymbol name ∧ ∃ reason, v.toValue = .error reason ∧ issue = .bindingValue name reason) := by
  have hjudged (name : Name) (v : ConfigValue) : issueOf (binding name v) = some issue ↔
      isSymbol name = false ∧ issue = .bindingName name ∨
        isSymbol name ∧ ∃ reason, v.toValue = .error reason ∧ issue = .bindingValue name reason := by
    rw [binding]
    cases isSymbol name with
    | false => simp [issueOf, eq_comm]
    | true => cases v.toValue <;> simp [issueOf, eq_comm]
  have hmem (entry : Name × ConfigValue) : entry ∈ raw.bindings.sorted ↔ entry ∈ raw.bindings.entries :=
    (Bindings.sorted_perm raw.bindings).mem_iff
  simp only [List.mem_filterMap, judgedBindings, List.mem_map, hmem, Prod.exists]
  constructor
  · rintro ⟨_, ⟨name, v, hentry, rfl⟩, hissue⟩
    exact ⟨name, v, hentry, (hjudged name v).mp hissue⟩
  · rintro ⟨name, v, hentry, hissue⟩
    exact ⟨_, ⟨name, v, hentry, rfl⟩, (hjudged name v).mpr hissue⟩

theorem ofName?_isSome (name : Bytes) :
    (ResetPolicy.ofName? name).isSome ↔ name ∈ [[], utf8 "location", utf8 "namespace"] := by
  change _ ↔ name ∈ [[], ResetPolicy.location.name, ResetPolicy.scope.name]
  rw [ResetPolicy.ofName?, List.mem_cons, List.mem_cons, List.mem_singleton, ← or_assoc]
  split_ifs with hlocation hscope
  · exact iff_of_true rfl (.inl hlocation)
  · exact iff_of_true rfl (.inr hscope)
  · exact iff_of_false nofun (not_or.mpr ⟨hlocation, hscope⟩)

theorem mem_resetIssues : issue ∈ resetIssues raw.reset.trim ↔
    raw.reset.trim ∉ [[], utf8 "location", utf8 "namespace"] ∧ issue = .reset raw.reset.trim := by
  rw [resetIssues, ← ofName?_isSome]
  split_ifs with h <;> simp [h]

theorem mem_delayIssues : issue ∈ (issueOf (delayOf raw.stepDelay.trim)).toList ↔
    raw.stepDelay.trim ≠ [] ∧ (Duration.read? raw.stepDelay.trim = none ∧ issue = .delay raw.stepDelay.trim ∨
      ∃ d, Duration.read? raw.stepDelay.trim = some d ∧ d < 0 ∧ issue = .negativeDelay) := by
  rw [Option.mem_toList, delayOf]
  by_cases hempty : raw.stepDelay.trim = []
  · simp [hempty, issueOf]
  · cases hread : Duration.read? raw.stepDelay.trim with
    | none => simp [hempty, issueOf, eq_comm (b := issue)]
    | some d =>
      by_cases hneg : d < 0
      · simp [hempty, issueOf, hneg, eq_comm (b := issue)]
      · simp [hempty, issueOf, hneg]

/-- The issues are what the rules that are broken tell. -/
theorem mem_issues_iff : issue ∈ raw.issues ↔ raw.Breaks issue := by
  simp only [issues, List.mem_append, mem_originIssues, mem_bindingIssues, mem_resetIssues, mem_delayIssues,
    ← Bindings.get?_eq_some_iff]
  have hsteps : issue ∈ (if raw.maxSteps < 0 then [ManifestIssue.negativeSteps] else []) ↔
      raw.maxSteps < 0 ∧ issue = .negativeSteps := by
    split_ifs with hneg <;> simp [hneg]
  rw [hsteps]
  constructor
  · rintro (((((⟨hprogram, hsource, rfl⟩ | ⟨hprogram, hsource, rfl⟩ | ⟨s, i, hprogram, hsource, hs, rfl⟩) |
      ⟨name, v, hv, ⟨hname, rfl⟩ | ⟨hname, reason, hreason, rfl⟩⟩) | ⟨hreset, rfl⟩) | ⟨hneg, rfl⟩) |
      ⟨hdelay, ⟨hread, rfl⟩ | ⟨d, hread, hneg, rfl⟩⟩)
    · exact .nothingToRun hprogram hsource
    · exact .tooMuchToRun hprogram hsource
    · exact .source hprogram hsource hs
    · exact .bindingName hv hname
    · exact .bindingValue hv hname hreason
    · exact .reset hreset
    · exact .negativeSteps hneg
    · exact .delay hdelay hread
    · exact .negativeDelay hdelay hread hneg
  · intro hbreaks
    cases hbreaks with
    | nothingToRun hprogram hsource => exact .inl (.inl (.inl (.inl (.inl ⟨hprogram, hsource, rfl⟩))))
    | tooMuchToRun hprogram hsource =>
      exact .inl (.inl (.inl (.inl (.inr (.inl ⟨hprogram, hsource, rfl⟩)))))
    | source hprogram hsource hs =>
      exact .inl (.inl (.inl (.inl (.inr (.inr ⟨_, _, hprogram, hsource, hs, rfl⟩)))))
    | bindingName hv hname => exact .inl (.inl (.inl (.inr ⟨_, _, hv, .inl ⟨hname, rfl⟩⟩)))
    | bindingValue hv hname hreason =>
      exact .inl (.inl (.inl (.inr ⟨_, _, hv, .inr ⟨hname, _, hreason, rfl⟩⟩)))
    | reset hreset => exact .inl (.inl (.inr ⟨hreset, rfl⟩))
    | negativeSteps hneg => exact .inl (.inr ⟨hneg, rfl⟩)
    | delay hdelay hread => exact .inr ⟨hdelay, .inl ⟨hread, rfl⟩⟩
    | negativeDelay hdelay hread hneg => exact .inr ⟨hdelay, .inr ⟨_, hread, hneg, rfl⟩⟩

theorem pairwise_originIssues : (originIssues raw.program.trim raw.spec).Pairwise ManifestIssue.Before := by
  rw [originIssues.eq_def]
  split
  · exact List.pairwise_singleton _ _
  · exact List.pairwise_singleton _ _
  · next s _ _ =>
    -- each of the three rules of a source tells one issue at most
    rw [SourceSpec.issues, SourceSpec.pathIssues]
    split_ifs <;> simp [ManifestIssue.Before, ManifestIssue.place]
  · exact .nil

theorem pairwise_bindingIssues : (raw.judgedBindings.filterMap issueOf).Pairwise ManifestIssue.Before := by
  rw [judgedBindings, List.filterMap_map, List.pairwise_filterMap]
  refine (Bindings.sorted_pairwise raw.bindings).imp fun {x y} hlt i hi j hj => ?_
  have hplace (entry : Name × ConfigValue) (issue : ManifestIssue)
      (hissue : issueOf (binding entry.1 entry.2) = some issue) : issue.place = (4, entry.1) := by
    rw [binding] at hissue
    cases hname : isSymbol entry.1 with
    | false =>
      simp only [hname, Bool.not_false, if_true, issueOf, Option.some_inj] at hissue
      subst hissue
      rfl
    | true =>
      cases hvalue : entry.2.toValue with
      | ok w => simp [hname, hvalue, issueOf] at hissue
      | error reason =>
        simp only [hname, hvalue, Bool.not_true, Bool.false_eq_true, if_false, issueOf,
          Option.some_inj] at hissue
        subst hissue
        rfl
  right
  rw [hplace x i hi, hplace y j hj]
  exact ⟨rfl, hlt⟩

/-- Issues of one rule can be told after those of the rules before it. -/
theorem pairwise_append {is js : List ManifestIssue} (m : Nat) (his : is.Pairwise ManifestIssue.Before)
    (hjs : js.Pairwise ManifestIssue.Before) (hbelow : ∀ i ∈ is, i.place.1 < m)
    (habove : ∀ j ∈ js, j.place.1 = m) :
    (is ++ js).Pairwise ManifestIssue.Before ∧ ∀ i ∈ is ++ js, i.place.1 < m + 1 := by
  refine ⟨List.pairwise_append.mpr ⟨his, hjs, fun i hi j hj => .inl ?_⟩, fun i hi => ?_⟩
  · rw [habove j hj]
    exact hbelow i hi
  · obtain hi | hi := List.mem_append.mp hi
    · exact Nat.lt_succ_of_lt (hbelow i hi)
    · exact Nat.lt_succ_of_le (Nat.le_of_eq (habove i hi))

/-- The issues come in the order of their rules, so none of them is told twice. -/
theorem pairwise_issues : raw.issues.Pairwise ManifestIssue.Before := by
  have horigin : ∀ i ∈ originIssues raw.program.trim raw.spec, i.place.1 < 4 := by
    intro i hi
    obtain ⟨-, -, rfl⟩ | ⟨-, -, rfl⟩ | ⟨s, i, -, -, -, rfl⟩ := mem_originIssues.mp hi
    · decide
    · decide
    · cases i <;> simp [ManifestIssue.place]
  have hbindings : ∀ i ∈ raw.judgedBindings.filterMap issueOf, i.place.1 = 4 := by
    intro i hi
    obtain ⟨name, v, -, ⟨-, rfl⟩ | ⟨-, reason, -, rfl⟩⟩ := mem_bindingIssues.mp hi <;> rfl
  have hreset : ∀ i ∈ resetIssues raw.reset.trim, i.place.1 = 5 := by
    intro i hi
    obtain ⟨-, rfl⟩ := mem_resetIssues.mp hi
    rfl
  have hsteps : ∀ i ∈ (if raw.maxSteps < 0 then [ManifestIssue.negativeSteps] else []), i.place.1 = 6 := by
    split_ifs <;> simp [ManifestIssue.place]
  have hdelay : ∀ i ∈ (issueOf (delayOf raw.stepDelay.trim)).toList, i.place.1 = 7 := by
    intro i hi
    obtain ⟨-, ⟨-, rfl⟩ | ⟨d, -, -, rfl⟩⟩ := mem_delayIssues.mp hi <;> rfl
  have hone (issue : Option ManifestIssue) : issue.toList.Pairwise ManifestIssue.Before := by
    cases issue <;> simp
  have hupToBindings := pairwise_append 4 pairwise_originIssues pairwise_bindingIssues horigin hbindings
  have hupToReset :=
    pairwise_append 5 hupToBindings.1 (by rw [resetIssues]; split_ifs <;> simp) hupToBindings.2 hreset
  have hupToSteps := pairwise_append 6 hupToReset.1 (by split_ifs <;> simp) hupToReset.2 hsteps
  exact (pairwise_append 7 hupToSteps.1 (hone _) hupToSteps.2 hdelay).1

theorem valid_iff : raw.Valid ↔ ∀ issue, ¬ raw.Breaks issue := by
  constructor
  · rintro ⟨horigin, hsource, hnames, hvalues, hreset, hsteps, hdelay⟩ issue hbreaks
    cases hbreaks with
    | nothingToRun hprogram hnone =>
      have hsome := horigin.mp hprogram
      rw [hnone] at hsome
      cases hsome
    | tooMuchToRun hprogram hsome => exact hprogram (horigin.mpr hsome)
    | source hprogram hs hbreaks => exact SourceSpec.valid_iff.mp (hsource _ hs) _ hbreaks
    | bindingName hv hname => exact absurd (hnames _ _ hv) (by simp [hname])
    | bindingValue hv hname hreason =>
      obtain ⟨w, hw⟩ := hvalues _ _ hv
      cases hreason.symm.trans hw
    | reset hunknown => exact hunknown hreset
    | negativeSteps hneg => omega
    | delay hne hnone =>
      obtain hempty | ⟨d, hd, -⟩ := hdelay
      · exact hne hempty
      · cases hnone.symm.trans hd
    | negativeDelay hne hd hneg =>
      obtain hempty | ⟨d, hd', hnonneg⟩ := hdelay
      · exact hne hempty
      · cases hd.symm.trans hd'
        omega
  · intro hkept
    have hnames (name : Name) (v : ConfigValue) (hv : raw.bindings.get? name = some v) : isSymbol name := by
      by_contra hname
      exact hkept _ (.bindingName hv (Bool.not_eq_true _ ▸ hname))
    refine ⟨⟨fun hprogram => ?_, fun hsome => ?_⟩, fun s hs => ?_, hnames, fun name v hv => ?_, ?_, ?_, ?_⟩
    · by_contra hnone
      exact hkept _ (.nothingToRun hprogram (by simpa using hnone))
    · by_contra hprogram
      exact hkept _ (.tooMuchToRun hprogram hsome)
    · refine SourceSpec.valid_iff.mpr fun issue hbreaks => ?_
      by_cases hprogram : raw.program.trim = []
      · exact hkept _ (.source hprogram hs hbreaks)
      · exact hkept _ (.tooMuchToRun hprogram (by rw [hs]; rfl))
    · -- a value is judged only under a name that may be bound, and here all of them may
      cases hvalue : v.toValue with
      | ok w => exact ⟨w, rfl⟩
      | error reason => exact absurd (.bindingValue hv (hnames name v hv) hvalue) (hkept _)
    · by_contra hunknown
      exact hkept _ (.reset hunknown)
    · by_contra hneg
      exact hkept _ (.negativeSteps (by omega))
    · by_cases hempty : raw.stepDelay.trim = []
      · exact .inl hempty
      · cases hread : Duration.read? raw.stepDelay.trim with
        | none => exact absurd (.delay hempty hread) (hkept _)
        | some d =>
          refine .inr ⟨d, rfl, ?_⟩
          by_contra hneg
          exact hkept _ (.negativeDelay hempty hread (by omega))

theorem judge_eq_ok_iff (path : Path) : (∃ m, raw.judge path = .ok m) ↔ raw.issues = [] := by
  rw [judge]
  cases raw.issues <;> simp

theorem judge_eq_error_iff {path : Path} {told : List ManifestIssue} :
    raw.judge path = .error told ↔ raw.issues = told ∧ told ≠ [] := by
  rw [judge]
  cases raw.issues with
  | nil => simp [eq_comm]
  | cons issue issues =>
    simp only [Except.error.injEq, iff_self_and]
    rintro rfl
    exact List.cons_ne_nil issue issues

/-- What is bound when every binding converts: as many names, with their values. -/
theorem bound_of_valid (hvalid : raw.Valid) :
    ∃ bound : List (Name × Value), raw.judgedBindings.filterMap Except.toOption = bound ∧
      bound.map Prod.fst = raw.bindings.sorted.map Prod.fst ∧
      ∀ name w, (name, w) ∈ bound ↔ ∃ v, raw.bindings.get? name = some v ∧ v.toValue = .ok w := by
  have hconverts (entry : Name × ConfigValue) (hentry : entry ∈ raw.bindings.sorted) :
      ∃ w, entry.2.toValue = .ok w ∧ binding entry.1 entry.2 = .ok (entry.1, w) := by
    have hget := Bindings.get?_eq_some_iff.mpr ((Bindings.sorted_perm _).mem_iff.mp hentry)
    obtain ⟨w, hw⟩ := hvalid.values _ _ hget
    exact ⟨w, hw, by simp [binding, hvalid.names _ _ hget, hw]⟩
  simp only [Bindings.get?_eq_some_iff, ← (Bindings.sorted_perm raw.bindings).mem_iff]
  refine ⟨_, rfl, ?_⟩
  rw [judgedBindings]
  generalize raw.bindings.sorted = entries at hconverts
  induction entries with
  | nil => simp
  | cons entry rest ih =>
    obtain ⟨n, v⟩ := entry
    rw [List.forall_mem_cons] at hconverts
    obtain ⟨⟨w, (hw : v.toValue = .ok w), (hjudged : binding n v = .ok (n, w))⟩, hrest⟩ := hconverts
    obtain ⟨hnames, hvalues⟩ := ih hrest
    simp only [List.map_cons, hjudged]
    rw [List.filterMap_cons]
    refine ⟨congrArg (n :: ·) hnames, fun name w' => ?_⟩
    have hhead : (name, w') = (n, w) ↔ ∃ v', (name, v') = (n, v) ∧ v'.toValue = .ok w' := by
      simp only [Prod.mk.injEq]
      constructor
      · rintro ⟨rfl, rfl⟩
        exact ⟨v, ⟨rfl, rfl⟩, hw⟩
      · rintro ⟨v', ⟨rfl, rfl⟩, hw'⟩
        exact ⟨rfl, Except.ok.inj (hw'.symm.trans hw)⟩
    simp only [Except.toOption, List.mem_cons, hhead, hvalues, or_and_right, exists_or]

theorem judge_takes {path : Path} {m : Manifest} (hm : raw.judge path = .ok m) : m.Takes raw path := by
  have hissues := (judge_eq_ok_iff path).mp ⟨m, hm⟩
  have hvalid : raw.Valid := by
    refine valid_iff.mpr fun issue hbreaks => ?_
    have hmem := mem_issues_iff.mpr hbreaks
    rw [hissues] at hmem
    cases hmem
  rw [judge, hissues] at hm
  cases hm
  obtain ⟨bound, hbound, hnames, hvalues⟩ := bound_of_valid hvalid
  have hdistinct : (bound.map Prod.fst).Nodup := by
    rw [hnames]
    exact ((Bindings.sorted_perm raw.bindings).map Prod.fst).nodup_iff.mpr raw.bindings.distinct
  have hentries := Bindings.entries_ofList hdistinct
  constructor
  case path => exact ⟨rfl, rfl⟩
  case program => rfl
  case source => rfl
  case maxSteps => rfl
  case trace => rfl
  case bindings =>
    intro name w
    rw [← hvalues, hbound, Bindings.get?_eq_some_iff, hentries]
  case names =>
    refine Bindings.names_eq_of_perm ?_
    rw [hbound, hentries, hnames]
    exact (Bindings.sorted_perm raw.bindings).map Prod.fst
  case reset =>
    have hknown := (ofName?_isSome _).mpr hvalid.reset
    obtain ⟨policy, hpolicy⟩ := Option.isSome_iff_exists.mp hknown
    simp [hpolicy]
  case stepDelay =>
    obtain hempty | ⟨d, hd, hnonneg⟩ := hvalid.stepDelay
    · left
      simp [hempty, delayOf, Except.toOption]
    · by_cases hempty : raw.stepDelay.trim = []
      · left
        simp [hempty, delayOf, Except.toOption]
      · right
        have hneg : ¬ d < 0 := by omega
        simp [hempty, hd, delayOf, Except.toOption, hneg]

end RawManifest

/-- A manifest is accepted if and only if it keeps the rules, and it is then what its fields say, each name
bound to what its value converts to. If it is refused, every rule that it breaks is told once, in the order
of the rules and of the names. The order in which the bindings come makes no difference. -/
theorem manifests_are_judged_exactly (raw : RawManifest) (path : Path) :
    ((∃ m, raw.judge path = .ok m) ↔ raw.Valid) ∧
    (∀ m, raw.judge path = .ok m → m.Takes raw path) ∧
    (∀ told, raw.judge path = .error told →
      told.Pairwise ManifestIssue.Before ∧ ∀ issue, issue ∈ told ↔ raw.Breaks issue) ∧
    ∀ bindings : Bindings ConfigValue, bindings.entries.Perm raw.bindings.entries →
      ({ raw with bindings } : RawManifest).judge path = raw.judge path := by
  refine ⟨?_, fun m => RawManifest.judge_takes, fun told htold => ?_, fun bindings hperm => ?_⟩
  · rw [RawManifest.judge_eq_ok_iff, RawManifest.valid_iff, List.eq_nil_iff_forall_not_mem]
    simp only [RawManifest.mem_issues_iff]
  · obtain ⟨rfl, -⟩ := RawManifest.judge_eq_error_iff.mp htold
    exact ⟨RawManifest.pairwise_issues, fun issue => RawManifest.mem_issues_iff⟩
  · have hsorted : bindings.sorted = raw.bindings.sorted := Bindings.sorted_eq_of_perm hperm
    have hjudged : ({ raw with bindings } : RawManifest).judgedBindings = raw.judgedBindings := by
      rw [RawManifest.judgedBindings, RawManifest.judgedBindings, hsorted]
    have hissues : ({ raw with bindings } : RawManifest).issues = raw.issues := by
      rw [RawManifest.issues, hjudged]
      rfl
    rw [RawManifest.judge, hissues, hjudged]
    rfl

/-- A manifest that keeps the rules, and one that breaks many of them, its two bindings among them: what is
told of a name comes before what is told of a later one. -/
theorem manifests_are_judged_exactly_across_faults :
    let kept : RawManifest := ⟨utf8 "main.c4c", none,
      ⟨[(utf8 "speed", .integer 3), (utf8 "armed", .boolean false)], by decide⟩, [], 500, utf8 "0", true⟩
    let broken : RawManifest := ⟨[], some ⟨[], [], utf8 "v1", utf8 "main", utf8 "../a"⟩,
      ⟨[(utf8 "xs", .list []), (utf8 "end", .null)], by decide⟩, utf8 "all", -1, utf8 "soon", false⟩
    (∃ m, kept.judge [] = .ok m) ∧ ∀ issue, broken.Breaks issue ↔
      issue ∈ [.source .noRepository, .source (.outsidePath (utf8 "../a")), .source .manyRevisions,
        .bindingName (utf8 "end"), .bindingValue (utf8 "xs") (ConfigValue.refuseType ConfigValue.listType),
        .reset (utf8 "all"), .negativeSteps, .delay (utf8 "soon")] := by
  intro kept broken
  have hkept : kept.issues = [] := by
    dsimp only [kept]
    cbv
  have hbroken : broken.issues =
      [.source .noRepository, .source (.outsidePath (utf8 "../a")), .source .manyRevisions,
        .bindingName (utf8 "end"), .bindingValue (utf8 "xs") (ConfigValue.refuseType ConfigValue.listType),
        .reset (utf8 "all"), .negativeSteps, .delay (utf8 "soon")] := by
    dsimp only [broken]
    cbv
  have hvalid := (RawManifest.judge_eq_ok_iff []).mpr hkept
  refine ⟨(manifests_are_judged_exactly kept []).1.mpr
    ((manifests_are_judged_exactly kept []).1.mp hvalid), fun issue => ?_⟩
  exact (((manifests_are_judged_exactly broken []).2.2.1 _
    (RawManifest.judge_eq_error_iff.mpr ⟨hbroken, List.cons_ne_nil _ _⟩)).2 issue).symm

end Stepwise
