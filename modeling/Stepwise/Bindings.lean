import Stepwise.Tree

/-! Bindings: finitely many names, each with one thing bound to it. -/

namespace Stepwise

@[ext] structure Bindings (α : Type) where
  entries : List (Name × α)
  /-- No name is bound twice. -/
  distinct : (entries.map Prod.fst).Nodup

namespace Bindings

variable {α β : Type}

def empty : Bindings α := ⟨[], List.nodup_nil⟩

instance : Inhabited (Bindings α) := ⟨empty⟩

def get? (b : Bindings α) (name : Name) : Option α := b.entries.lookup name

def insertEntry (name : Name) (a : α) : List (Name × α) → List (Name × α)
  | [] => [(name, a)]
  | (n, x) :: rest => if n = name then (name, a) :: rest else (n, x) :: insertEntry name a rest

theorem mem_names_insertEntry {name other : Name} {a : α} {entries : List (Name × α)}
    (h : other ∈ (insertEntry name a entries).map Prod.fst) :
    other = name ∨ other ∈ entries.map Prod.fst := by
  induction entries with
  | nil => exact .inl (List.mem_singleton.mp h)
  | cons entry rest ih =>
    rw [insertEntry] at h
    split at h
    · obtain rfl | h := List.mem_cons.mp h
      · exact .inl rfl
      · exact .inr (List.mem_cons_of_mem _ h)
    · obtain rfl | h := List.mem_cons.mp h
      · exact .inr List.mem_cons_self
      · exact (ih h).imp_right (List.mem_cons_of_mem _)

theorem nodup_insertEntry (name : Name) (a : α) {entries : List (Name × α)}
    (h : (entries.map Prod.fst).Nodup) : ((insertEntry name a entries).map Prod.fst).Nodup := by
  induction entries with
  | nil => exact List.nodup_cons.mpr ⟨List.not_mem_nil, List.nodup_nil⟩
  | cons entry rest ih =>
    obtain ⟨hfresh, hrest⟩ := List.nodup_cons.mp h
    rw [insertEntry]
    split
    · next heq => exact List.nodup_cons.mpr ⟨heq ▸ hfresh, hrest⟩
    · next hne =>
      refine List.nodup_cons.mpr ⟨fun hmem => ?_, ih hrest⟩
      obtain heq | hmem := mem_names_insertEntry hmem
      · exact hne heq
      · exact hfresh hmem

/-- Binds a name, in the place of what it was bound to. -/
def insert (b : Bindings α) (name : Name) (a : α) : Bindings α :=
  ⟨insertEntry name a b.entries, nodup_insertEntry name a b.distinct⟩

def erase (b : Bindings α) (name : Name) : Bindings α :=
  ⟨b.entries.filter fun entry => entry.1 != name,
    b.distinct.sublist (List.filter_sublist.map Prod.fst)⟩

/-- Binds the same names to what becomes of the things bound to them. -/
def map (f : α → β) (b : Bindings α) : Bindings β where
  entries := b.entries.map fun entry => (entry.1, f entry.2)
  distinct := by
    rw [List.map_map]
    exact b.distinct

/-- The bindings of a list; the last one for a name counts. -/
def ofList (entries : List (Name × α)) : Bindings α :=
  entries.foldl (fun b (name, a) => b.insert name a) empty

/-- The bound names in byte order. -/
def names (b : Bindings α) : List Name := (b.entries.map Prod.fst).mergeSort Bytes.le

/-- The bindings in byte order of their names. -/
def sorted (b : Bindings α) : List (Name × α) :=
  b.entries.mergeSort fun x y => Bytes.le x.1 y.1

@[simp] theorem get?_empty (name : Name) : (empty : Bindings α).get? name = none := rfl

theorem lookup_insertEntry (name other : Name) (a : α) (entries : List (Name × α)) :
    (insertEntry name a entries).lookup other =
      if other = name then some a else entries.lookup other := by
  induction entries with
  | nil =>
    by_cases h : other = name
    · simp [insertEntry, h]
    · simp [insertEntry, List.lookup_cons, h, beq_eq_false_iff_ne.mpr h]
  | cons entry rest ih =>
    obtain ⟨n, x⟩ := entry
    by_cases hn : n = name
    · subst hn
      by_cases h : other = n
      · simp [insertEntry, h]
      · simp [insertEntry, List.lookup_cons, h, beq_eq_false_iff_ne.mpr h]
    · by_cases ho : other = n
      · subst ho
        simp [insertEntry, hn]
      · simp [insertEntry, hn, List.lookup_cons, ih, beq_eq_false_iff_ne.mpr ho]

theorem get?_insert (b : Bindings α) (name other : Name) (a : α) :
    (b.insert name a).get? other = if other = name then some a else b.get? other :=
  lookup_insertEntry name other a b.entries

theorem insertEntry_insertEntry (name : Name) (a b : α) (entries : List (Name × α)) :
    insertEntry name b (insertEntry name a entries) = insertEntry name b entries := by
  induction entries with
  | nil => simp [insertEntry]
  | cons entry rest ih =>
    obtain ⟨n, x⟩ := entry
    by_cases hn : n = name
    · simp [insertEntry, hn]
    · simp [insertEntry, hn, ih]

theorem insert_insert (b : Bindings α) (name : Name) (a a' : α) :
    (b.insert name a).insert name a' = b.insert name a' :=
  Bindings.ext (insertEntry_insertEntry name a a' b.entries)

theorem insertEntry_of_lookup {name : Name} {a : α} {entries : List (Name × α)}
    (h : entries.lookup name = some a) : insertEntry name a entries = entries := by
  induction entries with
  | nil => simp at h
  | cons entry rest ih =>
    obtain ⟨n, x⟩ := entry
    by_cases hn : n = name
    · subst hn
      simp only [List.lookup_cons_self, Option.some.injEq] at h
      simp [insertEntry, h]
    · have hne : (name == n) = false := beq_eq_false_iff_ne.mpr (Ne.symm hn)
      rw [List.lookup_cons, hne] at h
      simp [insertEntry, hn, ih h]

/-- Binding a name to what it is bound to changes nothing. -/
theorem insert_of_get? {b : Bindings α} {name : Name} {a : α} (h : b.get? name = some a) :
    b.insert name a = b :=
  Bindings.ext (insertEntry_of_lookup h)

theorem filter_insertEntry (name : Name) (a : α) (entries : List (Name × α)) :
    (insertEntry name a entries).filter (fun entry => entry.1 != name) =
      entries.filter (fun entry => entry.1 != name) := by
  induction entries with
  | nil => simp [insertEntry]
  | cons entry rest ih =>
    obtain ⟨n, x⟩ := entry
    by_cases hn : n = name
    · simp [insertEntry, hn]
    · simp [insertEntry, hn, ih]

theorem erase_insert_self (b : Bindings α) (name : Name) (a : α) :
    (b.insert name a).erase name = b.erase name :=
  Bindings.ext (filter_insertEntry name a b.entries)

theorem lookup_filter_of_ne {name other : Name} (hne : other ≠ name) (entries : List (Name × α)) :
    (entries.filter fun entry => entry.1 != name).lookup other = entries.lookup other := by
  induction entries with
  | nil => rfl
  | cons entry rest ih =>
    obtain ⟨n, x⟩ := entry
    by_cases hn : n = name
    · have hon : (other == n) = false := beq_eq_false_iff_ne.mpr fun h => hne (h.trans hn)
      simp [hn, ih, List.lookup_cons, hn ▸ hon]
    · simp [hn, ih, List.lookup_cons]

theorem get?_erase_of_ne {name other : Name} (hne : other ≠ name) (b : Bindings α) :
    (b.erase name).get? other = b.get? other :=
  lookup_filter_of_ne hne b.entries

theorem lookup_filter_self (name : Name) (entries : List (Name × α)) :
    (entries.filter fun entry => entry.1 != name).lookup name = none := by
  induction entries with
  | nil => rfl
  | cons entry rest ih =>
    obtain ⟨n, x⟩ := entry
    by_cases hn : n = name
    · simp [hn, ih]
    · have hne : (name == n) = false := beq_eq_false_iff_ne.mpr (Ne.symm hn)
      simp [hn, ih, List.lookup_cons, hne]

theorem get?_erase_self (b : Bindings α) (name : Name) : (b.erase name).get? name = none :=
  lookup_filter_self name b.entries

theorem filter_of_lookup_none {name : Name} {entries : List (Name × α)}
    (h : entries.lookup name = none) :
    entries.filter (fun entry => entry.1 != name) = entries := by
  induction entries with
  | nil => rfl
  | cons entry rest ih =>
    obtain ⟨n, x⟩ := entry
    by_cases hn : n = name
    · simp [hn] at h
    · have hne : (name == n) = false := beq_eq_false_iff_ne.mpr (Ne.symm hn)
      rw [List.lookup_cons, hne] at h
      simp [hn, ih h]

theorem erase_of_get?_none {b : Bindings α} {name : Name} (h : b.get? name = none) :
    b.erase name = b :=
  Bindings.ext (filter_of_lookup_none h)

theorem lookup_map (f : α → β) (name : Name) (entries : List (Name × α)) :
    (entries.map fun entry => (entry.1, f entry.2)).lookup name = (entries.lookup name).map f := by
  induction entries with
  | nil => rfl
  | cons entry rest ih =>
    rw [List.map_cons, List.lookup_cons, List.lookup_cons]
    cases name == entry.1
    · exact ih
    · rfl

theorem get?_map (f : α → β) (b : Bindings α) (name : Name) :
    (b.map f).get? name = (b.get? name).map f :=
  lookup_map f name b.entries

theorem mem_of_get?_foldl {entries : List (Name × α)} {b : Bindings α} {name : Name} {a : α}
    (h : (entries.foldl (fun b (name, a) => b.insert name a) b).get? name = some a) :
    b.get? name = some a ∨ (name, a) ∈ entries := by
  induction entries generalizing b with
  | nil => exact .inl h
  | cons entry rest ih =>
    obtain ⟨n, x⟩ := entry
    obtain h | h := ih h
    · rw [get?_insert] at h
      split at h
      · next hn =>
        cases h
        exact .inr (hn ▸ List.mem_cons_self)
      · exact .inl h
    · exact .inr (List.mem_cons_of_mem _ h)

/-- What is bound by a list comes from the list. -/
theorem mem_of_get?_ofList {entries : List (Name × α)} {name : Name} {a : α}
    (h : (ofList entries).get? name = some a) : (name, a) ∈ entries := by
  obtain h | h := mem_of_get?_foldl h
  · cases h
  · exact h

end Bindings

end Stepwise
