/-!
# Finite maps keyed by names

A `NameMap` holds its entries in strictly increasing order of their names, so a map has one
representation only: two maps with the same look-ups are equal, and listing the entries lists them
in name order.  Names are compared by code point.

The main facts are `find?_insert` and `find?_overwrite`, which say what a look-up sees after an
insertion and in two maps laid over one another.
-/

namespace Lineage

/-- A finite map from names to values, in increasing order of the names. -/
structure NameMap (α : Type) where
  entries : List (String × α)
  sorted : entries.Pairwise fun left right ↦ left.1 < right.1

namespace NameMap

variable {α β : Type}

/-! ## Entries in name order -/

/-- Place a name among entries in name order, replacing the entry of that name if there is one. -/
def placeEntry (name : String) (value : α) : List (String × α) → List (String × α)
  | [] => [(name, value)]
  | entry :: rest =>
    if name < entry.1 then (name, value) :: entry :: rest
    else if name = entry.1 then (name, value) :: rest
    else entry :: placeEntry name value rest

theorem mem_placeEntry {name : String} {value : α} {entries : List (String × α)}
    {entry : String × α} (h : entry ∈ placeEntry name value entries) :
    entry = (name, value) ∨ entry ∈ entries := by
  induction entries with
  | nil => simpa [placeEntry] using h
  | cons head rest ih =>
    simp only [placeEntry] at h
    split at h
    · simpa using h
    · split at h
      · rcases List.mem_cons.mp h with h | h
        · exact .inl h
        · exact .inr (List.mem_cons_of_mem _ h)
      · rcases List.mem_cons.mp h with h | h
        · exact .inr (h ▸ List.mem_cons_self)
        · exact (ih h).imp_right (List.mem_cons_of_mem _)

theorem pairwise_placeEntry (name : String) (value : α) {entries : List (String × α)}
    (h : entries.Pairwise fun left right ↦ left.1 < right.1) :
    (placeEntry name value entries).Pairwise fun left right ↦ left.1 < right.1 := by
  induction entries with
  | nil => simp [placeEntry]
  | cons head rest ih =>
    obtain ⟨hhead, hrest⟩ := List.pairwise_cons.mp h
    simp only [placeEntry]
    split
    next hlt =>
      refine List.pairwise_cons.mpr ⟨fun entry hentry ↦ ?_, h⟩
      rcases List.mem_cons.mp hentry with rfl | hentry
      · exact hlt
      · exact String.lt_trans hlt (hhead entry hentry)
    next hlt =>
      split
      next heq =>
        exact List.pairwise_cons.mpr ⟨fun entry hentry ↦ heq ▸ hhead entry hentry, hrest⟩
      next hne =>
        refine List.pairwise_cons.mpr ⟨fun entry hentry ↦ ?_, ih hrest⟩
        rcases mem_placeEntry hentry with rfl | hentry
        · refine Decidable.byContradiction fun hnot ↦ hne ?_
          exact String.le_antisymm (String.not_lt.mp hnot) (String.not_lt.mp hlt)
        · exact hhead entry hentry

theorem lookup_cons_eq_ite (name : String) (entry : String × α) (rest : List (String × α)) :
    (entry :: rest).lookup name = if name = entry.1 then some entry.2 else rest.lookup name := by
  rw [List.lookup_cons]
  by_cases h : name = entry.1
  · rw [if_pos h, beq_iff_eq.mpr h]
  · rw [if_neg h, beq_false_of_ne h]

theorem lookup_placeEntry (name other : String) (value : α) (entries : List (String × α)) :
    (placeEntry name value entries).lookup other =
      if other = name then some value else entries.lookup other := by
  induction entries with
  | nil => simp [placeEntry, lookup_cons_eq_ite]
  | cons head rest ih =>
    simp only [placeEntry]
    split
    · simp only [lookup_cons_eq_ite]
    · split
      next heq => simp only [lookup_cons_eq_ite, heq]; split <;> rfl
      next hne =>
        simp only [lookup_cons_eq_ite, ih]
        by_cases h : other = name
        · simp [h, hne]
        · simp [h]

/-! ## The map -/

def empty : NameMap α := ⟨[], .nil⟩

def find? (map : NameMap α) (name : String) : Option α :=
  map.entries.lookup name

def insert (map : NameMap α) (name : String) (value : α) : NameMap α :=
  ⟨placeEntry name value map.entries, pairwise_placeEntry name value map.sorted⟩

/-- The entries in increasing order of their names. -/
def toList (map : NameMap α) : List (String × α) := map.entries

def names (map : NameMap α) : List String := map.entries.map (·.1)

/-- The values, in the order of their names. -/
def values (map : NameMap α) : List α := map.entries.map (·.2)

def size (map : NameMap α) : Nat := map.entries.length

/-- `map.overwrite upper` has the entries of both; where both have a name, that of `upper`. -/
def overwrite (map upper : NameMap α) : NameMap α :=
  upper.entries.foldl (fun merged entry ↦ merged.insert entry.1 entry.2) map

/-! ## Look-ups -/

@[simp]
theorem find?_empty (name : String) : (empty : NameMap α).find? name = none := rfl

theorem find?_insert (map : NameMap α) (name other : String) (value : α) :
    (map.insert name value).find? other = if other = name then some value else map.find? other :=
  lookup_placeEntry name other value map.entries

theorem find?_insert_of_ne (map : NameMap α) {name other : String} (value : α)
    (h : other ≠ name) : (map.insert name value).find? other = map.find? other := by
  simp [find?_insert, h]

theorem lookup_eq_some_iff_mem {entries : List (String × α)}
    (h : entries.Pairwise fun left right ↦ left.1 < right.1) (name : String) (value : α) :
    entries.lookup name = some value ↔ (name, value) ∈ entries := by
  induction entries with
  | nil => simp
  | cons head rest ih =>
    obtain ⟨hhead, hrest⟩ := List.pairwise_cons.mp h
    obtain ⟨headName, headValue⟩ := head
    rw [lookup_cons_eq_ite]
    by_cases heq : name = headName
    · subst heq
      have hnot : (name, value) ∉ rest := fun hmem ↦ String.lt_irrefl name (hhead _ hmem)
      simp [hnot, eq_comm]
    · simp [heq, ih hrest]

theorem find?_eq_some_iff (map : NameMap α) (name : String) (value : α) :
    map.find? name = some value ↔ (name, value) ∈ map.toList :=
  lookup_eq_some_iff_mem map.sorted name value

theorem names_pairwise_lt (map : NameMap α) : map.names.Pairwise (· < ·) :=
  List.pairwise_map.mpr map.sorted

theorem mem_names_iff (map : NameMap α) (name : String) :
    name ∈ map.names ↔ ∃ value, map.find? name = some value := by
  simp only [names, List.mem_map, find?_eq_some_iff, toList]
  constructor
  · rintro ⟨entry, hentry, rfl⟩
    exact ⟨entry.2, hentry⟩
  · rintro ⟨value, hentry⟩
    exact ⟨_, hentry, rfl⟩

theorem mem_values_iff (map : NameMap α) (value : α) :
    value ∈ map.values ↔ ∃ name, map.find? name = some value := by
  simp only [values, List.mem_map, find?_eq_some_iff, toList]
  constructor
  · rintro ⟨entry, hentry, rfl⟩
    exact ⟨entry.1, hentry⟩
  · rintro ⟨name, hentry⟩
    exact ⟨_, hentry, rfl⟩

theorem find?_overwrite (map upper : NameMap α) (name : String) :
    (map.overwrite upper).find? name = (upper.find? name).or (map.find? name) := by
  obtain ⟨entries, hsorted⟩ := upper
  change (entries.foldl (fun merged entry ↦ merged.insert entry.1 entry.2) map).find? name =
    (entries.lookup name).or (map.find? name)
  induction entries generalizing map with
  | nil => rfl
  | cons entry rest ih =>
    obtain ⟨hentry, hrest⟩ := List.pairwise_cons.mp hsorted
    rw [List.foldl_cons, ih _ hrest, find?_insert, lookup_cons_eq_ite]
    by_cases heq : name = entry.1
    · have hnone : rest.lookup name = none := by
        refine Option.eq_none_iff_forall_ne_some.mpr fun value hvalue ↦ ?_
        have hlt := hentry _ ((lookup_eq_some_iff_mem hrest name value).mp hvalue)
        exact String.lt_irrefl _ (heq ▸ hlt)
      simp [heq, heq ▸ hnone]
    · simp [heq]

end NameMap

end Lineage
