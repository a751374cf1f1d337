import Mathlib.Data.List.Nodup
import Mathlib.Data.String.Basic
import StackRover.Machine.Reference

/-!
# The reference and what terms name

The reference lists the entries of a machine twice, by category and as sorted words, and a step
finds them by name. Operations and definitions are lexicons, so each name has one entry, and a
definition takes the place of an operation of its name in the lists as it does in a step. Hence the
lists and the steps agree on every machine, whatever was added, defined, dropped and run before.

* `pairwise_mergeSort_key`: sorted by keys that are all different, a list is strictly increasing.
* `mem_entries_iff`: the entries listed are those that are found.
* `nodup_names_entries`: each name is listed once.
* `reference_agrees`: groups, words and entries.
-/

namespace StackRover

variable {σ α : Type}

/-! ## Lists without duplicates -/

theorem nodup_eraseDups [BEq α] [LawfulBEq α] (l : List α) : l.eraseDups.Nodup := by
  generalize hlength : l.length = length
  induction length using Nat.strongRecOn generalizing l with
  | ind length ih =>
    cases l with
    | nil => exact List.nodup_nil
    | cons a l =>
      have hle : (l.filter fun b => !b == a).length ≤ l.length := List.length_filter_le _ l
      rw [List.length_cons] at hlength
      rw [List.eraseDups_cons, List.nodup_cons]
      refine ⟨?_, ih _ (by omega) _ rfl⟩
      rw [List.mem_eraseDups, List.mem_filter]
      simp

/-- Sorted by keys that are all different, a list is strictly increasing. -/
theorem pairwise_mergeSort_key (key : α → String) {l : List α} (h : (l.map key).Nodup) :
    ((l.mergeSort fun a b => key a ≤ key b).map key).Pairwise (· < ·) := by
  have hsorted : (l.mergeSort fun a b => key a ≤ key b).Pairwise
      fun a b => decide (key a ≤ key b) = true := by
    apply List.pairwise_mergeSort
    · intro a b c hab hbc
      rw [decide_eq_true_eq] at *
      exact le_trans hab hbc
    · intro a b
      rw [Bool.or_eq_true, decide_eq_true_eq, decide_eq_true_eq]
      exact le_total _ _
  have hnodup : ((l.mergeSort fun a b => key a ≤ key b).map key).Nodup :=
    ((List.mergeSort_perm l _).map key).nodup_iff.mpr h
  rw [List.Nodup, List.pairwise_map] at hnodup
  rw [List.pairwise_map]
  refine hsorted.imp₂ (fun a b hle hne => ?_) hnodup
  exact lt_of_le_of_ne (of_decide_eq_true hle) hne

/-! ## Entries -/

namespace Lexicon

variable [Named α] {lexicon : Lexicon α}

/-- The entries are what their names find. -/
theorem mem_entries_iff {entry : α} :
    entry ∈ lexicon.entries ↔ lexicon.find? (Named.name entry) = some entry :=
  ⟨find?_name_of_mem, List.mem_of_find?_eq_some⟩

theorem contains_eq_false_iff {name : String} :
    lexicon.contains name = false ↔ lexicon.find? name = none := by
  rw [contains, Option.isSome_eq_false_iff, Option.isNone_iff_eq_none]

end Lexicon

namespace Machine

variable {m : Machine σ}

theorem name_of_resolve {name : String} {entry : Entry} (h : m.resolve name = some entry) :
    entry.name = name := by
  unfold resolve lookup at h
  cases hfind : m.memory.definitions.find? name with
  | some definition =>
    rw [hfind] at h
    cases h
    exact Lexicon.name_of_find? hfind
  | none =>
    rw [hfind] at h
    obtain ⟨operation, hoperation, rfl⟩ := Option.map_eq_some_iff.mp h
    exact Lexicon.name_of_find? hoperation

theorem resolve_definition_iff {name : String} {definition : Definition} :
    m.resolve name = some (.definition definition) ↔
      m.memory.definitions.find? name = some definition := by
  unfold resolve
  cases m.memory.definitions.find? name <;> simp

theorem resolve_operation_iff {name : String} {operation : Operation} :
    m.resolve name = some (.operation operation) ↔
      m.memory.definitions.find? name = none ∧ m.operations.find? name = some operation := by
  unfold resolve lookup
  cases m.memory.definitions.find? name <;> simp

/-- The entries that are listed are those that steps find by their names. -/
theorem mem_entries_iff {entry : Entry} :
    entry ∈ m.entries ↔ m.resolve entry.name = some entry := by
  unfold entries
  rw [List.mem_append]
  cases entry with
  | definition definition =>
    have hlisted : definition ∈ m.memory.definitions.entries ↔
        m.memory.definitions.find? definition.name = some definition := Lexicon.mem_entries_iff
    rw [Entry.name, resolve_definition_iff, ← hlisted]
    simp
  | operation operation =>
    have hlisted : operation ∈ m.operations.entries ↔
        m.operations.find? operation.name = some operation := Lexicon.mem_entries_iff
    rw [Entry.name, resolve_operation_iff, ← hlisted, ← Lexicon.contains_eq_false_iff]
    simp [and_comm]

/-- Each name is listed once. -/
theorem nodup_names_entries (m : Machine σ) : (m.entries.map Entry.name).Nodup := by
  have hoperations : (m.operations.entries.map Operation.name).Nodup := m.operations.distinct
  have hdefinitions : (m.memory.definitions.entries.map Definition.name).Nodup :=
    m.memory.definitions.distinct
  unfold entries
  rw [List.map_append, List.map_map, List.map_map]
  refine List.nodup_append'.mpr ⟨?_, hdefinitions, ?_⟩
  · exact (List.filter_sublist.map Operation.name).nodup hoperations
  · -- An operation whose name is defined is not among the operations listed.
    intro name hoperation hdefinition
    obtain ⟨operation, hmem, rfl⟩ := List.mem_map.mp hoperation
    have hnone : m.memory.definitions.contains operation.name = false := by
      simpa using (List.mem_filter.mp hmem).2
    have hsome : m.memory.definitions.contains operation.name = true :=
      (Lexicon.find?_isSome_iff _ _).mpr hdefinition
    rw [hnone] at hsome
    cases hsome

/-! ## Groups and words -/

/-- The names in a group, in order. -/
def Group.names (group : Group) : List String := group.items.map Prod.fst

theorem mem_items_group {entries : List Entry} {category : Category} {name description : String} :
    (name, description) ∈ (group entries category).items ↔
      ∃ entry ∈ entries, entry.category = category ∧ entry.name = name ∧
        entry.description = description := by
  simp [group, List.mem_mergeSort, and_assoc]

/-- The names in a group are strictly increasing. -/
theorem pairwise_names_group (m : Machine σ) (category : Category) :
    (group m.entries category).names.Pairwise (· < ·) := by
  refine pairwise_mergeSort_key Prod.fst ?_
  rw [List.map_map]
  exact (List.filter_sublist.map Entry.name).nodup m.nodup_names_entries

/-- There is a group for each category that an entry has. -/
theorem mem_groups_iff {listed : Group} :
    listed ∈ m.groups ↔ ∃ entry ∈ m.entries, group m.entries entry.category = listed := by
  simp [groups, List.mem_eraseDups]

theorem map_category_groups (m : Machine σ) :
    m.groups.map Group.category = (m.entries.map Entry.category).eraseDups := by
  unfold groups
  rw [List.map_map]
  exact List.map_id _

/-- What a group lists is what names find: the group is that of the category, and the text is the
description. -/
theorem listed_iff {category : Category} {name description : String} :
    (∃ listed ∈ m.groups, listed.category = category ∧ (name, description) ∈ listed.items) ↔
      ∃ entry, m.resolve name = some entry ∧ entry.category = category ∧
        entry.description = description := by
  constructor
  · rintro ⟨listed, hlisted, rfl, hitem⟩
    obtain ⟨other, -, rfl⟩ := mem_groups_iff.mp hlisted
    obtain ⟨entry, hentry, hcategory, rfl, hdescription⟩ := mem_items_group.mp hitem
    exact ⟨entry, mem_entries_iff.mp hentry, hcategory, hdescription⟩
  · rintro ⟨entry, hresolve, rfl, rfl⟩
    have hname := name_of_resolve hresolve
    have hentry : entry ∈ m.entries := by
      rw [mem_entries_iff, hname]
      exact hresolve
    exact ⟨_, mem_groups_iff.mpr ⟨entry, hentry, rfl⟩, rfl,
      mem_items_group.mpr ⟨entry, hentry, rfl, hname, rfl⟩⟩

/-- The names in the groups are those that name something. -/
theorem mem_names_groups_iff {name : String} :
    name ∈ m.groups.flatMap Group.names ↔ m.resolve name ≠ none := by
  rw [List.mem_flatMap]
  constructor
  · rintro ⟨listed, hlisted, hname⟩
    obtain ⟨⟨other, description⟩, hitem, rfl⟩ := List.mem_map.mp hname
    obtain ⟨entry, hresolve, -⟩ := listed_iff.mp ⟨listed, hlisted, rfl, hitem⟩
    rw [hresolve]
    exact Option.some_ne_none entry
  · intro hsome
    obtain ⟨entry, hresolve⟩ := Option.ne_none_iff_exists'.mp hsome
    obtain ⟨listed, hlisted, -, hitem⟩ := listed_iff.mpr ⟨entry, hresolve, rfl, rfl⟩
    exact ⟨listed, hlisted, List.mem_map.mpr ⟨_, hitem, rfl⟩⟩

/-- No name stands in two groups: what it names has one category only. -/
theorem nodup_names_groups (m : Machine σ) : (m.groups.flatMap Group.names).Nodup := by
  rw [List.nodup_flatMap]
  refine ⟨fun listed hlisted => ?_, ?_⟩
  · obtain ⟨entry, -, rfl⟩ := mem_groups_iff.mp hlisted
    exact (pairwise_names_group m entry.category).imp fun hlt => ne_of_lt hlt
  · have hcategories : (m.groups.map Group.category).Nodup := by
      rw [map_category_groups]
      exact nodup_eraseDups _
    refine (List.pairwise_map.mp hcategories).imp_of_mem fun {first second} hfirst hsecond hne => ?_
    intro name hname hname'
    obtain ⟨⟨_, description⟩, hitem, rfl⟩ := List.mem_map.mp hname
    obtain ⟨⟨_, description'⟩, hitem', rfl⟩ := List.mem_map.mp hname'
    obtain ⟨entry, hresolve, hcategory, -⟩ := listed_iff.mp ⟨first, hfirst, rfl, hitem⟩
    obtain ⟨entry', hresolve', hcategory', -⟩ := listed_iff.mp ⟨second, hsecond, rfl, hitem'⟩
    rw [hresolve] at hresolve'
    cases hresolve'
    exact hne (hcategory.symm.trans hcategory')

theorem mem_words_iff {name : String} : name ∈ m.words ↔ m.resolve name ≠ none := by
  unfold words resolve lookup
  rw [List.mem_mergeSort, List.mem_eraseDups, List.mem_append, ← Lexicon.find?_isSome_iff,
    ← Lexicon.find?_isSome_iff]
  cases m.memory.definitions.find? name <;> cases m.operations.find? name <;> simp

theorem pairwise_words (m : Machine σ) : m.words.Pairwise (· < ·) := by
  have hnodup := nodup_eraseDups (m.operations.names ++ m.memory.definitions.names)
  rw [← List.map_id m.words]
  refine pairwise_mergeSort_key id ?_
  rw [List.map_id]
  exact hnodup

/-- **The reference agrees with the steps.** In every machine, whatever it was set up with and
whatever was added, defined, dropped and run since: the names in the groups are all different, and
they are the words, which are strictly increasing by their code points. A name is a word exactly if
it names something. It stands in the group of what it names, with the description of that. No two
groups have one category, none is empty, and the names in each are strictly increasing. -/
theorem reference_agrees (m : Machine σ) :
    ((m.groups.flatMap Group.names).Nodup ∧
      ∀ name, name ∈ m.groups.flatMap Group.names ↔ name ∈ m.words) ∧
    m.words.Pairwise (· < ·) ∧
    (∀ name, name ∈ m.words ↔ m.resolve name ≠ none) ∧
    (∀ category name description,
      (∃ listed ∈ m.groups, listed.category = category ∧ (name, description) ∈ listed.items) ↔
        ∃ entry, m.resolve name = some entry ∧ entry.category = category ∧
          entry.description = description) ∧
    (m.groups.map Group.category).Nodup ∧
    ∀ listed ∈ m.groups, listed.items ≠ [] ∧ listed.names.Pairwise (· < ·) := by
  refine ⟨⟨m.nodup_names_groups, fun name => ?_⟩, m.pairwise_words, fun _ => mem_words_iff,
    fun _ _ _ => listed_iff, ?_, fun listed hlisted => ?_⟩
  · rw [mem_names_groups_iff, mem_words_iff]
  · rw [map_category_groups]
    exact nodup_eraseDups _
  · obtain ⟨entry, hentry, rfl⟩ := mem_groups_iff.mp hlisted
    have hitem : (entry.name, entry.description) ∈ (group m.entries entry.category).items :=
      mem_items_group.mpr ⟨entry, hentry, rfl, rfl, rfl⟩
    exact ⟨List.ne_nil_of_mem hitem, pairwise_names_group m entry.category⟩

end Machine

end StackRover
