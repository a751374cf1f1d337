/-!
# Lexicons

A lexicon is a list of named entries with pairwise different names. A new entry goes to the end; an
entry whose name is taken goes to the place of the one that it replaces.

* `find?_insert`: after an insertion its name finds the new entry, every other name what it found.
* `find?_name_of_mem`: an entry is found by its name.
* `find?_isSome_iff`: the names found are the names listed.
-/

namespace StackRover

/-- Things with a name. -/
class Named (α : Type) where
  name : α → String

/-- Named entries with pairwise different names, in order. -/
structure Lexicon (α : Type) [Named α] where
  entries : List α
  distinct : (entries.map Named.name).Nodup

namespace Lexicon

variable {α : Type} [Named α]

@[ext] theorem ext {l r : Lexicon α} (h : l.entries = r.entries) : l = r := by
  cases l; cases r; cases h; rfl

/-- The lexicon without entries. -/
def empty : Lexicon α := ⟨[], List.nodup_nil⟩

instance : Inhabited (Lexicon α) := ⟨empty⟩

/-- The names of the entries, in order. -/
def names (lexicon : Lexicon α) : List String := lexicon.entries.map Named.name

/-- The entry with the given name. -/
def find? (lexicon : Lexicon α) (name : String) : Option α :=
  lexicon.entries.find? (fun entry => Named.name entry == name)

/-- Whether there is an entry with the given name. -/
def contains (lexicon : Lexicon α) (name : String) : Bool := (lexicon.find? name).isSome

/-- Replace the entry of the same name, or append the entry. -/
def place (entry : α) : List α → List α
  | [] => [entry]
  | first :: rest =>
    if Named.name first = Named.name entry then entry :: rest else first :: place entry rest

theorem mem_map_name_place (entry : α) (entries : List α) (name : String) :
    name ∈ (place entry entries).map Named.name ↔
      name = Named.name entry ∨ name ∈ entries.map Named.name := by
  induction entries with
  | nil => simp [place]
  | cons first rest ih =>
    unfold place
    split
    · rename_i h
      simp [h]
    · simp only [List.map_cons, List.mem_cons, ih]
      constructor
      · rintro (h | h | h)
        · exact Or.inr (Or.inl h)
        · exact Or.inl h
        · exact Or.inr (Or.inr h)
      · rintro (h | h | h)
        · exact Or.inr (Or.inl h)
        · exact Or.inl h
        · exact Or.inr (Or.inr h)

theorem nodup_map_name_place (entry : α) {entries : List α}
    (h : (entries.map Named.name).Nodup) : ((place entry entries).map Named.name).Nodup := by
  induction entries with
  | nil => simp [place]
  | cons first rest ih =>
    rw [List.map_cons, List.nodup_cons] at h
    unfold place
    split
    · rename_i hname
      rw [List.map_cons, List.nodup_cons, ← hname]
      exact h
    · rename_i hname
      rw [List.map_cons, List.nodup_cons, mem_map_name_place]
      exact ⟨fun hm => hm.elim hname h.1, ih h.2⟩

/-- Add an entry, in the place of the one of the same name if there is one. -/
def insert (lexicon : Lexicon α) (entry : α) : Lexicon α :=
  ⟨place entry lexicon.entries, nodup_map_name_place entry lexicon.distinct⟩

/-- The lexicon of a list; of two entries of one name the later stands in the place of the
earlier. -/
def ofList (entries : List α) : Lexicon α := entries.foldl insert empty

/-! ## Finding -/

theorem name_of_find? {lexicon : Lexicon α} {name : String} {entry : α}
    (h : lexicon.find? name = some entry) : Named.name entry = name := by
  simpa using List.find?_some h

/-- An entry is found by its name. -/
theorem find?_name_of_mem {lexicon : Lexicon α} {entry : α} (h : entry ∈ lexicon.entries) :
    lexicon.find? (Named.name entry) = some entry := by
  obtain ⟨entries, distinct⟩ := lexicon
  simp only [find?] at h ⊢
  induction entries with
  | nil => cases h
  | cons first rest ih =>
    rw [List.map_cons, List.nodup_cons] at distinct
    rcases List.mem_cons.mp h with rfl | hrest
    · simp
    · have hne : Named.name first ≠ Named.name entry := fun he =>
        distinct.1 (he ▸ List.mem_map.mpr ⟨entry, hrest, rfl⟩)
      rw [List.find?_cons_of_neg (by simpa using hne)]
      exact ih distinct.2 hrest

theorem find?_place (entry : α) (entries : List α) (name : String) :
    (place entry entries).find? (fun e => Named.name e == name) =
      if name = Named.name entry then some entry
      else entries.find? (fun e => Named.name e == name) := by
  induction entries with
  | nil =>
    by_cases h : name = Named.name entry
    · simp [place, h]
    · simp [place, h, Ne.symm h]
  | cons first rest ih =>
    unfold place
    by_cases hname : Named.name first = Named.name entry
    · by_cases h : name = Named.name entry
      · simp [hname, h]
      · have h' : ¬ Named.name entry = name := fun e => h e.symm
        simp [hname, h, h']
    · by_cases h : Named.name first = name
      · have h' : ¬ name = Named.name entry := fun e => hname (h.trans e)
        simp [h, h']
      · simp [hname, h, ih]

/-- After an insertion its name finds the new entry, every other name what it found before. -/
theorem find?_insert (lexicon : Lexicon α) (entry : α) (name : String) :
    (lexicon.insert entry).find? name =
      if name = Named.name entry then some entry else lexicon.find? name :=
  find?_place entry lexicon.entries name

/-- The names found are the names listed. -/
theorem find?_isSome_iff (lexicon : Lexicon α) (name : String) :
    (lexicon.find? name).isSome = true ↔ name ∈ lexicon.names := by
  simp [find?, names, List.find?_isSome]

@[simp] theorem find?_empty (name : String) : (empty : Lexicon α).find? name = none := rfl

end Lexicon

end StackRover
