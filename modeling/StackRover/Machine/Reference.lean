import StackRover.Machine

/-!
# The reference

What a machine can tell about the terms that its programs may use.

* `Machine.entries`: everything that a term can name, each name once.
* `Machine.groups`: the same by category.
* `Machine.describe`: the reference text for one name.
-/

namespace StackRover.Machine

variable {σ : Type}

/-- Everything that a term can name: the operations that no definition stands in for, then the
definitions. -/
def entries (machine : Machine σ) : List Entry :=
  let definitions := machine.memory.definitions
  (machine.operations.entries.filter (fun o => !definitions.contains o.name)).map .operation ++
    definitions.entries.map .definition

/-- A category with the names and descriptions of its entries. -/
structure Group where
  category : Category
  items : List (String × String)
  deriving Repr, DecidableEq

/-- The entries of a category, sorted by name. -/
def group (entries : List Entry) (category : Category) : Group where
  category := category
  items :=
    ((entries.filter (fun entry => entry.category = category)).map
      (fun entry => (entry.name, entry.description))).mergeSort (fun a b => a.1 ≤ b.1)

/-- The entries by category, the categories in the order in which they first appear. -/
def groups (machine : Machine σ) : List Group :=
  (machine.entries.map Entry.category).eraseDups.map (group machine.entries)

/-- The names that a term can have, sorted. -/
def words (machine : Machine σ) : List String :=
  (machine.operations.names ++ machine.memory.definitions.names).eraseDups.mergeSort
    (fun a b => a ≤ b)

/-- The definitions, sorted by name. -/
def definitionsByName (machine : Machine σ) : List Definition :=
  machine.memory.definitions.entries.mergeSort (fun a b => a.name ≤ b.name)

/-- The reference text for a name. A definition is shown as the program text that makes it; built-in
operations are known even if they are not active. -/
def describe (machine : Machine σ) (name : String) : String :=
  let describeOperation (o : Operation) : String := o.usage ++ "\n  " ++ o.description
  match machine.resolve name with
  | some (.definition d) => "DEF " ++ name ++ " " ++ String.intercalate " " d.body ++ " END"
  | some (.operation o) => describeOperation o
  | none =>
    match Builtin.catalogue.find? name with
    | some o => describeOperation o
    | none => "'" ++ name ++ "' not found"

end StackRover.Machine
