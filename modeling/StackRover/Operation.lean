import StackRover.Builtin
import StackRover.Lexicon
import StackRover.Script

/-!
# Operations and definitions

A term names either a definition made by the program or an operation; definitions come first. An
operation is built in or added by the host.

* `Builtin.catalogue`: the records of all built-in operations.
* `Extension.operation`: the record of an operation that a host adds.
* `Entry`: what a term names.
-/

namespace StackRover

/-- What an operation does. -/
inductive Effect where
  /-- The effect of a built-in operation. -/
  | builtin (builtin : Builtin)
  /-- A script of the host. -/
  | hosted (script : Script)

/-- An operation that terms can name. -/
structure Operation where
  name : String
  category : Category
  /-- How many values the operation needs on the stack. -/
  minDepth : Int
  effect : Effect
  description : String := ""
  /-- How the operation is written in a program. -/
  usage : String := ""

instance : Named Operation := ⟨Operation.name⟩

/-- An operation that a host adds to a machine. -/
structure Extension where
  name : String
  script : Script
  category : Category := .special
  minDepth : Int := 0
  description : String := ""
  /-- How the operation is written in a program; by its name alone if this is empty. -/
  usage : String := ""

/-- The operation that a host adds. -/
def Extension.operation (extension : Extension) : Operation where
  name := extension.name
  category := extension.category
  minDepth := extension.minDepth
  effect := .hosted extension.script
  description := extension.description
  usage := if extension.usage.isEmpty then extension.name else extension.usage

/-- Terms that a program has bound to a name. -/
structure Definition where
  name : String
  body : List String
  deriving Repr, DecidableEq

instance : Named Definition := ⟨Definition.name⟩

namespace Builtin

/-- The record of the operation. -/
def operation (builtin : Builtin) : Operation where
  name := builtin.name
  category := builtin.category
  minDepth := builtin.minDepth
  effect := .builtin builtin
  description := builtin.description
  usage := builtin.usage

/-- The records of all built-in operations. -/
def catalogue : Lexicon Operation where
  entries := all.map operation
  distinct := by decide

end Builtin

/-- What a term names. -/
inductive Entry where
  | definition (definition : Definition)
  | operation (operation : Operation)

namespace Entry

/-- The term that names the entry. -/
def name : Entry → String
  | definition d => d.name
  | operation o => o.name

/-- The group that the entry is listed in. -/
def category : Entry → Category
  | definition _ => .custom
  | operation o => o.category

/-- How many values the entry needs on the stack. -/
def minDepth : Entry → Int
  | definition _ => 0
  | operation o => o.minDepth

/-- What the reference says about the entry. -/
def description : Entry → String
  | definition d => "Function " ++ d.name ++ " defined by user."
  | operation o => o.description

/-- How the entry is written in a program. -/
def usage : Entry → String
  | definition d => d.name
  | operation o => o.usage

end Entry

end StackRover
