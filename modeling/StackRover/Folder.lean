import StackRover.Fault

/-!
# Folders

A folder holds program files, directly or in folders inside it. A path is a list of parts between
slashes; it is followed part by part, and the first part that cannot be followed decides what is
wrong with it.

* `Folder.read`: the text of the file that a path leads to, or what is wrong with the path.
* `Folder.follow_file`: a file ends its path.
-/

namespace StackRover

/-- Program files, by the parts of their paths. -/
structure Folder where
  files : List (List String × String) := []
  deriving Repr, DecidableEq

namespace Folder

/-- The greatest size of one part of a path, in bytes. -/
def partLimit : Nat := 255

/-- The greatest size of a path, in bytes. -/
def pathLimit : Nat := 4095

/-- The parts of a path between its slashes. -/
def parts (path : String) : List String := (Text.cut (· == '/') path.toList).map String.ofList

/-- Whether the part leaves a path where it is. -/
def isIdle (part : String) : Bool := part == "" || part == "."

/-- The folder with the given files. -/
def ofList (files : List (String × String)) : Folder :=
  ⟨files.map fun (path, text) => ((parts path).filter (fun part => !isIdle part), text)⟩

/-- Whether there is a folder at the given place: some file lies inside it. -/
def hasFolder (folder : Folder) (place : List String) : Bool :=
  folder.files.any fun (path, _) => place.isPrefixOf path && place.length < path.length

/-- What is wrong with a path that has left the folder: nothing is found outside. -/
def outsideTrouble : List String → PathTrouble
  | [] => .isFolder
  | part :: rest =>
    if isIdle part || part == ".." then outsideTrouble rest
    else if partLimit < part.utf8ByteSize then .tooLong
    else .missing

/-- Follow the parts of a path from a place in the folder. -/
def follow (folder : Folder) (place : List String) : List String → Except PathTrouble String
  | [] => .error .isFolder
  | part :: rest =>
    if isIdle part then folder.follow place rest
    else if part = ".." then
      if place.isEmpty then .error (outsideTrouble rest) else folder.follow place.dropLast rest
    else if partLimit < part.utf8ByteSize then .error .tooLong
    else
      match folder.files.lookup (place ++ [part]) with
      | some text => if rest.isEmpty then .ok text else .error .notFolder
      | none =>
        if folder.hasFolder (place ++ [part]) then folder.follow (place ++ [part]) rest
        else .error .missing

/-- A file ends its path. -/
theorem follow_file {folder : Folder} {place : List String} {part text : String}
    (hidle : isIdle part = false) (hup : part ≠ "..") (hsize : part.utf8ByteSize ≤ partLimit)
    (hfile : folder.files.lookup (place ++ [part]) = some text) :
    folder.follow place [part] = .ok text := by
  have hsize : ¬ partLimit < part.utf8ByteSize := by omega
  simp [follow, hidle, hup, hsize, hfile]

/-- The text of the file that a path leads to. -/
def read (folder : Folder) (path : String) : Except Failure String :=
  if path.toList.contains '\x00' then .error .nullInPath
  else if pathLimit < path.utf8ByteSize then .error (.unreadable .tooLong path)
  else if path.toList.head? = some '/' then
    .error (.unreadable (outsideTrouble (parts path)) path)
  else
    match folder.follow [] (parts path) with
    | .ok text => .ok text
    | .error trouble => .error (.unreadable trouble path)

end Folder

end StackRover
