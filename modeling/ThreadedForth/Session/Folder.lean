import ThreadedForth.Fault
import ThreadedForth.Text.Quoted

/-!
# Files by their paths

What a program that runs in a folder finds under a path.  A folder is given by the
files in it and below it, each with its path; the folders on the way to a file are
there because the file is.

A path is read name by name.  Empty names and single dots stay where they are, and
two dots go back to the folder above.  Every other name must be that of a file or
folder at the place that is reached, and only a folder can be gone on from.  Of the
world outside the folder nothing is known: nothing is found there.
-/

namespace ThreadedForth

/-- The files in and below a folder, with their paths as lists of names. -/
structure Folder where
  files : List (List String × String)

namespace Folder

/-- The greatest number of bytes of a name. -/
def maxName : Nat := 255

/-- The greatest number of bytes of a path. -/
def maxPath : Nat := 4095

/-- The names that a path is made of. -/
def namesOf (path : String) : List String :=
  (path.splitOn "/").filter fun name => name ≠ "" ∧ name ≠ "."

/-- The folder with the given files. -/
def ofFiles (files : List (String × String)) : Folder :=
  ⟨files.map fun (path, text) => (namesOf path, text)⟩

/-- The text of the file at a place. -/
def file? (folder : Folder) (place : List String) : Option String :=
  (folder.files.find? fun file => file.1 = place).map Prod.snd

/-- Whether there is a folder at a place. -/
def isFolder (folder : Folder) (place : List String) : Bool :=
  place.isEmpty || folder.files.any fun file => place.isPrefixOf file.1 && file.1 ≠ place

/-- Reads the names of a path from a place outside the folder on, where every name is
missing. -/
def followOutside (shown : String) (names : List String) : Fault :=
  match names.dropWhile (· = "..") with
  | [] => .notAFile shown
  | name :: _ => if maxName < name.utf8ByteSize then .pathTooLong shown else .missingFile shown

/-- Reads the names of a path from a place on.  `shown` is the path as faults quote
it. -/
def follow (folder : Folder) (shown : String) :
    (place names : List String) → Except Fault String
  | place, [] =>
    match folder.file? place with
    | some text => .ok text
    | none => .error (.notAFile shown)
  | place, name :: rest =>
    if (folder.file? place).isSome then .error (.notAFolder shown)
    else if name = ".." then
      if place = [] then .error (followOutside shown rest)
      else follow folder shown place.dropLast rest
    else if maxName < name.utf8ByteSize then .error (.pathTooLong shown)
    else
      let there := place ++ [name]
      if (folder.file? there).isSome || folder.isFolder there then follow folder shown there rest
      else .error (.missingFile shown)

/-- The text of the file that a path leads to. -/
def read (folder : Folder) (path : String) : Except Fault String :=
  let shown := Text.quoted path
  if path.toList.contains '\x00' then .error .nullInPath
  else if maxPath < path.utf8ByteSize then .error (.pathTooLong shown)
  else if path.toList.head? = some '/' then .error (followOutside shown (namesOf path))
  else follow folder shown [] (namesOf path)

end Folder
end ThreadedForth
