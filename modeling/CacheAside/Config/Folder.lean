import CacheAside.Text.Utf8

/-!
# Text files

Reading a text file by its path, relative to a folder that holds plain files only. Folders further up
are known to be there, and to hold nothing but the way down.
-/

namespace CacheAside

/-- Why a text file could not be read. -/
inductive FileError where
  | missing
  | notFolder
  | isFolder
  | nameTooLong
  | nulInPath
  | notText
  deriving DecidableEq

def FileError.message : FileError → String
  | missing => "No such file or directory (os error 2)"
  | notFolder => "Not a directory (os error 20)"
  | isFolder => "Is a directory (os error 21)"
  | nameTooLong => "File name too long (os error 36)"
  | nulInPath => "file name contained an unexpected NUL byte"
  | notText => "stream did not contain valid UTF-8"

/-- A folder of plain files. -/
structure Folder where
  files : List (String × Bytes)

namespace Folder

/-- Where the steps of a path have led. -/
inductive Place where
  | home
  /-- A folder above the one that paths start from. -/
  | above
  | file (content : Bytes)

/-- The longest name of one file, in bytes. -/
def maxNameLength : Nat := 255

/-- The longest path, in bytes. -/
def maxPathLength : Nat := 4095

/-- Follows the names of a path. An empty name is a folder's name for itself. -/
def follow (f : Folder) : Place → List String → Except FileError Place
  | place, [] => .ok place
  | .file _, _ :: _ => .error .notFolder
  | place, name :: names =>
    if maxNameLength < name.utf8ByteSize then .error .nameTooLong
    else if name = "" ∨ name = "." then follow f place names
    else if name = ".." then follow f .above names
    else
      match place, f.files.lookup name with
      | .home, some content => follow f (.file content) names
      | _, _ => .error .missing

/-- The text of the file at a path. -/
def read (f : Folder) (path : String) : Except FileError String :=
  if path.toList.contains '\x00' then .error .nulInPath
  else if path = "" then .error .missing
  else if maxPathLength < path.utf8ByteSize then .error .nameTooLong
  else
    match follow f (if path.toList.head? = some '/' then .above else .home) (path.splitOn "/") with
    | .error e => .error e
    | .ok (.file content) =>
      match ofUtf8? content with
      | some text => .ok text
      | none => .error .notText
    | .ok _ => .error .isFolder

end Folder

end CacheAside
