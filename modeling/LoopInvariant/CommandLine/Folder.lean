/-!
# Paths in a folder

What a path leads to, seen from a folder that holds files only. Of the folders around it nothing is
known but that they are there.
-/

namespace LoopInvariant.CommandLine

/-- Why a path leads to no file. -/
inductive PathError where
  /-- There is nothing of that name. -/
  | missing
  /-- The path goes on after a file. -/
  | notFolder
  /-- The path ends at a folder. -/
  | isFolder
  /-- A name has more than 255 bytes, or the path more than 4095. -/
  | nameTooLong
  deriving DecidableEq

/-- The message of a path error. -/
def PathError.message : PathError → String
  | missing => "No such file or directory (os error 2)"
  | notFolder => "Not a directory (os error 20)"
  | isFolder => "Is a directory (os error 21)"
  | nameTooLong => "File name too long (os error 36)"

/-- The files of a folder, with their names. -/
structure Folder where
  files : List (String × String)

namespace Folder

/-- Where a part of a path leads. -/
inductive Place where
  /-- The folder. -/
  | inside
  /-- A folder around it. -/
  | outside
  /-- A file with a text. -/
  | file (text : String)

/-- Follow one name of a path. -/
def follow (f : Folder) : Place → String → Except PathError Place
  | .file _, _ => .error .notFolder
  | p, "" => .ok p
  | p, "." => .ok p
  | _, ".." => .ok .outside
  | p, name =>
    if 255 < name.utf8ByteSize then .error .nameTooLong
    else
      match p, f.files.lookup name with
      | .inside, some text => .ok (.file text)
      | _, _ => .error .missing

/-- The text of the file that a path leads to. -/
def read (f : Folder) (path : String) : Except PathError String :=
  if path = "" then .error .missing
  else if 4095 < path.utf8ByteSize then .error .nameTooLong
  else do
    let start := if path.startsWith "/" then Place.outside else .inside
    match ← (path.splitOn "/").foldlM f.follow start with
    | .file text => .ok text
    | _ => .error .isFolder

end Folder

end LoopInvariant.CommandLine
