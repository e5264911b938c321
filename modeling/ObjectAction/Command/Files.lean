/-
The files of a working directory, and what a path leads to in it.
-/
namespace ObjectAction.Command

/-- Why a file cannot be read. -/
inductive ReadError where
  | missing
  | denied
  | notDirectory
  | isDirectory
  | nameTooLong
  | other (reason : String)
  deriving DecidableEq, Repr

def ReadError.message : ReadError → String
  | missing => "No such file or directory (os error 2)"
  | denied => "Permission denied (os error 13)"
  | notDirectory => "Not a directory (os error 20)"
  | isDirectory => "Is a directory (os error 21)"
  | nameTooLong => "File name too long (os error 36)"
  | other reason => reason

/-- Whether a part of a path leads nowhere. -/
def staysHere (part : String) : Bool := part = "" || part = "."

/-- The texts of files below a directory, each with the names of the directories on the way to it
and its own. -/
structure Files where
  /-- Whether the directory is the root, which is its own parent. -/
  isRoot : Bool
  entries : List (List String × String)

namespace Files

/-- Files by their paths from the working directory. -/
def ofList (files : List (String × String)) : Files :=
  ⟨false, files.map fun (path, text) => ((path.splitOn "/").filter (!staysHere ·), text)⟩

/-- The files at absolute paths: only the null device is known, which is empty. -/
def system : Files := ⟨true, [(["dev", "null"], "")]⟩

/-- Whether there are files below `names`. -/
def isDirectory (files : Files) (names : List String) : Bool :=
  files.entries.any fun (path, _) => names.isPrefixOf path && path ≠ names

/-- The longest name that a file can have, in bytes. -/
def maxName : Nat := 255

/-- The longest path, in bytes. -/
def maxPath : Nat := 4095

/-- The directory above. Outside the working directory nothing is known, for which `none` stands. -/
def parent? (files : Files) (names : List String) : Option (List String) :=
  if names.isEmpty && !files.isRoot then none else some names.dropLast

/-- Follows the parts of a path from a directory. -/
def follow (files : Files) : Option (List String) → List String → Except ReadError String
  | _, [] => .error .isDirectory
  | place, part :: parts =>
    if staysHere part then follow files place parts
    else if part = ".." then follow files (place.bind files.parent?) parts
    else if maxName < part.utf8ByteSize then .error .nameTooLong
    else match place.map (· ++ [part]) with
      | none => .error .missing
      | some names =>
        match files.entries.lookup names with
        | some text => if parts.isEmpty then .ok text else .error .notDirectory
        | none =>
          if files.isDirectory names then follow files (some names) parts else .error .missing

/-- The text of the file that a path leads to. -/
def text (files : Files) (path : String) : Except ReadError String :=
  if path = "" then .error .missing
  else if maxPath < path.utf8ByteSize then .error .nameTooLong
  else follow (if path.startsWith "/" then system else files) (some []) (path.splitOn "/")

end Files

end ObjectAction.Command
