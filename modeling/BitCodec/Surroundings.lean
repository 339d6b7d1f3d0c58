/-!
# The file system around a process

As much of a file system as settings and diagnostics ask about: which
directories and which other files exist.  A file is the list of names that
leads to it from the root.  Every directory has its parent, and the root is its
own.
-/

namespace BitCodec

/-- The directories that exist beside the root, the other files, and the
directory that relative paths start from. -/
structure Surroundings where
  directories : List (List String)
  files : List (List String)
  workingDirectory : List String
  deriving Repr

/-- Why a file cannot be opened for appending. -/
inductive OpenFailure where
  | nulInPath
  | tooLong
  | notFound
  | notDirectory
  | isDirectory
  deriving DecidableEq, Repr

namespace OpenFailure

def message : OpenFailure → String
  | .nulInPath => "file name contained an unexpected NUL byte"
  | .tooLong => "File name too long (os error 36)"
  | .notFound => "No such file or directory (os error 2)"
  | .notDirectory => "Not a directory (os error 20)"
  | .isDirectory => "Is a directory (os error 21)"

end OpenFailure

namespace Surroundings

/-- The most bytes in a path. -/
def maxPathBytes : Nat :=
  4095

/-- The most bytes in one part of a path. -/
def maxPartBytes : Nat :=
  255

/-- Go from a file to the one that a part of a path names, which takes a
directory. -/
def enter (s : Surroundings) (here : List String) (part : String) :
    Except OpenFailure (List String) :=
  if s.files.contains here then .error .notDirectory
  else if part = "" ∨ part = "." then .ok here
  else if part = ".." then .ok here.dropLast
  else if maxPartBytes < part.utf8ByteSize then .error .tooLong
  else
    let there := here ++ [part]
    if there = s.workingDirectory ∨ s.directories.contains there ∨ s.files.contains there then
      .ok there
    else .error .notFound

def parts (path : String) : List String :=
  path.splitOn "/"

def start (s : Surroundings) (path : String) : List String :=
  if path.startsWith "/" then [] else s.workingDirectory

/-- What is wrong with a path before any part of it is looked up. -/
def pathFailure? (path : String) : Option OpenFailure :=
  if path.contains '\x00' then some .nulInPath
  else if path = "" then some .notFound
  else if maxPathBytes < path.utf8ByteSize then some .tooLong
  else none

def contains (s : Surroundings) (path : String) : Bool :=
  (pathFailure? path).isNone && ((parts path).foldlM s.enter (s.start path)).isOk

/-- Why the last part of a path cannot be opened for appending where it is
looked up.  A file that is not there is made; a slash at the end asks for a
directory. -/
def lastFailure? (s : Surroundings) (here : List String) (last : String) (slash : Bool) :
    Option OpenFailure :=
  if s.files.contains here then some .notDirectory
  else if slash then some .isDirectory
  else
    match s.enter here last with
    | .ok there => if s.files.contains there then none else some .isDirectory
    | .error .notFound => none
    | .error failure => some failure

/-- Why a file cannot be opened for appending, if that is so. -/
def openFailure? (s : Surroundings) (path : String) : Option OpenFailure :=
  let named := ((parts path).reverse.dropWhile (· = "")).reverse
  match pathFailure? path with
  | some failure => some failure
  | none =>
    match named.dropLast.foldlM s.enter (s.start path) with
    | .error failure => some failure
    | .ok here => s.lastFailure? here (named.getLast?.getD "") (path.endsWith "/")

end Surroundings

/-! ## The directory of a path -/

namespace Directory

/-- Drop the parts at the end of a path that name nothing. -/
def trim (parts : List String) : List String :=
  (parts.reverse.dropWhile fun part => part = "" || part = ".").reverse

/-- A path without its last part; the root and the empty path have none. -/
def parent? (path : String) : Option String :=
  let split := path.splitOn "/"
  let (root, body) :=
    match split with
    | "" :: body => ("/", body)
    | "." :: body => (".", body)
    | body => ("", body)
  let body := trim body
  let rest := "/".intercalate (trim body.dropLast)
  if body.isEmpty then if root = "." then some "" else none
  else if root = "." then some (if rest = "" then "." else "./" ++ rest)
  else some (root ++ rest)

end Directory

end BitCodec
