/-!
# Paths

A path is followed from a directory that contains no other directories. The names `.` and
`..` lead to directories, an empty name stays where it is, and any other name leads to a
file, beyond which there is nothing.
-/

namespace SoftError

/-- Why a file cannot be opened or read. -/
inductive FileError where
  | noSuchFile
  | isDirectory
  | nameTooLong
  | zeroInName
deriving DecidableEq

def FileError.message : FileError → String
  | noSuchFile => "No such file or directory (os error 2)"
  | isDirectory => "Is a directory (os error 21)"
  | nameTooLong => "File name too long (os error 36)"
  | zeroInName => "file name contained an unexpected NUL byte"

namespace Path

def names (path : String) : List String := path.splitOn "/"

/-- Whether a name leads from a directory to a directory. -/
def isDirectoryName (name : String) : Bool := name = "" || name = "." || name = ".."

/-- What a path leads to. -/
inductive Target where
  | directory
  /-- A file with the given name. -/
  | file (name : String)
  /-- A file with the given name, written as a directory by slashes after it. -/
  | slashed (name : String)
  /-- Something beyond a file with the given name. -/
  | beyond (name : String)
deriving DecidableEq

def follow (names : List String) : Target :=
  match names.dropWhile isDirectoryName with
  | [] => .directory
  | [name] => .file name
  | name :: rest => if rest.all (· = "") then .slashed name else .beyond name

/-- The largest size of a name in bytes. -/
def maxNameSize : Nat := 255

def checkName (name : String) : Except FileError Unit :=
  if maxNameSize < name.utf8ByteSize then .error .nameTooLong else .ok ()

/-- The target of a path, unless it has a character that no path can have. -/
def target (path : String) : Except FileError Target :=
  if path.contains (Char.ofNat 0) then .error .zeroInName else .ok (follow (names path))

/-- Whether a file can be created at a path. -/
def create (path : String) : Except FileError Unit := do
  match ← target path with
  | .directory | .slashed _ => .error .isDirectory
  | .file name => checkName name
  | .beyond name =>
    checkName name
    .error .noSuchFile

/-- What there is to read. -/
inductive Opened where
  | file (bytes : List UInt8)
  | directory

/-- The content of a file. -/
def Opened.bytes : Opened → Except FileError (List UInt8)
  | file bytes => .ok bytes
  | directory => .error .isDirectory

/-- Opens what is at a path, given the content to which its file was set before, if any. -/
def load (path : String) (content : Option (List UInt8)) : Except FileError Opened := do
  match ← target path with
  | .directory => return .directory
  | .file name =>
    checkName name
    match content with
    | none => .error .noSuchFile
    | some bytes => return .file bytes
  | .slashed name | .beyond name =>
    checkName name
    .error .noSuchFile

/-- The extension of the last name of a path. A name that only starts with a dot has none. -/
def extension? (path : String) : Option (List Char) :=
  match ((names path).filter fun name => name ≠ "" ∧ name ≠ ".").getLast? with
  | none => none
  | some name =>
    if name = ".." then none
    else
      let reversed := name.toList.reverse
      match reversed.dropWhile (· ≠ '.') with
      | '.' :: _ :: _ => some (reversed.takeWhile (· ≠ '.')).reverse
      | _ => none

end Path

end SoftError
