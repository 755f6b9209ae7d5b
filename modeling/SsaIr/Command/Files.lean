/-!
# Files

The files that commands read and write, as a tree of names. `FileTree.read` and `FileTree.write`
follow a path from the working directory; every directory that holds a file exists, and the
directories do not change. Nothing is known about what lies outside of the working directory but its
directories on the way up, and the null device.
-/

namespace SsaIr

inductive FileReason where
  | missing
  | denied
  | notDirectory
  | isDirectory
  | nameTooLong
  | invalidPath
  | other (text : String)
deriving DecidableEq, Repr, Inhabited

namespace FileReason

def message : FileReason → String
  | missing => "no such file or directory"
  | denied => "permission denied"
  | notDirectory => "not a directory"
  | isDirectory => "is a directory"
  | nameTooLong => "file name too long"
  | invalidPath => "invalid argument"
  | other t => t

end FileReason

inductive FileAction where
  | opening
  | reading
deriving DecidableEq, Repr, Inhabited

structure FileError where
  action : FileAction
  path : String
  reason : FileReason
deriving DecidableEq, Repr, Inhabited

def FileError.message (e : FileError) : String :=
  let action :=
    match e.action with
    | .opening => "open"
    | .reading => "read"
  s!"{action} {e.path}: {e.reason.message}"

/-- Access to files in the course of a computation. -/
class FileAccess (m : Type → Type) where
  load : String → m (Except FileError String)
  save : String → String → m (Except FileError Unit)

/-- The files below the working directory, by their paths, each with its content. -/
structure FileTree where
  files : List (List String × String) := []
deriving DecidableEq, Repr, Inhabited

namespace FileTree

inductive Node where
  | file (content : String)
  | directory
  | nothing
deriving DecidableEq, Repr

inductive Place where
  | inside (names : List String)
  | above
  | elsewhere
  | nullDevice
deriving DecidableEq, Repr

def nodeAt (t : FileTree) : Place → Node
  | .inside names =>
    match t.files.lookup names with
    | some content => .file content
    | none =>
      if names.isEmpty || t.files.any fun f => names.isPrefixOf f.1 then .directory else .nothing
  | .above => .directory
  | .elsewhere => .nothing
  | .nullDevice => .file ""

def Place.child (name : String) : Place → Place
  | inside names => inside (names ++ [name])
  | _ => elsewhere

def Place.parent : Place → Place
  | inside [] => above
  | inside names => inside names.dropLast
  | p => p

def maxNameLength : Nat := 255

def pathLimit : Nat := 4096

/-- Follow names from a place. A name can only be looked up in a directory, and only the last name
may be missing. -/
def follow (t : FileTree) (place : Place) : List String → Except FileReason Place
  | [] => .ok place
  | name :: rest =>
    match t.nodeAt place with
    | .file _ => .error .notDirectory
    | .nothing => .error .missing
    | .directory =>
      if name = "" || name = "." then follow t place rest
      else if name = ".." then follow t place.parent rest
      else if maxNameLength < name.length then .error .nameTooLong
      else follow t (place.child name) rest

def resolve (t : FileTree) (path : String) : Except FileReason Place :=
  if path.contains '\x00' then .error .invalidPath
  else if path = "" then .error .missing
  else if pathLimit ≤ path.length then .error .nameTooLong
  else
    let names := path.splitOn "/"
    if path.startsWith "/" then
      if names.filter (fun n => n ≠ "" && n ≠ ".") = ["dev", "null"] then .ok .nullDevice
      else t.follow .above names
    else t.follow (.inside []) names

def read (t : FileTree) (path : String) : Except FileError String :=
  match t.resolve path with
  | .error reason => .error ⟨.opening, path, reason⟩
  | .ok place =>
    match t.nodeAt place with
    | .file content => .ok content
    | .directory => .error ⟨.reading, path, .isDirectory⟩
    | .nothing => .error ⟨.opening, path, .missing⟩

def withoutSlashes (path : String) : String :=
  match path.toList with
  | [] => ""
  | c :: cs => String.ofList (c :: (cs.reverse.dropWhile (· = '/')).reverse)

/-- Create or replace the file at a path. A path that ends in a slash can only be a directory. What
is written outside of the tree leaves it as it is. -/
def write (t : FileTree) (path content : String) : Except FileError FileTree :=
  match t.resolve (withoutSlashes path) with
  | .error reason => .error ⟨.opening, path, reason⟩
  | .ok place =>
    if path.endsWith "/" || t.nodeAt place = .directory then
      .error ⟨.opening, path, .isDirectory⟩
    else
      match place with
      | .inside names => .ok ⟨(names, content) :: t.files.filter (·.1 ≠ names)⟩
      | _ => .ok t

/-- The files that are new or different since an earlier tree, by their paths. -/
def changedSince (t before : FileTree) : List (String × String) :=
  (t.files.filter fun f => before.files.lookup f.1 ≠ some f.2).map fun f =>
    ("/".intercalate f.1, f.2)

def ofFiles (files : List (String × String)) : FileTree :=
  ⟨files.map fun f => ((f.1.splitOn "/").filter fun n => n ≠ "" && n ≠ ".", f.2)⟩

instance : FileAccess (StateM FileTree) where
  load path := return (← get).read path
  save path content := do
    match (← get).write path content with
    | .ok t => set t; return .ok ()
    | .error e => return .error e

end FileTree

end SsaIr
