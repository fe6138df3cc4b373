/-!
# Directories

A directory with all the files below it, and the way from a path to a file. A path leads from directory to directory; it ends
at a file, at a directory, or at a place where a file can be created. The directory stands in the root of a file system with
the usual directories, of which only two devices are known. A file that is created there is out of sight.
-/

namespace TagAsm.Cli

/-- Why a path cannot be followed, or what it leads to cannot be used. -/
inductive Obstacle where
  | missing
  | notDirectory
  | isDirectory
  | noSpace
  | nameTooLong
  deriving DecidableEq, Repr

/-- The obstacle in the words of the operating system. -/
def Obstacle.message : Obstacle → String
  | .missing => "No such file or directory (os error 2)"
  | .notDirectory => "Not a directory (os error 20)"
  | .isDirectory => "Is a directory (os error 21)"
  | .noSpace => "No space left on device (os error 28)"
  | .nameTooLong => "File name too long (os error 36)"

/-! ## Paths -/

/-- The most bytes that a name can have. -/
def maxNameSize : Nat := 255

/-- The most bytes that a path can have. -/
def maxPathSize : Nat := 4095

/-- A path taken apart. -/
structure Path where
  /-- Whether it starts at the root. -/
  absolute : Bool
  /-- The names on the way, `.` and `..` included. -/
  names : List String
  /-- Whether it ends in a slash, as only the path of a directory may. -/
  slashed : Bool
  deriving DecidableEq, Repr

/-- Takes a path apart. Slashes may be doubled. -/
def Path.ofString (path : String) : Except Obstacle Path :=
  if path = "" then .error .missing
  else if path.utf8ByteSize > maxPathSize then .error .nameTooLong
  else .ok ⟨path.toList.head? = some '/', (path.splitOn "/").filter (· ≠ ""), path.toList.getLast? = some '/'⟩

/-- A place in the file system, by the names on the way to it. -/
inductive Place where
  /-- In the directory. -/
  | inside (names : List String)
  /-- In the root that the directory stands in. -/
  | outside (names : List String)
  deriving DecidableEq, Repr

namespace Place

/-- Where a path starts. -/
def start (path : Path) : Place := if path.absolute then .outside [] else .inside []

/-- One directory up. Above the root there is only the root. -/
def parent : Place → Place
  | .inside [] => .outside []
  | .inside names => .inside names.dropLast
  | .outside names => .outside names.dropLast

/-- What has this name in the directory at a place. -/
def child (name : String) : Place → Place
  | .inside names => .inside (names ++ [name])
  | .outside names => .outside (names ++ [name])

end Place

/-! ## Files -/

/-- The directories that stand in every root. -/
def rootDirectories : List String :=
  ["bin", "dev", "etc", "home", "lib", "media", "mnt", "opt", "proc", "root", "run", "sbin", "srv", "sys", "tmp", "usr", "var"]

/-- Files by the names on the way to them. -/
structure Directory where
  files : List (List String × ByteArray)

/-- What there is at a place. -/
inductive Node where
  | file (contents : ByteArray)
  | directory
  /-- Keeps nothing: it takes whatever is written, or it has no space for anything. -/
  | device (full : Bool)
  | absent

namespace Directory

/-- The file, directory or gap at a place. -/
def node (directory : Directory) : Place → Node
  | .inside names =>
    match directory.files.lookup names with
    | some contents => .file contents
    | none =>
      if names = [] || directory.files.any (fun file => names.isPrefixOf file.1) then .directory else .absent
  | .outside [] => .directory
  | .outside [name] => if name ∈ rootDirectories then .directory else .absent
  | .outside ["dev", "null"] => .device false
  | .outside ["dev", "full"] => .device true
  | .outside _ => .absent

/-- Follows names from a place. Each of them is looked up in a directory. -/
def follow (directory : Directory) (place : Place) : List String → Except Obstacle Place
  | [] => .ok place
  | name :: rest =>
    match directory.node place with
    | .absent => .error .missing
    | .file _ | .device _ => .error .notDirectory
    | .directory =>
      if name = "." then directory.follow place rest
      else if name = ".." then directory.follow place.parent rest
      else if name.utf8ByteSize > maxNameSize then .error .nameTooLong
      else directory.follow (place.child name) rest

/-- What a path leads to. A slash at its end asks for a directory. -/
def find (directory : Directory) (path : String) : Except Obstacle Node := do
  let path ← Path.ofString path
  return directory.node (← directory.follow (.start path) (if path.slashed then path.names ++ ["."] else path.names))

/-- Whether there is a regular file at a path. -/
def isFile (directory : Directory) (path : String) : Bool :=
  match directory.find path with
  | .ok (.file _) => true
  | _ => false

/-- What can be read at a path. -/
def read (directory : Directory) (path : String) : Except Obstacle ByteArray := do
  match ← directory.find path with
  | .file contents => .ok contents
  | .directory => .error .isDirectory
  | .device _ => .ok .empty
  | .absent => .error .missing

/-- Writes a file at a path, in place of what it held before. No file is created under a path that ends in a slash: if the
way to its last name can be followed, it counts as the path of a directory, whatever has that name. -/
def write (directory : Directory) (path : String) (contents : ByteArray) : Except Obstacle Directory := do
  let path ← Path.ofString path
  if path.slashed then
    let _ ← directory.follow (.start path) (path.names.dropLast ++ ["."])
    .error .isDirectory
  else
    let place ← directory.follow (.start path) path.names
    match directory.node place, place with
    | .directory, _ => .error .isDirectory
    | .device true, _ => if contents.isEmpty then .ok directory else .error .noSpace
    | .file _, .inside names =>
      .ok ⟨directory.files.map fun file => if file.1 = names then (names, contents) else file⟩
    | .absent, .inside names => .ok ⟨directory.files ++ [(names, contents)]⟩
    | _, _ => .ok directory

end Directory

end TagAsm.Cli
