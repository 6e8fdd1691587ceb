import Wiring.Text

/-!
# Resources

A location names a resource: a description for people and the bytes, if there are any.
Locations start with `classpath:` or `file:` or with neither, which means the class path.
-/

namespace Wiring

abbrev Bytes := List UInt8

inductive IoErrorKind where
  | notFound
  /-- The bytes are not what they should be. -/
  | invalidData
  | invalidInput
  | other
deriving Repr, DecidableEq

structure IoError where
  kind : IoErrorKind
  message : String
deriving Repr, DecidableEq

structure Resource where
  description : String
  contents : Except IoError Bytes

namespace Resource

def missing (description : String) : IoError :=
  ⟨.notFound, description ++ " cannot be opened because it does not exist"⟩

/-- There are bytes to read. -/
def isPresent (r : Resource) : Bool :=
  match r.contents with
  | .ok _ => true
  | .error _ => false

def onClassPath (path : String) : String := "class path resource [" ++ path ++ "]"

end Resource

def classPathStart : String := "classpath:"

def fileStart : String := "file:"

/-- The path that a class path location names. -/
def classPathOf (location : String) : String :=
  let path := (Text.after? classPathStart location).getD location
  String.ofList (path.toList.dropWhile (· = '/'))

/-- Resources held in memory, by their path on the class path. -/
structure Resources where
  contents : List (String × Bytes) := []

namespace Resources

/-- Holds `bytes` at the location in place of what was held there. -/
def insert (rs : Resources) (location : String) (bytes : Bytes) : Resources :=
  ⟨(classPathOf location, bytes) :: rs.contents⟩

def bytes? (rs : Resources) (location : String) : Option Bytes :=
  rs.contents.lookup (classPathOf location)

def get (rs : Resources) (location : String) : Resource :=
  let description := Resource.onClassPath (classPathOf location)
  { description
    contents := match rs.bytes? location with
      | some bytes => .ok bytes
      | none => .error (Resource.missing description) }

def has (rs : Resources) (location : String) : Bool := (rs.bytes? location).isSome

end Resources

/-- The files below a working directory, each by the names on its path.  Of what lies outside
only the directories above are known. -/
structure FileTree where
  files : List (List String × Bytes) := []

namespace FileTree

/-- The names on a path.  Empty names and single dots name the directory itself. -/
def names (path : String) : List String :=
  ((Text.pieces (· = '/') path.toList).map String.ofList).filter fun n => n ≠ "" && n ≠ "."

def ofFiles (files : List (String × Bytes)) : FileTree :=
  ⟨files.reverse.map fun (path, bytes) => (names path, bytes)⟩

def isDirectory (t : FileTree) (at_ : List String) : Bool :=
  at_.isEmpty || t.files.any fun (path, _) => at_.isPrefixOf path && at_ ≠ path

/-- What stands at the end of a path. -/
inductive Found where
  | file (bytes : Bytes)
  | directory
  | missing
  /-- A file stands where the path needs a directory. -/
  | blocked
deriving DecidableEq

/-- Follows the names on a path from a directory above the tree. -/
def above (path : List String) : Found := if path.all (· = "..") then .directory else .missing

/-- Follows the names on a path from the directory `at_`. -/
def walk (t : FileTree) (at_ : List String) : List String → Found
  | [] => .directory
  | ".." :: rest => if at_.isEmpty then above rest else walk t at_.dropLast rest
  | name :: rest =>
    let next := at_ ++ [name]
    match t.files.lookup next with
    | some bytes => if rest.isEmpty then .file bytes else .blocked
    | none => if t.isDirectory next then walk t next rest else .missing

/-- The path asks for a directory: it ends with a slash or with a single dot for a name. -/
def namesDirectory (path : String) : Bool :=
  ((Text.pieces (· = '/') path.toList).getLast?).any fun last => last = [] || last = ['.']

def find (t : FileTree) (path : String) : Found :=
  if path = "" then .missing
  else if Text.startsWith "/" path then above (names path)
  else
    match t.walk [] (names path) with
    | .file bytes => if namesDirectory path then .blocked else .file bytes
    | found => found

def read (t : FileTree) (path description : String) : Except IoError Bytes :=
  if path.toList.contains '\x00' then
    .error ⟨.invalidInput, "file name contained an unexpected NUL byte"⟩
  else
    match t.find path with
    | .file bytes => .ok bytes
    | .directory => .error ⟨.other, "Is a directory (os error 21)"⟩
    | .missing => .error (Resource.missing description)
    | .blocked => .error ⟨.other, "Not a directory (os error 20)"⟩

/-- The text of a file in UTF-8. -/
def readText? (t : FileTree) (path : String) : Option String :=
  match t.find path with
  | .file bytes => String.fromUTF8? ⟨bytes.toArray⟩
  | _ => none

def isFile (t : FileTree) (path : String) : Bool :=
  match t.find path with
  | .file _ => true
  | _ => false

/-- The path below a root directory. -/
def join (root path : String) : String :=
  if root = "" then path
  else if Text.endsWith "/" root then root ++ path
  else root ++ "/" ++ path

/-- The path of a class path resource: below the first root that has it as a file, or below
the first root of all, or relative without roots. -/
def locate (t : FileTree) (roots : List String) (path : String) : String :=
  match (roots.map (join · path)).find? t.isFile with
  | some candidate => candidate
  | none => (roots.head?.map (join · path)).getD path

def get (t : FileTree) (roots : List String) (location : String) : Resource :=
  match Text.after? fileStart location with
  | some path =>
    let description := "file [" ++ path ++ "]"
    ⟨description, t.read path description⟩
  | none =>
    let path := classPathOf location
    let description := Resource.onClassPath path
    ⟨description, t.read (t.locate roots path) description⟩

end FileTree
end Wiring
