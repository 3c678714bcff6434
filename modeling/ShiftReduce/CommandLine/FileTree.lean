/-
  A tree of files as a value, and the files at the end of a path in it.

  A path is followed name by name. Every name but the last has to lead to a
  directory, which is asked before the name behind it is looked at: a path
  through a missing directory is not found even if it comes back out of it,
  and nothing is behind a file, not even the file itself.
-/
import ShiftReduce.CommandLine.Files

namespace ShiftReduce

/-- What stands at a place in a tree of files. -/
inductive FileNode where
  | directory
  | file (content : ByteArray)
  /-- A file that is empty and stays so whatever is written to it. -/
  | sink

/-- A place in a tree of files: the names that lead to it from the root, the
last one first. -/
abbrev Place := List String

/-- A tree of files with a current directory in it. -/
structure FileTree where
  /-- What stands below the root, place by place. -/
  nodes : List (Place × FileNode)
  /-- Where a path starts that does not start at the root. -/
  current : Place

namespace FileTree

/-! ### Places -/

/-- A place and all places above it that are below the root. -/
def chain : Place → List Place
  | [] => []
  | name :: above => (name :: above) :: chain above

/-- A tree that has a current directory and the files given in it. -/
def ofFiles (current : Place) (files : List (String × ByteArray)) : FileTree :=
  { nodes := files.map (fun file => (file.1 :: current, .file file.2)) ++
      (chain current).map fun place => (place, .directory)
    current }

/-- What stands at a place; the root is a directory. -/
def node? (tree : FileTree) : Place → Option FileNode
  | [] => some .directory
  | place => (tree.nodes.find? fun node => node.1 = place).map Prod.snd

/-- The content of the file of a name in the current directory. -/
def content? (tree : FileTree) (name : String) : Option ByteArray :=
  match tree.node? (name :: tree.current) with
  | some (.file content) => some content
  | _ => none

/-- Sets what stands at a place. -/
def put (tree : FileTree) (place : Place) (node : FileNode) : FileTree :=
  { tree with nodes := (place, node) :: tree.nodes.filter fun other => other.1 ≠ place }

/-! ### Paths -/

/-- The length in bytes from which a path is refused. -/
def pathLimit : Nat := 4096

/-- The length in bytes from which a name is refused. -/
def nameLimit : Nat := 256

/-- The names in a path; repeated slashes count as one. -/
def names (path : String) : List String :=
  (path.splitOn "/").filter fun name => name ≠ ""

/-- Asks that a place be a directory. -/
def openDirectory (tree : FileTree) (place : Place) : Except FileError Unit :=
  match tree.node? place with
  | some .directory => .ok ()
  | some _ => .error .notDirectory
  | none => .error .notFound

/-- Goes from a directory to a name in it. One dot stays, two go up, and the
root is above itself. -/
def follow (tree : FileTree) (place : Place) (name : String) : Except FileError Place := do
  tree.openDirectory place
  if name = "." then return place
  else if name = ".." then return place.tail
  else if nameLimit ≤ name.utf8ByteSize then throw .nameTooLong
  else return name :: place

/-- Follows names, from the root if the path starts there. -/
def followAll (tree : FileTree) (path : String) (names : List String) : Except FileError Place :=
  if path = "" then throw .notFound
  else if pathLimit ≤ path.utf8ByteSize then throw .nameTooLong
  else names.foldlM tree.follow (if path.startsWith "/" then [] else tree.current)

/-- Reads the file at a path. -/
def read (tree : FileTree) (path : String) : Except FileError ByteArray := do
  let place ← tree.followAll path (names path)
  match tree.node? place with
  | none => throw .notFound
  | some .directory => throw .isDirectory
  | some node =>
    if path.endsWith "/" then throw .notDirectory
    match node with
    | .file content => return content
    | _ => return .empty

/-- Writes a file at a path, over any that is there. A slash behind the last
name asks for a directory, and no directory is written. -/
def write (tree : FileTree) (path : String) (text : String) : Except FileError FileTree := do
  let above ← tree.followAll path (names path).dropLast
  match (names path).getLast? with
  | none => throw .isDirectory
  | some name =>
    tree.openDirectory above
    if path.endsWith "/" then throw .isDirectory
    let place ← tree.follow above name
    match tree.node? place with
    | some .directory => throw .isDirectory
    | some .sink => return tree
    | _ => return tree.put place (.file text.toUTF8)

instance : Files (StateM FileTree) where
  read path tree := (tree.read path, tree)
  write path text tree :=
    match tree.write path text with
    | .ok written => (.ok (), written)
    | .error error => (.error error, tree)

end FileTree

end ShiftReduce
