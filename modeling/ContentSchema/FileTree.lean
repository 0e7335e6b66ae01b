import ContentSchema.Fault
import ContentSchema.Text.Pieces
import ContentSchema.Text.Utf8

/-!
# File trees

The files and directories below one directory. A path is followed name by name; every name but the
last has to be that of a directory. `FileSystem` is what is asked of them when files are read.
-/
namespace ContentSchema

/-- A file system to read from. -/
structure FileSystem where
  /-- The place that a path leads to, by the names that lead there directly; no names stand for a place
  that is above the top directory. -/
  locate : String → Except FileError (Option (List String))
  /-- The text of the file at a place. -/
  textAt : Option (List String) → Except FileError String

/-- What stands at a path. -/
inductive FileNode where
  /-- A file with its bytes. -/
  | file (bytes : ByteArray)
  /-- A directory. -/
  | directory

/-- Files and directories, each at the names that lead to it. -/
structure FileTree where
  /-- The nodes below the top directory. -/
  nodes : List (List String × FileNode) := []

namespace FileTree

/-- The node at the end of a list of names. -/
def node? (t : FileTree) (names : List String) : Option FileNode :=
  if names.isEmpty then some .directory else (t.nodes.find? (·.1 == names)).map (·.2)

/-- Puts a node in its place. -/
def put (t : FileTree) (names : List String) (node : FileNode) : FileTree :=
  ⟨(names, node) :: t.nodes.filter (·.1 != names)⟩

/-- Removes the node at the end of a list of names. -/
def erase (t : FileTree) (names : List String) : FileTree := ⟨t.nodes.filter (·.1 != names)⟩

/-- The names of a path. -/
def splitPath (path : String) : List String :=
  (Text.pieces '/' path.toList).map String.ofList

/-- Follows one name of a path from a place; there is nothing known above the top directory. -/
def follow (t : FileTree) (place : Option (List String)) (name : String) :
    Except FileError (Option (List String)) :=
  match place with
  | none => if name.isEmpty || name == "." || name == ".." then .ok none else .error .notFound
  | some names =>
    match t.node? names with
    | none => .error .notFound
    | some (.file _) => .error .notDirectory
    | some .directory =>
      if name.isEmpty || name == "." then .ok (some names)
      else if name == ".." then .ok (if names.isEmpty then none else some names.dropLast)
      else if (t.node? (names ++ [name])).isSome then .ok (some (names ++ [name]))
      else .error .notFound

/-- The place that a path leads to, by the names that lead there directly. -/
def locate (t : FileTree) (path : String) : Except FileError (Option (List String)) :=
  match splitPath path with
  | "" :: _ => .error .notFound
  | names => names.foldlM t.follow (some [])

/-- The text of the file at a place. -/
def textAt (t : FileTree) (place : Option (List String)) : Except FileError String :=
  match place.bind t.node? with
  | some (.file bytes) =>
    let bytes := bytes.data.toList
    match Text.utf8Error? bytes with
    | some _ => .error .notText
    | none => .ok (String.ofList (Text.utf8Lossy bytes))
  | _ => .error .isDirectory

/-- A tree as a file system to read from. -/
def fileSystem (t : FileTree) : FileSystem := ⟨t.locate, t.textAt⟩

instance : Coe FileTree FileSystem := ⟨fileSystem⟩

/-- The text of the file at a path. -/
def text (t : FileTree) (path : String) : Except FileError String := do
  t.textAt (← t.locate path)

/-- Writes a file at the end of names that are followed from a place. A directory on the way is made
when the way first leads to it, also one that the way leaves again. Where a file stands in the way,
the way leads above the top directory or it ends at a directory, no file is written. -/
def writeFrom (t : FileTree) (bytes : ByteArray) (place : List String) : List String → FileTree
  | [] => t
  | name :: names =>
    if name.isEmpty || name == "." then t.writeFrom bytes place names
    else if name == ".." then
      if place.isEmpty then t else t.writeFrom bytes place.dropLast names
    else match t.node? (place ++ [name]) with
      | some .directory => t.writeFrom bytes (place ++ [name]) names
      | some (.file _) => if names.isEmpty then t.put (place ++ [name]) (.file bytes) else t
      | none =>
        if names.isEmpty then t.put (place ++ [name]) (.file bytes)
        else (t.put (place ++ [name]) .directory).writeFrom bytes (place ++ [name]) names

/-- Writes a file at a path and makes the directories on the way to it. -/
def writeFile (t : FileTree) (path : String) (bytes : ByteArray) : FileTree :=
  match splitPath path with
  | "" :: _ => t
  | names => t.writeFrom bytes [] names

/-- Deletes the file at a path, if there is one. -/
def deleteFile (t : FileTree) (path : String) : FileTree :=
  match t.locate path with
  | .ok (some names) => t.erase names
  | _ => t

end FileTree
end ContentSchema
