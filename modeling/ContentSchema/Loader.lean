import ContentSchema.Document.ModelReader
import ContentSchema.Document.ModelWriter
import ContentSchema.FileTree

/-!
# Loading models from files

A loader reads and writes models with one context and keeps those that it read from files. A file
is known by the directory names that lead to it, so different paths to one file share its model;
under another policy it has another one. A model that is kept is used again unless reloading is asked for, whether
the file has changed or not. Only models that were read without a fault are kept.
-/
namespace ContentSchema

open Document (Context)

/-- Why a model cannot be loaded. -/
inductive LoadError where
  /-- The file at a path cannot be read. -/
  | file (path : String) (cause : FileError)
  /-- The document is wrong. -/
  | document (cause : Diagnostic)
  /-- The model at a path has no schema of this name. -/
  | schemaNotFound (path name : String)

/-- The word that tells this error from others. -/
def LoadError.code : LoadError → String
  | .file .. => "LoadIo"
  | .document cause => cause.cause.code
  | .schemaNotFound .. => "SchemaNotFound"

/-- The text of the error. -/
def LoadError.message : LoadError → String
  | .file path cause => s!"IO error for '{path}': {cause.message}"
  | .document cause => cause.message
  | .schemaNotFound path name => s!"schema '{name}' not found in '{path}'"

/-- A model that was read from a file. -/
structure LoadedModel where
  /-- The number of the load. -/
  number : Nat
  /-- The model. -/
  model : Model

/-- A loader. -/
structure Loader where
  /-- What documents are read and written with. -/
  context : Context := {}
  /-- Whether documents are written in the pretty form. -/
  pretty : Bool := true
  /-- The path of the top directory. -/
  top : String
  /-- The models that are kept, by file and policy. -/
  cache : List ((List String × String) × LoadedModel) := []
  /-- How many loads there were. -/
  loads : Nat := 0

namespace Loader

/-- The key of the tagged value with the file that a schema was loaded from. -/
def filenameKey : String := "ironmodel.filename"

/-- The absolute path of a file. -/
def absolutePath (l : Loader) (names : List String) : String := "/".intercalate (l.top :: names)

/-- The model that is kept for a file and a policy. -/
def cached? (l : Loader) (names : List String) (policy : String) : Option LoadedModel :=
  (l.cache.find? (·.1 == (names, policy))).map (·.2)

/-- Keeps a model for a file and a policy. -/
def keep (l : Loader) (names : List String) (policy : String) (m : LoadedModel) : Loader :=
  { l with
    cache := ((names, policy), m) :: l.cache.filter (·.1 != (names, policy))
    loads := l.loads + 1 }

/-- Keeps no model any more. -/
def clear (l : Loader) : Loader := { l with cache := [] }

/-- The model with the file noted on all of its schemas. -/
def noteFile (path : String) (m : Model) : Model :=
  m.map fun _ s => s.setTag filenameKey (.text path)

/-- Reads a model from the file at some directory names and keeps it. -/
def readFile (l : Loader) (files : FileSystem) (path : String) (names : List String)
    (policy : String) (first : Nat) : Except LoadError LoadedModel × Loader × Nat :=
  match files.textAt (some names) with
  | .error e => (.error (.file path e), l, first)
  | .ok document =>
    let file := l.absolutePath names
    match l.context.parse (some file) policy document first with
    | (.error d, next) => (.error (.document d), l, next)
    | (.ok model, next) =>
      let loaded : LoadedModel := ⟨l.loads, noteFile file model⟩
      (.ok loaded, l.keep names policy loaded, next)

/-- The model of the file at a path under a policy, the one that is kept if there is one and no
reloading is asked for. Fields are numbered from `first`. -/
def load (l : Loader) (files : FileSystem) (path policy : String) (reload : Bool) (first : Nat) :
    Except LoadError LoadedModel × Loader × Nat :=
  match files.locate path with
  | .error e => (.error (.file path e), l, first)
  | .ok none => (.error (.file path .isDirectory), l, first)
  | .ok (some names) =>
    match if reload then none else l.cached? names policy with
    | some loaded => (.ok loaded, l, first)
    | none => l.readFile files path names policy first

/-- The document of a model. -/
def write (l : Loader) (m : Model) : Except Fault String := l.context.write l.pretty m

/-- The document of one schema under a name. -/
def writeSchema (l : Loader) (name : String) (s : Schema) : Except Fault String :=
  l.context.writeSchema l.pretty name s

/-- One schema of the file at a path. -/
def loadSchema (l : Loader) (files : FileSystem) (path name policy : String) (first : Nat) :
    Except LoadError Schema × Loader × Nat :=
  match l.load files path policy false first with
  | (.error e, rest) => (.error e, rest)
  | (.ok loaded, rest) =>
    match loaded.model.get? name with
    | some s => (.ok s, rest)
    | none => (.error (.schemaNotFound path name), rest)

end Loader
end ContentSchema
