import Thumb.Command.Path
import Thumb.Table

namespace Thumb

inductive FileError
  | notFound
  | notDirectory
  | isDirectory
  | nameTooLong
  | other (text : String)
deriving DecidableEq, Repr

def FileError.message : FileError → String
  | .notFound => "No such file or directory (os error 2)"
  | .notDirectory => "Not a directory (os error 20)"
  | .isDirectory => "Is a directory (os error 21)"
  | .nameTooLong => "File name too long (os error 36)"
  | .other text => text

/-- Reading and writing whole files by their paths. -/
class FileSystem (m : Type → Type) where
  read (path : String) : m (Except FileError String)
  write (path text : String) : m (Except FileError Unit)

/-- What a place is counted from: the root of all directories, or the directory so many levels above
the working directory. -/
inductive Base
  | root
  | above (levels : Nat)
deriving DecidableEq, Repr

def Base.text : Base → List Char
  | .root => ['/']
  | .above levels => (List.replicate levels ['.', '.', '/']).flatten

/-- A place in the tree of directories, as the names that lead to it. -/
structure Place where
  base : Base
  names : List (List Char)
deriving DecidableEq, Repr

namespace Place

/-- Where the first step of a path is taken. -/
def start (path : String) : Place :=
  ⟨if path.toList.head? = some '/' then .root else .above 0, []⟩

def child (p : Place) (name : List Char) : Place :=
  ⟨p.base, p.names ++ [name]⟩

def parent : Place → Place
  | ⟨.root, []⟩ => ⟨.root, []⟩
  | ⟨.above levels, []⟩ => ⟨.above (levels + 1), []⟩
  | ⟨base, names⟩ => ⟨base, names.dropLast⟩

/-- The one path of a place that has no needless step. -/
def path (p : Place) : String :=
  String.ofList (p.base.text ++ ['/'].intercalate p.names)

end Place

/-- Files by the paths of their places. The directories are those on the way to a file, the working
directory, those above it and the root. -/
abbrev Files := Table String String

namespace Files

inductive Entry
  | directory
  | file (text : String)
deriving DecidableEq, Repr

def entry? (files : Files) (p : Place) : Option Entry :=
  if p.names.isEmpty then some .directory
  else
    match files.get? p.path with
    | some text => some (.file text)
    | none =>
      let start := p.path.toList ++ ['/']
      if files.keys.any fun path => start.isPrefixOf path.toList then some .directory else none

/-- The bytes that a name may have. -/
def maxName : Nat := 255

/-- The bytes that a path may have. -/
def maxPath : Nat := 4095

/-- The place one step from a directory, and what is there. -/
def look (files : Files) (directory : Place) (step : List Char) :
    Except FileError (Place × Option Entry) :=
  if step = ['.'] then .ok (directory, some .directory)
  else if step = ['.', '.'] then .ok (directory.parent, some .directory)
  else if maxName < (String.ofList step).utf8ByteSize then .error .nameTooLong
  else .ok (directory.child step, files.entry? (directory.child step))

/-- The directory one step from a directory. -/
def enter (files : Files) (directory : Place) (step : List Char) : Except FileError Place := do
  match ← files.look directory step with
  | (place, some .directory) => return place
  | (_, some (.file _)) => throw .notDirectory
  | (_, none) => throw .notFound

/-- The directory in which the last step of a path is taken. -/
def directoryOf (files : Files) (path : String) : Except FileError Place :=
  if path.isEmpty then .error .notFound
  else if maxPath < path.utf8ByteSize then .error .nameTooLong
  else (Path.steps path).dropLast.foldlM files.enter (.start path)

/-- The last step of a path; where there are only slashes, it goes nowhere. -/
def lastStep (path : String) : List Char :=
  (Path.steps path).getLast?.getD ['.']

/-- Whether a path can only name a directory. -/
def endsInSlash (path : String) : Bool :=
  path.toList.getLast? == some '/'

def read (files : Files) (path : String) : Except FileError String := do
  match ← files.look (← files.directoryOf path) (lastStep path) with
  | (_, some (.file text)) => if endsInSlash path then throw .notDirectory else return text
  | (_, some .directory) => throw .isDirectory
  | (_, none) => throw .notFound

def write (files : Files) (path text : String) : Except FileError Files := do
  let directory ← files.directoryOf path
  if endsInSlash path then throw .isDirectory
  match ← files.look directory (lastStep path) with
  | (_, some .directory) => throw .isDirectory
  | (place, _) => return files.insert place.path text

/-- Whether a path without needless steps leads out of the working directory. -/
def isOutside (path : String) : Bool :=
  ['/'].isPrefixOf path.toList || ['.', '.', '/'].isPrefixOf path.toList

/-- The files below the working directory that are new or have changed since. -/
def changes (files before : Files) : List (String × String) :=
  files.entries.filter fun (path, text) => !isOutside path && before.get? path != some text

end Files

instance : FileSystem (StateM Files) where
  read path := return (← get).read path
  write path text := do
    match (← get).write path text with
    | .ok files => set files; return .ok ()
    | .error e => return .error e

end Thumb
