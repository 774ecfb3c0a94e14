import Thumb.Text.Blank

namespace Thumb.Path

/-- The steps of a path, each between slashes. -/
def steps (path : String) : List (List Char) :=
  (path.toList.splitOn '/').filter (!·.isEmpty)

/-- The names along a path, with the steps that go nowhere left out. -/
def components (path : String) : List (List Char) :=
  (steps path).filter (· != ['.'])

def fileName? (path : String) : Option (List Char) :=
  (components path).getLast?.filter (· != ['.', '.'])

/-- A file name's stem, and its extension after the last point; a point at the start is part of the
stem. -/
def splitExtension (name : List Char) : List Char × Option (List Char) :=
  let extension := (name.reverse.takeWhile (· != '.')).reverse
  let stem := name.take (name.length - extension.length - 1)
  if stem.isEmpty then (name, none) else (stem, some extension)

def extension? (path : String) : Option (List Char) :=
  (fileName? path).bind fun name => (splitExtension name).2

def isImage (path : String) : Bool :=
  (extension? path).any fun extension => Text.upper extension = "JSON".toList

/-- The path of a file with another extension. Where only a point stands before the last point, the
path without its extension names no file, and gets none. -/
def withExtension (path extension : String) : String :=
  match fileName? path with
  | none => path
  | some name =>
    let directory := path.toList.take (path.length - name.length)
    match splitExtension name with
    | (['.'], some _) => String.ofList (directory ++ ['.', '.'])
    | (stem, _) => String.ofList (directory ++ stem ++ '.' :: extension.toList)

end Thumb.Path
