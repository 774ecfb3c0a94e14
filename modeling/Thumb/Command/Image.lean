import Thumb.Command.Outcome
import Thumb.Executable.Json
import Thumb.Executable.Link

namespace Thumb.Work

variable {m : Type → Type} [Monad m]

/-- Reads a document of JSON; `what` names it in a refusal. -/
def parseJson {α : Type} (what : String) (read : Json → Option α) (text : String) : Work m α :=
  match (Json.parse? text).bind read with
  | some a => pure a
  | none => throw (.reported ("parsing " ++ what) ["invalid document"])

def assembleText (path text : String) : Work m Executable :=
  match assemble text with
  | .ok e => pure e
  | .error .outsideContent => throw (.aborted "")
  | .error e => throw (.reported ("assembling " ++ path) e.chain)

variable [FileSystem m]

/-- The executable in a file; `what` names the document if it is an image. -/
def readExecutable (path what : String) : Work m Executable := do
  let text ← readFile path
  if Path.isImage path then parseJson what Executable.ofJson? text else assembleText path text

end Thumb.Work
