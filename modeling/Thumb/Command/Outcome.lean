import Thumb.Command.Arguments
import Thumb.Command.Files
import Thumb.Text.Numeral

namespace Thumb

/-- The exit code of a command, and what it prints. -/
structure Outcome where
  exit : Nat := 0
  output : String := ""
  errors : String := ""
deriving DecidableEq, Repr

inductive Failure
  /-- A message and its causes, outermost first. -/
  | reported (message : String) (causes : List String)
  /-- The command breaks off in the middle of its output. -/
  | aborted (output : String)
deriving DecidableEq, Repr

/-- Causes under their heading, numbered if there are several. -/
def causesText : List String → String
  | [] => ""
  | [cause] => "\nCaused by:\n    " ++ cause ++ "\n"
  | causes =>
    "\nCaused by:\n" ++ String.join (causes.zipIdx.map fun (cause, i) =>
      Text.columnRight 5 i.repr ++ ": " ++ cause ++ "\n")

def Failure.outcome : Failure → Outcome
  | .reported message causes =>
    { exit := 1, errors := "Error: " ++ message ++ "\n" ++ causesText causes }
  | .aborted output => { exit := 101, output }

/-- A command that asks for information succeeds, and one that is misused does not. -/
def Arguments.Refusal.outcome : Arguments.Refusal → Outcome
  | .informed => {}
  | .misused => { exit := 2 }

/-- A failure whose causes are given as a chain of messages. -/
def Failure.ofChain : List String → Failure
  | [] => .aborted ""
  | message :: causes => .reported message causes

abbrev Work (m : Type → Type) (α : Type) := ExceptT Failure m α

namespace Work

variable {m : Type → Type} [Monad m]

def outcome (work : Work m Outcome) : m Outcome := do
  match ← work.run with
  | .ok o => return o
  | .error e => return e.outcome

variable [FileSystem m]

def readFile (path : String) : Work m String := do
  match ← (FileSystem.read path : m _) with
  | .ok text => return text
  | .error e => throw (.reported ("reading " ++ path) [e.message])

def writeFile (path text : String) : Work m Unit := do
  match ← (FileSystem.write path text : m _) with
  | .ok () => return ()
  | .error e => throw (.reported ("writing " ++ path) [e.message])

end Work

end Thumb
