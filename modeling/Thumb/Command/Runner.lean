import Thumb.Command.Image
import Thumb.Machine.Board

namespace Thumb.Runner

structure Request where
  config : Option String
  steps : Option Nat
  input : String
deriving DecidableEq, Repr

def spec : Arguments.Spec where
  settings :=
    [{ name := "config", letter := some 'c', accepts := Arguments.isFileName },
      { name := "steps", accepts := fun text => (Arguments.count? text).isSome }]
  version := true

def parseRequest (args : List String) : Except Arguments.Refusal Request :=
  (Arguments.parse spec args).map fun (input, g) =>
    { config := g.values.lookup "config"
      steps := (g.values.lookup "steps").bind Arguments.count?
      input }

def stopText : Stop → String
  | .endOfCode pc => s!"EndOfCode \x7b pc: {pc.toNat} \x7d"
  | .stepLimit => "StepLimit"

def stopNote : Stop → String
  | .endOfCode _ => ""
  | .stepLimit => "step limit reached; use --steps to raise it\n"

def registerLine (name : String) (value : Word) : String :=
  Text.column 4 name ++ " " ++ value.address ++ "\n"

/-- Why and when the board stopped, and its registers. -/
def report (stop : Stop) (b : Board) : String :=
  let registers := b.cpu.regs.snapshot.map fun (r, value) => registerLine r.name value
  s!"stopped: {stopText stop} after {b.cpu.cycles} cycles\n" ++ String.join registers ++
    registerLine "APSR" b.cpu.regs.flags.bits

def execute (config : Config) (steps : Option Nat) (e : Executable) : Except Failure Outcome :=
  match Board.load e (.ofConfig config) with
  | .error (.trap t) _ => .error (.ofChain t.chain)
  | .error .outsideContent _ => .error (.aborted "")
  | .ok () b =>
    match Board.run (steps.getD config.stepLimit) b with
    | .error t _ => .error (.ofChain t.chain)
    | .ok stop b => .ok { output := report stop b, errors := stopNote stop }

variable {m : Type → Type} [Monad m] [FileSystem m]

def readConfig : Option String → Work m Config
  | none => pure {}
  | some path => do Work.parseJson "config" Config.ofJson? (← Work.readFile path)

/-- Runs the program of a request; without memory for the board, its file is not even read. -/
def perform (r : Request) : Work m Outcome := do
  let config ← readConfig r.config
  unless config.isPossible do
    throw (.aborted "")
  let e ← Work.readExecutable r.input "image"
  liftExcept (execute config r.steps e)

def run (args : List String) : m Outcome :=
  match parseRequest args with
  | .error why => pure why.outcome
  | .ok request => (perform request).outcome

end Thumb.Runner
