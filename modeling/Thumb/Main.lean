import Thumb.Command.Assembler
import Thumb.Command.Runner

namespace Thumb

/-- Whether the system means an error by a code, which it may give with either sign. -/
def meansError (number code : UInt32) : Bool :=
  code == number || code == 0 - number

/-- The reason for which the system refuses a file. -/
def FileError.ofSystem : IO.Error → FileError
  | .noFileOrDirectory .. => .notFound
  | .noSuchThing .. => .notFound
  | .inappropriateType _ code _ => if meansError 20 code then .notDirectory else .isDirectory
  | e@(.invalidArgument _ code _) =>
    if meansError 36 code then .nameTooLong else .other (toString e)
  | e => .other (toString e)

instance : FileSystem IO where
  read path := do
    match ← (IO.FS.readFile path).toBaseIO with
    | .ok text => return .ok text
    | .error e => return .error (.ofSystem e)
  write path text := do
    match ← (IO.FS.writeFile path text).toBaseIO with
    | .ok () => return .ok ()
    | .error e => return .error (.ofSystem e)

def usage : String :=
  "Usage: thumb asm assemble SOURCE [-o FILE]\n" ++
  "       thumb asm sections FILE\n" ++
  "       thumb asm map FILE [--source SOURCE]\n" ++
  "       thumb asm symbols FILE\n" ++
  "       thumb run [-c FILE] [--steps N] FILE\n"

def dispatch : List String → IO Outcome
  | "asm" :: args => Assembler.run args
  | "run" :: args => Runner.run args
  | _ => return Arguments.Refusal.misused.outcome

end Thumb

def main (args : List String) : IO UInt32 := do
  let o ← Thumb.dispatch args
  IO.print o.output
  IO.eprint (if o = Thumb.Arguments.Refusal.misused.outcome then Thumb.usage else o.errors)
  return o.exit.toUInt32
