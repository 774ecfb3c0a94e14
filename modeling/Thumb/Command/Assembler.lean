import Thumb.Command.Image
import Thumb.Instr.Assembly
import Thumb.Json.Printer

namespace Thumb.Assembler

inductive Request
  | assemble (input : String) (output : Option String)
  | sections (input : String)
  | map (input : String) (source : Option String)
  | symbols (input : String)
deriving DecidableEq, Repr

open Arguments (Spec Given Refusal)

def outputSetting : Arguments.Setting :=
  { name := "output", letter := some 'o', accepts := Arguments.isFileName }

def sourceSetting : Arguments.Setting :=
  { name := "source", accepts := Arguments.isFileName }

/-- The commands, each with what it can be told and the request that this makes. -/
def commands : List (String × Spec × (String → Given → Request)) :=
  [("assemble", { settings := [outputSetting] },
      fun input g => .assemble input (g.values.lookup "output")),
    ("sections", {}, fun input _ => .sections input),
    ("map", { settings := [sourceSetting] }, fun input g => .map input (g.values.lookup "source")),
    ("symbols", {}, fun input _ => .symbols input)]

/-- Whether help is asked for on something that there is. -/
def isHelpTopic : List String → Bool
  | [] | ["help"] => true
  | [name] => (commands.lookup name).isSome
  | _ => false

def parseRequest : List String → Except Refusal Request
  | [] => .error .misused
  | name :: args =>
    match Spec.classify { version := true } name with
    | .refused why => .error why
    | .operand =>
      if name = "help" then .error (if isHelpTopic args then .informed else .misused)
      else
        match commands.lookup name with
        | none => .error .misused
        | some (spec, request) => (Arguments.parse spec args).map fun (input, g) => request input g
    | _ => .error .misused

def lines (ls : List String) : String :=
  String.join (ls.map (· ++ "\n"))

def sectionsHeader : String :=
  " ".intercalate [Text.column 6 "kind", Text.column 10 "start", Text.column 10 "end",
    Text.column 8 "offset", Text.column 8 "size"]

def sectionLine (s : Segment) : String :=
  let stop := s.address + BitVec.ofNat 32 s.size
  " ".intercalate [Text.column 6 Segment.kindName, s.address.address, stop.address,
    Text.column 8 s.offset.repr, Text.column 8 s.size.repr]

/-- A record's address, opcode, mnemonic, and source line with its number. -/
def mapLine (source : List String) (addr : Word) (line : Nat) (opcode : Option Halfword) :
    String :=
  let digits := opcode.elim "----" fun v => Text.hex 4 v.toNat
  let name := (opcode.bind fun v => Form.lookup? [v]).elim "" Form.name
  let text := Text.trimmed (source.getD line "")
  let number := Text.columnRight 5 (line + 1).repr
  s!"{addr.address}  {digits}  {Text.column 6 name} {number}: {text}"

/-- The lines of the map after those written so far, or only those before a record outside the
content. -/
def mapLines (e : Executable) (source : List String) (done : List String) :
    List (Word × Nat) → Except Failure (List String)
  | [] => .ok done
  | (addr, line) :: rest =>
    match e.bytesAt addr 2 with
    | .error _ => .error (.aborted (lines done))
    | .ok bytes =>
      let opcode := bytes.map Width.halfword.ofBytes
      mapLines e source (done ++ [mapLine source addr line opcode]) rest

/-- A symbol's value, as a number of 64 bits, and its name. -/
def symbolLine (name : String) (value : Int) : String :=
  Text.hexMarked 8 (BitVec.ofInt 64 value).toNat ++ "  " ++ name

variable {m : Type → Type} [Monad m] [FileSystem m]

def readInput (input : String) : Work m Executable :=
  Work.readExecutable input ("image " ++ input)

/-- The source text that a map quotes: the given one, or the input itself. -/
def readSource (input : String) (source : Option String) : Work m (List String) := do
  match source.or (if Path.isImage input then none else some input) with
  | none => return []
  | some path => return (Text.lines (← Work.readFile path).toList).map String.ofList

def perform : Request → Work m Outcome
  | .assemble input output => do
    let e ← readInput input
    let output := output.getD (Path.withExtension input "json")
    Work.writeFile output (e.toJson.pretty 0)
    return { output := s!"{e.content.length} bytes -> {output}\n" }
  | .sections input => do
    let e ← readInput input
    return { output := lines (sectionsHeader :: e.segments.map sectionLine) }
  | .map input source => do
    let e ← readInput input
    let source ← readSource input source
    return { output := lines (← liftExcept (mapLines e source [] e.lines.entries)) }
  | .symbols input => do
    let e ← readInput input
    return { output := lines (e.symbols.entries.map fun (name, value) => symbolLine name value) }

def run (args : List String) : m Outcome :=
  match parseRequest args with
  | .error why => pure why.outcome
  | .ok request => (perform request).outcome

end Thumb.Assembler
