import Thumb.Source.Statement
import Thumb.Text.Lines

namespace Thumb.Source

/-- The statements of the lines up to the end of the program, with their line numbers. -/
def statements : Nat → List (List Char) → Except AssemblyError (List (Nat × Statement))
  | _, [] => .ok []
  | line, raw :: rest =>
    match parseStatement raw with
    | .error e => .error (.statement line e)
    | .ok (.finish label) => .ok [(line, .finish label)]
    | .ok s => (statements (line + 1) rest).map ((line, s) :: ·)

/-- A program up to some line, and a label that waits for what it marks. -/
structure Draft where
  program : Program := {}
  pending : Option (String × Nat) := none
deriving DecidableEq, Repr

namespace Draft

/-- The area that records go to when none was opened. -/
def defaultArea : Area :=
  { name := ".text", kind := .code, readOnly := true }

/-- Adds a record to the last area. -/
def pushRecord (d : Draft) (r : Record) : Draft :=
  let (earlier, area) := match d.program.areas.getLast? with
    | some area => (d.program.areas.dropLast, area)
    | none => ([], defaultArea)
  let areas := earlier ++ [{ area with records := area.records ++ [r] }]
  { d with program := { d.program with areas } }

/-- Puts a waiting label on a record of its own that takes no space. -/
def flush (d : Draft) : Draft :=
  match d.pending with
  | none => d
  | some (name, line) =>
    pushRecord { d with pending := none }
      { label := some name, mnemonic := "SPACE", operands := ["0"], line }

def await (d : Draft) (name : String) (line : Nat) : Draft :=
  { d.flush with pending := some (name, line) }

/-- Adds a record. A label of its own leaves a waiting one to itself. -/
def addRecord (d : Draft) (label : Option String) (mnemonic : String) (operands : List String)
    (line : Nat) : Draft :=
  match label with
  | some name => d.flush.pushRecord { label := some name, mnemonic, operands, line }
  | none =>
    pushRecord { d with pending := none }
      { label := d.pending.map (·.1), mnemonic, operands, line }

def add (d : Draft) (line : Nat) : Statement → Draft
  | .blank | .finish none => d
  | .label name | .finish (some name) => d.await name line
  | .record label mnemonic operands => d.addRecord label mnemonic operands line
  | .constant name value =>
    let constants := d.program.constants ++ [{ name, value, line }]
    { d with program := { d.program with constants } }
  | .area area =>
    let d := d.flush
    { d with program := { d.program with areas := d.program.areas ++ [area] } }

end Draft

/-- The program that statements make. -/
def build (statements : List (Nat × Statement)) : Program :=
  (statements.foldl (fun d (line, s) => d.add line s) ({} : Draft)).flush.program

def parse (source : String) : Except AssemblyError Program :=
  (statements 0 (Text.lines source.toList)).map build

end Thumb.Source
