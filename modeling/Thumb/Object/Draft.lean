import Thumb.AddressMap
import Thumb.Object.Basic
import Thumb.Object.Value

namespace Thumb

inductive RecordKind
  | data (width : Width)
  /-- A run of one byte, which `filled` runs may choose. -/
  | space (filled : Bool)
  | align
  | instruction
deriving DecidableEq, Repr

def Record.kind (r : Record) : RecordKind :=
  match r.mnemonic with
  | "DCB" => .data .byte
  | "DCW" => .data .halfword
  | "DCD" => .data .word
  | "SPACE" | "%" => .space false
  | "FILL" => .space true
  | "ALIGN" => .align
  | _ => .instruction

/-- What the offset of a record is a multiple of. -/
def RecordKind.alignment : RecordKind → Nat
  | .data width => width.bytes
  | .instruction => 2
  | _ => 1

/-- How many bytes are missing up to a multiple of the alignment. -/
def padding (alignment size : Nat) : Nat :=
  (alignment - size % alignment) % alignment

/-- A value that instructions load from the end of their section. -/
structure Literal where
  label : String
  value : String
  line : Nat
deriving DecidableEq, Repr

namespace Object

/-- An object of finished sections, with the bytes and the literals of the next section, and the
number of literals in all sections so far. -/
structure Draft where
  constants : Constants := .empty
  object : Object := {}
  bytes : List Byte := []
  pool : List Literal := []
  literals : Nat := 0
deriving DecidableEq, Repr

namespace Draft

def index (d : Draft) : Nat :=
  d.object.sections.length

def emit (d : Draft) (bytes : List Byte) : Draft :=
  { d with bytes := d.bytes ++ bytes }

/-- Adds zeros up to a multiple of the alignment. -/
def align (d : Draft) (alignment : Nat) : Draft :=
  d.emit (List.replicate (padding alignment d.bytes.length) 0)

/-- Defines a symbol as the place that was reached. -/
def label (d : Draft) (name : String) (line : Nat) : Except AssemblyError Draft := do
  let object ← d.object.define name (.address (some d.index) d.bytes.length) line
  return { d with object }

/-- Notes that the record of a line begins here. -/
def mark (d : Draft) (line : Nat) : Draft :=
  let marks := d.object.marks ++ [{ index := d.index, offset := d.bytes.length, line }]
  { d with object := { d.object with marks } }

/-- Notes that the next bytes depend on addresses. -/
def relocate (d : Draft) (kind : SectionKind) (length : Nat) (target : Target) (line : Nat) :
    Draft :=
  let relocation := { kind, index := d.index, offset := d.bytes.length, length, target, line }
  { d with object := { d.object with relocations := d.object.relocations ++ [relocation] } }

/-- The bytes of a number in an operand of a data directive. -/
def number (width : Width) (value : Int) (mnemonic operand : String) (line : Nat) :
    Except AssemblyError (List Byte) :=
  match width.dataBytes value with
  | .ok bytes => .ok bytes
  | .error e => .error (.value line mnemonic operand e)

/-- Adds a value: a number now, or a symbol's value later. -/
def datum (d : Draft) (width : Width) (mnemonic operand : String) (line : Nat) :
    Except AssemblyError Draft := do
  match d.constants.value? operand with
  | some value => return d.emit (← number width value mnemonic operand line)
  | none =>
    if Operand.isLabel operand then
      let d := d.relocate .data width.bytes (.symbol (Text.trimmed operand)) line
      return d.emit (List.replicate width.bytes 0)
    else
      throw (.statement line (.notDatum operand))

/-- Adds an operand of a data directive, which for bytes may be a quoted text. -/
def dataOperand (width : Width) (r : Record) (d : Draft) (operand : String) :
    Except AssemblyError Draft :=
  match width, unquote? operand.toList with
  | .byte, some text => .ok (d.emit (utf8 (unescape text)))
  | _, _ => d.datum width r.mnemonic operand r.line

def data (d : Draft) (width : Width) (r : Record) : Except AssemblyError Draft :=
  if r.operands.isEmpty then .error (.statement r.line (.noValues r.mnemonic))
  else r.operands.foldlM (dataOperand width r) d

/-- The value of an operand that counts something. -/
def count? (d : Draft) (operand : String) : Option Nat :=
  (d.constants.value? operand).bind Int.toNat?

def fillByte (d : Draft) (r : Record) (fill : Option String) : Except AssemblyError (List Byte) :=
  match fill with
  | none => .ok [0]
  | some operand =>
    match d.constants.value? operand with
    | some value => number .byte value r.mnemonic operand r.line
    | none => .error (.statement r.line (.notNumber operand))

def space (d : Draft) (filled : Bool) (r : Record) : Except AssemblyError Draft := do
  let (operand, fill) ← match r.operands, filled with
    | [operand], _ => pure (operand, none)
    | [operand, fill], true => pure (operand, some fill)
    | _, _ => throw (.statement r.line (.malformedSpace r.mnemonic))
  match d.count? operand with
  | none => throw (.statement r.line (.notByteCount operand))
  | some count =>
    if AddressMap.maxSectionSize < d.bytes.length + count then
      throw (.statement r.line (.sectionTooLarge r.mnemonic operand AddressMap.maxSectionSize))
    return d.emit (List.replicate count (← d.fillByte r fill)).flatten

def isPowerOfTwo (n : Nat) : Bool :=
  Nat.pow 2 n.log2 == n

def alignTo (d : Draft) (r : Record) : Except AssemblyError Draft :=
  match r.operands with
  | [] => .ok (d.align 4)
  | [operand] =>
    match (d.count? operand).filter isPowerOfTwo with
    | some alignment => .ok (d.align alignment)
    | none => .error (.statement r.line (.notPowerOfTwo operand))
  | _ => .error (.statement r.line .alignOperands)

/-- The label of a literal. Equal texts in one section share a literal. -/
def literal (d : Draft) (value : String) (line : Nat) : String × Draft :=
  match d.pool.find? (·.value = value) with
  | some l => (l.label, d)
  | none =>
    let label := s!"$lit{d.literals}"
    (label, { d with pool := d.pool ++ [{ label, value, line }], literals := d.literals + 1 })

/-- An operand with its literal's label or with the values of its constants. -/
def operand (d : Draft) (line : Nat) (operand : String) : String × Draft :=
  match Text.trim operand.toList with
  | '=' :: value => d.literal (String.ofList (Text.trim value)) line
  | _ => (d.constants.substitute operand, d)

def operands (d : Draft) (line : Nat) : List String → List String × Draft
  | [] => ([], d)
  | op :: ops =>
    let (op, d) := d.operand line op
    let (ops, d) := d.operands line ops
    (op :: ops, d)

def halfwordBytes (halfwords : List Halfword) : List Byte :=
  halfwords.flatMap Width.halfword.toBytes

/-- Adds an opcode, which stands for itself or waits for the addresses of labels. -/
def instruction (d : Draft) (r : Record) : Except AssemblyError Draft := do
  let (operands, d) := d.operands r.line r.operands
  let refuse (e : OperandError) := AssemblyError.instruction r.line r.mnemonic r.operands e
  let form ← (Form.select r.mnemonic operands).mapError refuse
  let opcode ← (form.encode operands none).mapError refuse
  let bytes := halfwordBytes opcode
  let d :=
    if form.needsLabels then d.relocate .code bytes.length (.record { r with operands }) r.line
    else d
  return d.emit bytes

def body (d : Draft) (r : Record) : Except AssemblyError Draft :=
  match r.kind with
  | .data width => d.data width r
  | .space filled => d.space filled r
  | .align => d.alignTo r
  | .instruction => d.instruction r

def record (d : Draft) (r : Record) : Except AssemblyError Draft := do
  let d := d.align r.kind.alignment
  let d ← match r.label with
    | some name => d.label name r.line
    | none => pure d
  (d.mark r.line).body r

def poolLiteral (d : Draft) (l : Literal) : Except AssemblyError Draft := do
  (← d.label l.label l.line).datum .word "DCD" l.value l.line

/-- Adds the literals. In code, the end marker keeps execution out of them. -/
def flushPool (d : Draft) (kind : SectionKind) : Except AssemblyError Draft :=
  if d.pool.isEmpty then .ok d
  else
    let d := if kind = .code then d.emit (halfwordBytes [AddressMap.endOfCode]) else d
    d.pool.foldlM poolLiteral (d.align 4)

/-- Turns the bytes so far into a section. -/
def finish (d : Draft) (a : Area) : Draft :=
  let next : Section :=
    { kind := a.kind, name := a.name, offset := d.object.content.length, size := d.bytes.length }
  let content := d.object.content ++ d.bytes
  { d with
    object := { d.object with content, sections := d.object.sections ++ [next] }
    bytes := []
    pool := [] }

def area (d : Draft) (a : Area) : Except AssemblyError Draft := do
  let d ← a.records.foldlM record d
  return (← d.flushPool a.kind).finish a

def constant (d : Draft) (c : Constant) : Except AssemblyError Draft := do
  let object ← d.object.define c.name (.constant c.value) c.line
  return { d with object, constants := d.constants.insert c.name c.value }

end Draft

/-- The object of a program. Instructions with labels and data with symbols become relocations. -/
def ofProgram (p : Program) : Except AssemblyError Object := do
  let d ← p.constants.foldlM Draft.constant {}
  return (← p.areas.foldlM Draft.area d).object

end Object

end Thumb
