import Thumb.Operand.Number

namespace Thumb.Operand

def isRegister (op : String) : Bool :=
  (Reg.parse? op).isSome

def isLowRegister (op : String) : Bool :=
  (Reg.parse? op).any Reg.isLow

def sameRegister (a b : String) : Bool :=
  isRegister a && Reg.parse? a == Reg.parse? b

def register (op : String) : Except OperandError Reg :=
  match Reg.parse? op with
  | some r => .ok r
  | none => .error (.notRegister op)

/-- One of `R0` to `R7`, by its number. -/
def lowRegister (op : String) : Except OperandError (Fin 8) := do
  let r ← register op
  if r.isLow then return Reg.lowOfNat r.number else throw (.notLowRegister op)

/-- Requires one particular register. -/
def exactRegister (op : String) (expected : Reg) : Except OperandError Unit := do
  if (← register op) ≠ expected then
    throw (.unexpectedOperand op expected.name)

/-- The text between an opening and a closing character. -/
def between? (first last : Char) : List Char → Option (List Char)
  | [] => none
  | c :: rest => if c = first ∧ rest.getLast? = some last then some rest.dropLast else none

def isEnclosed (first last : Char) (op : String) : Bool :=
  let cs := Text.trim op.toList
  cs.head? == some first && cs.getLast? == some last

/-- Whether an operand stands in square brackets. -/
def isMemory (op : String) : Bool :=
  isEnclosed '[' ']' op

/-- Whether an operand stands in braces. -/
def isRegisterList (op : String) : Bool :=
  isEnclosed '\x7b' '\x7d' op

/-- What is added to the base register. An immediate offset keeps its text. -/
inductive Offset
  | none
  | immediate (text : String)
  | register (r : Reg)
deriving DecidableEq, Repr

def Offset.isRegister : Offset → Bool
  | .register _ => true
  | _ => false

structure Address where
  base : Reg
  offset : Offset
deriving DecidableEq, Repr

/-- The field of an immediate offset; no offset counts as zero. -/
def Address.scaledOffset (a : Address) (bits scale : Nat) : Except OperandError Nat :=
  match a.offset with
  | .none => .ok 0
  | .immediate text => scaledImmediate text bits scale
  | .register r => .error (.unexpectedOperand r.name "an immediate offset")

def offset? (cs : List Char) : Option Offset :=
  let text := String.ofList cs
  if isImmediate text then some (.immediate text) else (Reg.ofChars? cs).map .register

/-- `[Rn]`, `[Rn, #imm]` or `[Rn, Rm]`. -/
def address? (op : String) : Option Address := do
  let inner ← between? '[' ']' (Text.trim op.toList)
  match (inner.splitOn ',').map Text.trim with
  | [base] => return ⟨← Reg.ofChars? base, .none⟩
  | [base, offset] => return ⟨← Reg.ofChars? base, ← offset? offset⟩
  | _ => none

def address (op : String) : Except OperandError Address :=
  match address? op with
  | some a => .ok a
  | none => .error (.malformedMemory op)

/-- The registers from the first to the last one. -/
def registerRange (first last : Reg) : List Reg :=
  Reg.all.filter fun r => first.number ≤ r.number && r.number ≤ last.number

/-- One register, or the ascending range between two. -/
def listItem? (cs : List Char) : Option (List Reg) := do
  let (first, last) := match cs.dropWhile (· != '-') with
    | [] => (cs, cs)
    | _ :: rest => (cs.takeWhile (· != '-'), rest)
  let first ← Reg.ofChars? first
  let last ← Reg.ofChars? last
  if first.number ≤ last.number then return registerRange first last else none

/-- Adds registers to a list in which none may occur twice. -/
def appendNew (op : String) (done : List Reg) : List Reg → Except OperandError (List Reg)
  | [] => .ok done
  | r :: rs =>
    if r ∈ done then .error (.duplicateRegister op r) else appendNew op (done ++ [r]) rs

/-- The registers of the items of a list, after those of the earlier items. -/
def collectItems (op : String) (done : List Reg) :
    List (List Char) → Except OperandError (List Reg)
  | [] => .ok done
  | item :: items =>
    match listItem? (Text.trim item) with
    | none => .error (.malformedRegisterList op)
    | some rs => do collectItems op (← appendNew op done rs) items

/-- Registers and ascending ranges of them between braces, in the order in which they are
written. -/
def registerList (op : String) : Except OperandError (List Reg) :=
  match between? '\x7b' '\x7d' (Text.trim op.toList) with
  | none => .error (.malformedRegisterList op)
  | some inner => collectItems op [] (inner.splitOn ',')

end Thumb.Operand
