import Thumb.Text.Quoted
import Thumb.Word

namespace Thumb

/-- One position of a pattern. -/
inductive Cell
  | zero
  | one
  | free
deriving DecidableEq, Repr

namespace Cell

def ofChar? : Char → Option Cell
  | '0' => some .zero
  | '1' => some .one
  | 'X' => some .free
  | _ => none

def toChar : Cell → Char
  | .zero => '0'
  | .one => '1'
  | .free => 'X'

end Cell

/-- The fixed bits, and the values that they have. -/
structure Pattern where
  fixed : Halfword
  ones : Halfword
deriving DecidableEq, Repr

inductive PatternError
  | length (found : Nat)
  | character (position : Nat) (found : Char)
deriving DecidableEq, Repr

def PatternError.message : PatternError → String
  | .length found => s!"opcode pattern must be 16 characters, got {found}"
  | .character position found =>
    s!"invalid character {Text.quotedChar found} at position {position} of opcode pattern"

namespace Pattern

/-- The halfword with these bits, the most significant one first. -/
def bitsOf (bits : List Bool) : Halfword :=
  (BitVec.ofBoolListBE bits).setWidth 16

def ofCells (cells : List Cell) : Pattern where
  fixed := bitsOf (cells.map (· != .free))
  ones := bitsOf (cells.map (· == .one))

/-- The pattern whose leading bits are fixed and whose other bits are free. -/
def leading {width : Nat} (bits : BitVec width) : Pattern where
  fixed := (BitVec.allOnes width).setWidth 16 <<< (16 - width)
  ones := bits.setWidth 16 <<< (16 - width)

/-- The cell of the bit with the given weight. -/
def cell (p : Pattern) (i : Nat) : Cell :=
  if !p.fixed.getLsbD i then .free else if p.ones.getLsbD i then .one else .zero

/-- The sixteen cells, the most significant one first. -/
def cells (p : Pattern) : List Cell :=
  (List.range 16).reverse.map p.cell

def text (p : Pattern) : String :=
  String.ofList (p.cells.map Cell.toChar)

/-- The UTF-8 bytes of a text, each as the character with that number. -/
def byteChars (text : String) : List Char :=
  text.toList.flatMap fun c => (String.utf8EncodeChar c).map fun b => Char.ofNat b.toNat

def cellAt (c : Char) (position : Nat) : Except PatternError Cell :=
  match Cell.ofChar? c with
  | some cell => .ok cell
  | none => .error (.character position c)

/-- Reads sixteen characters `0`, `1` and `X`; length and positions count bytes. -/
def parse (text : String) : Except PatternError Pattern := do
  let chars := byteChars text
  if chars.length ≠ 16 then
    throw (.length chars.length)
  return ofCells (← chars.zipIdx.mapM fun (c, position) => cellAt c position)

def accepts (p : Pattern) (v : Halfword) : Bool :=
  v &&& p.fixed == p.ones

/-- The halfword that has zeros in the free positions. -/
def base (p : Pattern) : Halfword :=
  p.ones

/-- The free positions, by ascending weight. -/
def free (p : Pattern) : List Nat :=
  (List.range 16).filter fun i => !p.fixed.getLsbD i

/-- The number whose bits stand at the given positions of a halfword. -/
def gather (v : Halfword) : List Nat → Nat
  | [] => 0
  | i :: is => (v.getLsbD i).toNat + 2 * gather v is

def withBit (v : Halfword) (i : Nat) (b : Bool) : Halfword :=
  if b then v ||| BitVec.twoPow 16 i else v &&& ~~~(BitVec.twoPow 16 i)

/-- Puts the low bits of a number at the given positions of a halfword. -/
def scatter (v : Halfword) : List Nat → Nat → Halfword
  | [], _ => v
  | i :: is, n => withBit (scatter v is (n / 2)) i (n % 2 == 1)

/-- The free bits of a halfword, as one number. -/
def extract (p : Pattern) (v : Halfword) : Nat :=
  gather v p.free

/-- Replaces the free bits of a halfword by the low bits of a number. -/
def deposit (p : Pattern) (v : Halfword) (n : Nat) : Halfword :=
  scatter v p.free n

end Pattern

/-- Joins values, each with its width in bits, the most significant one first. -/
def pack (fields : List (Nat × Nat)) : Nat :=
  fields.foldl (fun n (value, width) => n * Nat.pow 2 width + value % Nat.pow 2 width) 0

/-- Cuts a number into fields of the given widths, the most significant one first. -/
def split : List Nat → Nat → List Nat
  | [], _ => []
  | width :: widths, n => n / Nat.pow 2 widths.sum % Nat.pow 2 width :: split widths n

/-- The halfword of a pattern with the given fields in its free positions. -/
def Pattern.encode (p : Pattern) (fields : List (Nat × Nat)) : Halfword :=
  p.deposit p.base (pack fields)

end Thumb
