import Thumb.Text.Numeral

namespace Thumb

/-- A document as it is written: numbers and texts keep their written form, and members their
order. -/
inductive Json
  | null
  | bool (value : Bool)
  | number (written : String)
  | text (written : String)
  | array (items : List Json)
  | object (members : List (String × Json))
deriving Repr

namespace Json

/-- A character as it is written in a text. -/
def escape (c : Char) : List Char :=
  match c with
  | '"' => ['\\', '"']
  | '\\' => ['\\', '\\']
  | '\x08' => ['\\', 'b']
  | '\x0c' => ['\\', 'f']
  | '\n' => ['\\', 'n']
  | '\r' => ['\\', 'r']
  | '\t' => ['\\', 't']
  | c => if c < ' ' then '\\' :: 'u' :: (Text.hex 4 c.toNat).toList else [c]

def written (s : String) : String :=
  String.ofList (s.toList.flatMap escape)

/-- The character that a letter stands for after a backslash. -/
def shortEscape? : Char → Option Char
  | '"' => some '"'
  | '\\' => some '\\'
  | '/' => some '/'
  | 'b' => some '\x08'
  | 'f' => some '\x0c'
  | 'n' => some '\n'
  | 'r' => some '\r'
  | 't' => some '\t'
  | _ => none

/-- The number of four hexadecimal digits. -/
def unit? (a b c d : Char) : Option Nat :=
  Text.natural? 16 [a, b, c, d]

def isHighSurrogate (n : Nat) : Bool :=
  0xD800 ≤ n && n < 0xDC00

def isLowSurrogate (n : Nat) : Bool :=
  0xDC00 ≤ n && n < 0xE000

/-- Reads a written text, after the characters read so far in reverse. A surrogate that stands alone
is no character. -/
def unescape (done : List Char) : List Char → Option (List Char)
  | [] => some done.reverse
  | '\\' :: 'u' :: a :: b :: c :: d :: rest =>
    match unit? a b c d with
    | none => none
    | some n =>
      if isLowSurrogate n then none
      else if isHighSurrogate n then
        match rest with
        | '\\' :: 'u' :: a :: b :: c :: d :: rest =>
          match unit? a b c d with
          | none => none
          | some m =>
            if isLowSurrogate m then
              unescape (Char.ofNat (0x10000 + (n - 0xD800) * 0x400 + (m - 0xDC00)) :: done) rest
            else none
        | _ => none
      else unescape (Char.ofNat n :: done) rest
  | '\\' :: e :: rest =>
    match shortEscape? e with
    | none => none
    | some c => unescape (c :: done) rest
  | ['\\'] => none
  | c :: rest => unescape (c :: done) rest

/-- The text that a written text stands for. -/
def meaning? (written : String) : Option String :=
  (unescape [] written.toList).map String.ofList

def ofString (s : String) : Json :=
  .text (written s)

def ofInt (i : Int) : Json :=
  .number i.repr

def ofNat (n : Nat) : Json :=
  .number n.repr

/-- An object, its names given as the texts that they stand for. -/
def ofMembers (members : List (String × Json)) : Json :=
  .object (members.map fun (name, value) => (written name, value))

end Json

end Thumb
