import Thumb.Text.Blank
import Thumb.Text.Numeral
import Thumb.Word

namespace Thumb

/-- The status word: negative, zero, carry, overflow, and the bits below them. -/
structure Flags where
  n : Bool := false
  z : Bool := false
  c : Bool := false
  v : Bool := false
  reserved : BitVec 28 := 0
deriving DecidableEq, Repr

namespace Flags

def none : Flags := {}

def bits (f : Flags) : Word :=
  BitVec.ofBool f.n ++ BitVec.ofBool f.z ++ BitVec.ofBool f.c ++ BitVec.ofBool f.v ++ f.reserved

def ofBits (w : Word) : Flags where
  n := w.getLsbD 31
  z := w.getLsbD 30
  c := w.getLsbD 29
  v := w.getLsbD 28
  reserved := w.setWidth 28

def union (f g : Flags) : Flags where
  n := f.n || g.n
  z := f.z || g.z
  c := f.c || g.c
  v := f.v || g.v
  reserved := f.reserved ||| g.reserved

def diff (f g : Flags) : Flags where
  n := f.n && !g.n
  z := f.z && !g.z
  c := f.c && !g.c
  v := f.v && !g.v
  reserved := f.reserved &&& ~~~g.reserved

/-- Sets the flags of `g` to one value and keeps the others. -/
def set (f g : Flags) (value : Bool) : Flags :=
  if value then f.union g else f.diff g

def contains (f g : Flags) : Bool :=
  f.union g = f

/-- The flag that a letter names. -/
def ofName? : List Char → Option Flags
  | ['N'] => some { n := true }
  | ['Z'] => some { z := true }
  | ['C'] => some { c := true }
  | ['V'] => some { v := true }
  | _ => Option.none

/-- The names of the flags that are set, then the other bits as a number if there are any. -/
def text (f : Flags) : String :=
  let names := [(f.n, "N"), (f.z, "Z"), (f.c, "C"), (f.v, "V")].filterMap fun (set, name) =>
    if set then some name else Option.none
  let rest := if f.reserved = 0 then [] else [Text.hexMarked 1 f.reserved.toNat]
  " | ".intercalate (names ++ rest)

/-- A flag by its name, or bits by their number after `0x`. -/
def item? (cs : List Char) : Option Flags :=
  match Text.trim cs with
  | '0' :: 'x' :: digits =>
    ((Text.unsigned? 16 digits).filter (· < 0x100000000)).map fun n => ofBits (BitVec.ofNat 32 n)
  | name => ofName? name

/-- Items with bars between them; a blank text has no item. -/
def parse? (text : String) : Option Flags :=
  if (Text.trim text.toList).isEmpty then some none
  else (text.toList.splitOn '|').foldlM (fun f item => (item? item).map f.union) none

end Flags

end Thumb
