namespace Thumb.Text

def digit? (base : Nat) (c : Char) : Option Nat :=
  let value :=
    if '0' ≤ c ∧ c ≤ '9' then some (c.toNat - '0'.toNat)
    else if 'a' ≤ c ∧ c ≤ 'f' then some (c.toNat - 'a'.toNat + 10)
    else if 'A' ≤ c ∧ c ≤ 'F' then some (c.toNat - 'A'.toNat + 10)
    else none
  value.filter (· < base)

/-- One or more digits and nothing else. -/
def natural? (base : Nat) (cs : List Char) : Option Nat :=
  if cs.isEmpty then none
  else cs.foldlM (fun n c => (digit? base c).map (n * base + ·)) 0

/-- A numeral that a plus sign may precede. -/
def unsigned? (base : Nat) : List Char → Option Nat
  | '+' :: cs => natural? base cs
  | cs => natural? base cs

/-- A numeral that one sign may precede. -/
def signed? (base : Nat) : List Char → Option Int
  | '-' :: cs => (natural? base cs).map fun n => -(n : Int)
  | cs => (unsigned? base cs).map fun n => (n : Int)

/-- Lower-case hexadecimal digits, with zeros in front up to the given count. -/
def hex (digits n : Nat) : String :=
  String.ofList ((Nat.toDigits 16 n).leftpad digits '0')

/-- Hexadecimal digits after the mark `0x`. -/
def hexMarked (digits n : Nat) : String :=
  "0x" ++ hex digits n

/-- The text with blanks after it up to the given width. -/
def column (width : Nat) (s : String) : String :=
  String.ofList (s.toList.rightpad width ' ')

/-- The text with blanks before it up to the given width. -/
def columnRight (width : Nat) (s : String) : String :=
  String.ofList (s.toList.leftpad width ' ')

end Thumb.Text
