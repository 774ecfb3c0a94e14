import Thumb.Text.Blank
import Thumb.Text.Numeral

namespace Thumb

/-- A core register, by its number. -/
structure Reg where
  number : Fin 16
deriving DecidableEq, Repr

namespace Reg

def sp : Reg := ⟨13⟩

def lr : Reg := ⟨14⟩

def pc : Reg := ⟨15⟩

/-- The registers `R0` to `R7`, which three bits can name. -/
def low (n : Fin 8) : Reg :=
  ⟨n.castLE (by decide)⟩

def isLow (r : Reg) : Bool :=
  r.number.val < 8

/-- The register that the low four bits of a number name. -/
def ofNat (n : Nat) : Reg :=
  ⟨n % 16, Nat.mod_lt n (by decide)⟩

/-- The low register that the low three bits of a number name. -/
def lowOfNat (n : Nat) : Fin 8 :=
  ⟨n % 8, Nat.mod_lt n (by decide)⟩

def all : List Reg :=
  (List.finRange 16).map Reg.mk

def ofNumber? (n : Nat) : Option Reg :=
  if h : n < 16 then some ⟨n, h⟩ else none

def name (r : Reg) : String :=
  if r = sp then "SP" else if r = lr then "LR" else if r = pc then "PC" else s!"R{r.number.val}"

/-- The number after the letter of a register name, which has no leading zero. -/
def ofDigits? (digits : List Char) : Option Reg :=
  if digits.length > 1 ∧ digits.head? = some '0' then none
  else (Text.unsigned? 10 digits).bind ofNumber?

/-- `R0` to `R15`, `SP`, `LR` and `PC`, in either case and between blanks. -/
def ofChars? (cs : List Char) : Option Reg :=
  match Text.upper (Text.trim cs) with
  | ['S', 'P'] => some sp
  | ['L', 'R'] => some lr
  | ['P', 'C'] => some pc
  | 'R' :: digits => ofDigits? digits
  | _ => none

def parse? (text : String) : Option Reg :=
  ofChars? text.toList

end Reg

end Thumb
