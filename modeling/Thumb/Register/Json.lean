import Thumb.Json.Reader
import Thumb.Register.Bank

namespace Thumb.Bank

/-- The sixteen registers and the names of the flags. -/
def toJson (b : Bank) : Json :=
  .ofMembers [("regs", .array (b.regs.toList.map fun w => .ofNat w.toNat)),
    ("apsr", .ofString b.flags.text)]

/-- Reads what `toJson` writes; the program counter counts as not written. -/
def ofJson? (j : Json) : Option Bank := do
  match ← j.required? ["regs", "apsr"] with
  | [regs, apsr] =>
    let words ← (← regs.items?).mapM Json.word?
    let flags ← Flags.parse? (← apsr.string?)
    if h : words.toArray.size = 16 then some { regs := ⟨words.toArray, h⟩, flags } else none
  | _ => none

end Thumb.Bank
