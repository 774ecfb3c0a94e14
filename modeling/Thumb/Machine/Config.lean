import Thumb.AddressMap
import Thumb.Json.Reader
import Thumb.Memory.Map

namespace Thumb

/-- Where memory lies, how the processor starts, and how many cycles a run may take. -/
structure Config where
  flashOrigin : Word := AddressMap.flashOrigin
  flashSize : Nat := 0x10000
  ramOrigin : Word := AddressMap.ramOrigin
  ramSize : Nat := 0x8000
  entry : Word := AddressMap.codeEntry
  initialSp : Word := AddressMap.initialSp
  stepLimit : Nat := 10000000
deriving DecidableEq, Repr

namespace Config

def fieldNames : List String :=
  ["flash_origin", "flash_size", "ram_origin", "ram_size", "entry", "initial_sp", "step_limit"]

def toJson (c : Config) : Json :=
  .ofMembers (fieldNames.zip
    [.ofNat c.flashOrigin.toNat, .ofNat c.flashSize, .ofNat c.ramOrigin.toNat, .ofNat c.ramSize,
      .ofNat c.entry.toNat, .ofNat c.initialSp.toNat, .ofNat c.stepLimit])

/-- A field's value, or its default if it is missing. -/
def fieldOr {α : Type} (read : Json → Option α) (default : α) : Option Json → Option α
  | none => some default
  | some j => read j

/-- Reads what `toJson` writes; every field may be missing. -/
def ofJson? (j : Json) : Option Config := do
  let d : Config := {}
  match ← j.fields? fieldNames with
  | [flashOrigin, flashSize, ramOrigin, ramSize, entry, initialSp, stepLimit] =>
    some {
      flashOrigin := ← fieldOr Json.word? d.flashOrigin flashOrigin
      flashSize := ← fieldOr (Json.unsigned? 64) d.flashSize flashSize
      ramOrigin := ← fieldOr Json.word? d.ramOrigin ramOrigin
      ramSize := ← fieldOr (Json.unsigned? 64) d.ramSize ramSize
      entry := ← fieldOr Json.word? d.entry entry
      initialSp := ← fieldOr Json.word? d.initialSp initialSp
      stepLimit := ← fieldOr (Json.unsigned? 64) d.stepLimit stepLimit }
  | _ => none

/-- Whether there can be regions of the sizes. -/
def isPossible (c : Config) : Bool :=
  c.flashSize ≤ Region.maxSize && c.ramSize ≤ Region.maxSize

end Config

def Memory.ofConfig (c : Config) : Memory :=
  ⟨[.zeros c.flashOrigin c.flashSize true, .zeros c.ramOrigin c.ramSize false]⟩

end Thumb
