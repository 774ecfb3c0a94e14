import Thumb.Executable.Basic
import Thumb.Json.Parser
import Thumb.Json.Reader
import Thumb.Memory.Json

namespace Thumb

namespace Segment

/-- The only kind of segment: one that is loaded. -/
def kindName : String := "Load"

def toJson (s : Segment) : Json :=
  .ofMembers [("kind", .ofString kindName), ("file_offset", .ofNat s.offset),
    ("size", .ofNat s.size), ("physical_address", .ofNat s.address.toNat)]

def ofJson? (j : Json) : Option Segment := do
  match ← j.required? ["kind", "file_offset", "size", "physical_address"] with
  | [kind, offset, size, address] =>
    if (← kind.variant?) = kindName then
      some {
        offset := ← offset.unsigned? 64
        size := ← size.unsigned? 64
        address := ← address.word? }
    else none
  | _ => none

end Segment

namespace Executable

def toJson (e : Executable) : Json :=
  .ofMembers [("segments", .array (e.segments.map Segment.toJson)),
    ("content", bytesJson e.content),
    ("source_map", .ofMembers (e.lines.entries.map fun (addr, line) =>
      (addr.toNat.repr, .ofNat line))),
    ("symbols", .ofMembers (e.symbols.entries.map fun (name, value) => (name, .ofInt value)))]

def byte? (j : Json) : Option Byte :=
  (j.unsigned? 8).map (BitVec.ofNat 8)

/-- The source lines, under addresses in decimal digits as they are written. -/
def linesOfJson? : Json → Option (Table Word Nat)
  | .object members => do
    let entries ← members.mapM fun (name, value) => do
      some (← (← Json.numeral? name).word?, ← value.unsigned? 64)
    some (.ofList entries)
  | _ => none

def symbolsOfJson? (j : Json) : Option (Table String Int) := do
  let entries ← (← j.members?).mapM fun (name, value) => do some (name, ← value.integer64?)
  some (.ofList entries)

/-- Reads what `toJson` writes. Whether the segments lie inside the content is not looked at. -/
def ofJson? (j : Json) : Option Executable := do
  match ← j.required? ["segments", "content", "source_map", "symbols"] with
  | [segments, content, lines, symbols] =>
    some {
      segments := ← (← segments.items?).mapM Segment.ofJson?
      content := ← (← content.items?).mapM byte?
      lines := ← linesOfJson? lines
      symbols := ← symbolsOfJson? symbols }
  | _ => none

end Executable

end Thumb
