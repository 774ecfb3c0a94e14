import Thumb.Json.Basic
import Thumb.Memory.Map

namespace Thumb

def bytesJson (bytes : List Byte) : Json :=
  .array (bytes.map fun b => .ofNat b.toNat)

def Region.toJson (r : Region) : Json :=
  .ofMembers [("mem", bytesJson r.bytes), ("base", .ofNat r.base.toNat),
    ("read_only", .bool r.readOnly)]

def Memory.toJson (m : Memory) : Json :=
  .ofMembers [("regions", .array (m.regions.map Region.toJson))]

end Thumb
