import Thumb.Json.Basic

namespace Thumb.Json

/-- An integer of at most the given number of bits. -/
def unsigned? (bits : Nat) : Json → Option Nat
  | .number written => (Text.natural? 10 written.toList).filter (· < Nat.pow 2 bits)
  | _ => none

def word? (j : Json) : Option (BitVec 32) :=
  (j.unsigned? 32).map (BitVec.ofNat 32)

/-- An integer with 64 bits and a sign; a zero has no sign. -/
def integer64? : Json → Option Int
  | .number written =>
    match written.toList with
    | '-' :: digits =>
      (Text.natural? 10 digits).bind fun n =>
        if 0 < n ∧ n ≤ 0x8000000000000000 then some (-(n : Int)) else none
    | digits => ((Text.natural? 10 digits).filter (· < 0x8000000000000000)).map fun n => (n : Int)
  | _ => none

def string? : Json → Option String
  | .text written => meaning? written
  | _ => none

def bool? : Json → Option Bool
  | .bool value => some value
  | _ => none

def items? : Json → Option (List Json)
  | .array items => some items
  | _ => none

/-- The members of an object, with the names that their written forms stand for. -/
def members? : Json → Option (List (String × Json))
  | .object members =>
    members.mapM fun (name, value) => (meaning? name).map fun name => (name, value)
  | _ => none

/-- The values of a record's fields in the order of their names. A record is an object, in which no
field occurs twice and other names do not matter, or a list of the first fields. -/
def fields? (names : List String) : Json → Option (List (Option Json))
  | .array items =>
    if items.length ≤ names.length then
      some ((items.map some).rightpad names.length none)
    else none
  | j => do
    let members ← j.members?
    names.mapM fun name =>
      match members.filter (·.1 = name) with
      | [] => some none
      | [(_, value)] => some (some value)
      | _ => none

/-- The values of a record's fields, none of which may be missing. -/
def required? (names : List String) (j : Json) : Option (List Json) :=
  (j.fields? names).bind (·.mapM id)

/-- A name without data, which may also be written as an object with that name and nothing in it. -/
def variant? : Json → Option String
  | .object [(name, .null)] => meaning? name
  | j => j.string?

end Thumb.Json
