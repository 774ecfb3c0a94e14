import Thumb.Json.Basic

namespace Thumb.Json

def isSpace (c : Char) : Bool :=
  c == ' ' || c == '\n' || c == '\t' || c == '\r'

def skipSpace (cs : List Char) : List Char :=
  cs.dropWhile isSpace

/-- The written text up to its closing quote, after the characters read so far in reverse. -/
def scanText (done : List Char) : List Char → Option (List Char × List Char)
  | [] => none
  | '"' :: rest => some (done.reverse, rest)
  | '\\' :: 'u' :: a :: b :: c :: d :: rest =>
    if (unit? a b c d).isSome then scanText (d :: c :: b :: a :: 'u' :: '\\' :: done) rest else none
  | '\\' :: e :: rest =>
    if (shortEscape? e).isSome then scanText (e :: '\\' :: done) rest else none
  | c :: rest => if c < ' ' then none else scanText (c :: done) rest

def scanDigits (cs : List Char) : Option (List Char × List Char) :=
  let digits := cs.takeWhile Char.isDigit
  if digits.isEmpty then none else some (digits, cs.dropWhile Char.isDigit)

/-- Digits without a leading zero. -/
def scanWhole : List Char → Option (List Char × List Char)
  | '0' :: rest => some (['0'], rest)
  | cs => scanDigits cs

def scanFraction : List Char → Option (List Char × List Char)
  | '.' :: rest => (scanDigits rest).map fun (digits, rest) => ('.' :: digits, rest)
  | cs => some ([], cs)

def isExponentMark (c : Char) : Bool :=
  c == 'e' || c == 'E'

def isSign (c : Char) : Bool :=
  c == '+' || c == '-'

def scanExponent : List Char → Option (List Char × List Char)
  | [] => some ([], [])
  | mark :: cs =>
    if isExponentMark mark then
      let sign := (cs.head?.filter isSign).toList
      (scanDigits (cs.drop sign.length)).map fun (digits, rest) => (mark :: sign ++ digits, rest)
    else some ([], mark :: cs)

def scanNumber (cs : List Char) : Option (Json × List Char) := do
  let sign := (cs.head?.filter (· == '-')).toList
  let (whole, cs) ← scanWhole (cs.drop sign.length)
  let (fraction, cs) ← scanFraction cs
  let (exponent, cs) ← scanExponent cs
  return (.number (String.ofList (sign ++ whole ++ fraction ++ exponent)), cs)

def numeral? (text : String) : Option Json :=
  match scanNumber text.toList with
  | some (value, []) => some value
  | _ => none

mutual

/-- A value at the start of the text, and the text after it. -/
def scanValue : Nat → List Char → Option (Json × List Char)
  | 0, _ => none
  | fuel + 1, cs =>
    match skipSpace cs with
    | 'n' :: 'u' :: 'l' :: 'l' :: rest => some (.null, rest)
    | 't' :: 'r' :: 'u' :: 'e' :: rest => some (.bool true, rest)
    | 'f' :: 'a' :: 'l' :: 's' :: 'e' :: rest => some (.bool false, rest)
    | '"' :: rest => (scanText [] rest).map fun (s, rest) => (.text (String.ofList s), rest)
    | '[' :: rest =>
      match skipSpace rest with
      | ']' :: rest => some (.array [], rest)
      | rest => scanItems fuel [] rest
    | '\x7b' :: rest =>
      match skipSpace rest with
      | '\x7d' :: rest => some (.object [], rest)
      | rest => scanMembers fuel [] rest
    | rest => scanNumber rest

/-- The items of an array up to its end, after those read so far in reverse. -/
def scanItems : Nat → List Json → List Char → Option (Json × List Char)
  | 0, _, _ => none
  | fuel + 1, done, cs =>
    match scanValue fuel cs with
    | none => none
    | some (value, rest) =>
      match skipSpace rest with
      | ',' :: rest => scanItems fuel (value :: done) rest
      | ']' :: rest => some (.array (value :: done).reverse, rest)
      | _ => none

/-- The members of an object up to its end, after those read so far in reverse. -/
def scanMembers : Nat → List (String × Json) → List Char → Option (Json × List Char)
  | 0, _, _ => none
  | fuel + 1, done, cs =>
    match skipSpace cs with
    | '"' :: rest =>
      match scanText [] rest with
      | none => none
      | some (name, rest) =>
        match skipSpace rest with
        | ':' :: rest =>
          match scanValue fuel rest with
          | none => none
          | some (value, rest) =>
            let done := (String.ofList name, value) :: done
            match skipSpace rest with
            | ',' :: rest => scanMembers fuel done rest
            | '\x7d' :: rest => some (.object done.reverse, rest)
            | _ => none
        | _ => none
    | _ => none

end

/-- The document that a text is. Two levels of reading at most stand before each character. -/
def parse? (text : String) : Option Json :=
  let cs := text.toList
  match scanValue (2 * cs.length + 2) cs with
  | some (value, rest) => if (skipSpace rest).isEmpty then some value else none
  | none => none

end Thumb.Json
