import Thumb.Source.Statement

namespace Thumb

abbrev Constants := Table String Int

namespace Constants

/-- A number, or the value of a constant, after any marks `#`. -/
def value? (constants : Constants) (operand : String) : Option Int :=
  let name := String.ofList (Source.dropHashes (Text.trim operand.toList))
  (Operand.number? name).or (constants.get? name)

def isNameChar (c : Char) : Bool :=
  c.isAlphanum || c == '_'

/-- A text whose first word, if that is the name of a constant, gives way to its value. -/
def spell (constants : Constants) (cs : List Char) : List Char :=
  match constants.get? (String.ofList (cs.takeWhile isNameChar)) with
  | some i => i.repr.toList ++ cs.dropWhile isNameChar
  | none => cs

/-- An operand with the value of each constant whose name follows a mark `#`. -/
def substitute (constants : Constants) (operand : String) : String :=
  match operand.toList.splitOn '#' with
  | [] => operand
  | first :: rest => String.ofList (['#'].intercalate (first :: rest.map constants.spell))

end Constants

/-- The bytes of a number, which fits the width with or without a sign. -/
def Width.dataBytes (w : Width) (value : Int) : Except ValueError (List Byte) :=
  (w.ofEither (.integer value)).map w.toBytes

/-- The text between double quotes. -/
def unquote? : List Char → Option (List Char)
  | '"' :: cs => if cs.getLast? = some '"' then some cs.dropLast else none
  | _ => none

/-- The character that is meant by a letter after a backslash. -/
def escapedChar : Char → Char
  | 'n' => '\n'
  | 't' => '\t'
  | 'r' => '\r'
  | '0' => '\x00'
  | c => c

/-- The text that is meant; a backslash at the end stands for itself. -/
def unescape : List Char → List Char
  | '\\' :: c :: cs => escapedChar c :: unescape cs
  | c :: cs => c :: unescape cs
  | [] => []

def utf8 (cs : List Char) : List Byte :=
  (cs.flatMap String.utf8EncodeChar).map (·.toBitVec)

end Thumb
