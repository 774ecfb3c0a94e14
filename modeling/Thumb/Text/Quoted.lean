import Thumb.Text.Numeral
import Thumb.Text.Printable

namespace Thumb.Text

/-- A character as it stands between quotes of the given kind. -/
def escaped (quote : Char) (c : Char) : String :=
  match c with
  | '\x00' => "\\0"
  | '\t' => "\\t"
  | '\r' => "\\r"
  | '\n' => "\\n"
  | '\\' => "\\\\"
  | c =>
    if c = quote then "\\" ++ c.toString
    else if isPrintable c then c.toString
    else "\\u\x7b" ++ hex 1 c.toNat ++ "\x7d"

def quotedWith (quote : Char) (cs : List Char) : String :=
  quote.toString ++ String.join (cs.map (escaped quote)) ++ quote.toString

def quoted (s : String) : String :=
  quotedWith '"' s.toList

def quotedChar (c : Char) : String :=
  quotedWith '\'' [c]

def quotedList (texts : List String) : String :=
  "[" ++ ", ".intercalate (texts.map quoted) ++ "]"

end Thumb.Text
