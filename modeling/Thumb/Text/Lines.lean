namespace Thumb.Text

/-- A carriage return before a line feed belongs to the line end. -/
def dropReturn (cs : List Char) : List Char :=
  if cs.getLast? = some '\r' then cs.dropLast else cs

/-- Every line ends at a line feed, and a text that ends in one has no empty line after it. -/
def lines (cs : List Char) : List (List Char) :=
  let pieces := cs.splitOn '\n'
  pieces.dropLast.map dropReturn ++ (pieces.getLast?.filter (!·.isEmpty)).toList

end Thumb.Text
