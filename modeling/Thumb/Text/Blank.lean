namespace Thumb.Text

/-- White space, as the Unicode property of that name has it. -/
def isBlank (c : Char) : Bool :=
  let n := c.toNat
  (9 ≤ n && n ≤ 13) || n == 0x20 || n == 0x85 || n == 0xA0 || n == 0x1680 ||
    (0x2000 ≤ n && n ≤ 0x200A) || n == 0x2028 || n == 0x2029 || n == 0x202F || n == 0x205F ||
    n == 0x3000

def trimStart (cs : List Char) : List Char :=
  cs.dropWhile isBlank

def trimEnd (cs : List Char) : List Char :=
  (cs.reverse.dropWhile isBlank).reverse

def trim (cs : List Char) : List Char :=
  trimEnd (trimStart cs)

/-- The text without the blanks at its two ends. -/
def trimmed (s : String) : String :=
  String.ofList (trim s.toList)

/-- The text up to the first blank, and the text after that blank. -/
def splitBlank (cs : List Char) : List Char × List Char :=
  (cs.takeWhile (!isBlank ·), (cs.dropWhile (!isBlank ·)).drop 1)

/-- Upper case for the letters `a` to `z`; every other character stays. -/
def upper (cs : List Char) : List Char :=
  cs.map Char.toUpper

end Thumb.Text
