import Thumb.Instr.Assembly
import Thumb.Source.Error
import Thumb.Source.Program

namespace Thumb.Source

/-- The directives that reserve or fill bytes. -/
def dataDirectives : List String :=
  ["DCB", "DCW", "DCD", "SPACE", "FILL", "%", "ALIGN"]

/-- The directives that say nothing to this assembler. -/
def ignoredDirectives : List String :=
  ["THUMB", "PRESERVE8", "EXPORT", "GLOBAL", "ENTRY", "IMPORT"]

def upperText (cs : List Char) : String :=
  String.ofList (Text.upper cs)

def isDirective (word : List Char) : Bool :=
  let word := upperText word
  dataDirectives.contains word || ignoredDirectives.contains word ||
    ["AREA", "EQU", "END"].contains word

/-- Whether a word in either case is a directive or a mnemonic. -/
def isKnown (word : List Char) : Bool :=
  isDirective word || Form.isMnemonic (String.ofList word)

def isQuote (c : Char) : Bool :=
  c == '"' || c == '\''

/-- The quote that is open after a character, given the one that was open before it. -/
def quoteAfter (quote : Option Char) (c : Char) : Option Char :=
  match quote with
  | none => if isQuote c then some c else none
  | some q => if c = q then none else some q

/-- The text before the first semicolon outside quotes. -/
def uncommented (quote : Option Char) : List Char → List Char
  | [] => []
  | c :: cs =>
    if quote.isNone && c == ';' then [] else c :: uncommented (quoteAfter quote c) cs

/-- How many brackets cannot be open at once. -/
def depthLimit : Nat := 0x80000000

/-- The pieces between the commas outside brackets and quotes, the first of them after the
characters read so far in reverse; nothing if brackets or quotes do not pair up. -/
def pieces (depth : Nat) (quote : Option Char) (done : List Char) :
    List Char → Option (List (List Char))
  | [] => if depth = 0 ∧ quote.isNone then some [done.reverse] else none
  | c :: cs =>
    if quote.isSome || isQuote c then pieces depth (quoteAfter quote c) (c :: done) cs
    else if c = '[' ∨ c = '\x7b' then
      if depth + 1 < depthLimit then pieces (depth + 1) none (c :: done) cs else none
    else if c = ']' ∨ c = '\x7d' then
      match depth with
      | 0 => none
      | depth + 1 => pieces depth none (c :: done) cs
    else if c = ',' ∧ depth = 0 then (pieces 0 none [] cs).map (done.reverse :: ·)
    else pieces depth none (c :: done) cs

/-- The operands in a text, which commas outside brackets and quotes divide. None of them is
blank. -/
def splitOperands (text : List Char) : Option (List String) :=
  let text := Text.trim text
  if text.isEmpty then some []
  else
    (pieces 0 none [] text).bind fun operands =>
      let operands := operands.map Text.trim
      if operands.any List.isEmpty then none else some (operands.map String.ofList)

/-- What a line says. A label by itself marks what comes next. -/
inductive Statement
  | blank
  | label (name : String)
  | record (label : Option String) (mnemonic : String) (operands : List String)
  | constant (name : String) (value : Int)
  | area (area : Area)
  | finish (label : Option String)
deriving DecidableEq, Repr

/-- The label that a line starts with, and the rest of it. A word that is no mnemonic is a label if
one follows it, or if it stands alone at the start of the line. -/
def splitLabel (raw text : List Char) : Except StatementError (Option (List Char) × List Char) :=
  let (head, rest) := Text.splitBlank text
  let rest := Text.trim rest
  let unknown := .error (.unknownMnemonic (String.ofList head))
  if head.getLast? = some ':' then .ok (some head.dropLast, rest)
  else if isKnown head then .ok (none, text)
  else if rest.isEmpty then
    if raw.head?.any Text.isBlank then unknown else .ok (some head, [])
  else if isKnown (Text.splitBlank rest).1 then .ok (some head, rest)
  else unknown

def checkLabel (label : Option (List Char)) : Except StatementError (Option String) :=
  match label with
  | none => .ok none
  | some cs =>
    let name := String.ofList cs
    if Operand.isLabel name && cs.head? != some '$' then .ok (some name)
    else .error (.invalidLabel name)

/-- The text after the marks `#` at its start. -/
def dropHashes (cs : List Char) : List Char :=
  cs.dropWhile (· == '#')

def parseConstant (label : Option String) (operands : List String) :
    Except StatementError Statement :=
  match label, operands with
  | none, _ => .error .namelessConstant
  | some name, [value] =>
    match Operand.number? (String.ofList (dropHashes value.toList)) with
    | some i => .ok (.constant name i)
    | none => .error (.notNumber value)
  | some _, _ => .error .constantOperands

/-- Whether an area is read-only, as its last attribute on that says. -/
def readOnlyAfter (readOnly : Bool) (word : String) : Bool :=
  match upperText word.toList with
  | "READONLY" => true
  | "READWRITE" => false
  | _ => readOnly

/-- `AREA name, CODE|DATA`, with attributes after it. -/
def parseArea (operands : List String) : Except StatementError Area := do
  match operands with
  | name :: kind :: attributes =>
    let kind ← match upperText kind.toList with
      | "CODE" => pure SectionKind.code
      | "DATA" => pure SectionKind.data
      | other => throw (.areaKind other)
    return { name, kind, readOnly := attributes.foldl readOnlyAfter (kind = .code) }
  | _ => throw .areaOperands

/-- The statement after a label. -/
def parseBody (label : Option String) (text : List Char) : Except StatementError Statement := do
  let (word, operandText) := Text.splitBlank text
  let mnemonic := upperText word
  if !isKnown word then
    throw (.unknownMnemonic mnemonic)
  match splitOperands operandText with
  | none => throw (.malformedOperands (String.ofList (Text.trim operandText)))
  | some operands =>
    if mnemonic = "END" then return .finish label
    else if mnemonic = "AREA" then
      if label.isSome then throw .labelledArea
      return .area (← parseArea operands)
    else if mnemonic = "EQU" then parseConstant label operands
    else if ignoredDirectives.contains mnemonic then return label.elim .blank .label
    else return .record label mnemonic operands

/-- What a line of source says: `[label[:]] MNEMONIC operand, operand ; comment`. -/
def parseStatement (raw : List Char) : Except StatementError Statement := do
  let text := Text.trim (uncommented none raw)
  if text.isEmpty then
    return .blank
  let (label, rest) ← splitLabel raw text
  let label ← checkLabel label
  if rest.isEmpty then
    return label.elim .blank .label
  parseBody label rest

end Thumb.Source
