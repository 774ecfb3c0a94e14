import Thumb.Text.Numeral

namespace Thumb.Arguments

/-- A setting, which is given as `--name value`, `--name=value`, or after its letter. -/
structure Setting where
  name : String
  letter : Option Char := none
  /-- Whether a text may be the value. -/
  accepts : String → Bool

/-- What a command can be told. Every command can be asked for help, and some for their version. -/
structure Spec where
  settings : List Setting := []
  version : Bool := false

inductive Refusal
  /-- Help or the version was asked for. -/
  | informed
  /-- There is a mistake in the arguments. -/
  | misused
deriving DecidableEq, Repr

/-- The values of settings by name, and the operand. -/
structure Given where
  values : List (String × String) := []
  operand : Option String := none
deriving DecidableEq, Repr

inductive Argument
  | operand
  /-- The mark that only operands follow. -/
  | divider
  | valued (setting : Setting) (value : String)
  /-- A setting whose value is the next argument. -/
  | awaiting (setting : Setting)
  | refused (why : Refusal)

def isFileName (text : String) : Bool :=
  !text.isEmpty

/-- A number of 64 bits, which a plus sign may precede. -/
def count? (text : String) : Option Nat :=
  (Text.unsigned? 10 text.toList).filter (· < 0x10000000000000000)

/-- Whether an argument is anything but an operand. -/
def isMarked (arg : String) : Bool :=
  arg.toList.head? == some '-' && arg != "-"

namespace Spec

/-- An argument after two dashes. -/
def named (spec : Spec) (cs : List Char) : Argument :=
  let name := String.ofList (cs.takeWhile (· != '='))
  let value := (cs.dropWhile (· != '=')).tail?.map String.ofList
  match spec.settings.find? (·.name = name), value with
  | some s, some value => .valued s value
  | some s, none => .awaiting s
  | none, none =>
    if name = "help" || (spec.version && name = "version") then .refused .informed
    else .refused .misused
  | none, some _ => .refused .misused

/-- An argument after one dash. -/
def lettered (spec : Spec) (letter : Char) (rest : List Char) : Argument :=
  match spec.settings.find? (·.letter = some letter), rest with
  | some s, [] => .awaiting s
  | some s, '=' :: value | some s, value => .valued s (String.ofList value)
  | none, _ =>
    if letter = 'h' || (spec.version && letter = 'V') then .refused .informed
    else .refused .misused

def classify (spec : Spec) (arg : String) : Argument :=
  match arg.toList with
  | ['-', '-'] => .divider
  | '-' :: '-' :: cs => spec.named cs
  | '-' :: letter :: rest => spec.lettered letter rest
  | _ => .operand

end Spec

namespace Given

/-- Gives a setting its value, which it may have only once. -/
def set (g : Given) (s : Setting) (value : String) : Except Refusal Given :=
  if (g.values.lookup s.name).isSome || !s.accepts value then .error .misused
  else .ok { g with values := g.values ++ [(s.name, value)] }

/-- Takes the operand, of which there is one. -/
def setOperand (g : Given) (arg : String) : Except Refusal Given :=
  if g.operand.isSome || !isFileName arg then .error .misused
  else .ok { g with operand := some arg }

end Given

/-- Reads arguments from left to right, after what was given so far. -/
def read (spec : Spec) (g : Given) : List String → Except Refusal Given
  | [] => .ok g
  | arg :: args =>
    match spec.classify arg, args with
    | .operand, args => (g.setOperand arg).bind fun g => read spec g args
    | .divider, args => args.foldlM Given.setOperand g
    | .valued s value, args => (g.set s value).bind fun g => read spec g args
    | .awaiting s, value :: args =>
      if isMarked value then .error .misused
      else (g.set s value).bind fun g => read spec g args
    | .awaiting _, [] => .error .misused
    | .refused why, _ => .error why

def parse (spec : Spec) (args : List String) : Except Refusal (String × Given) :=
  (read spec {} args).bind fun g =>
    match g.operand with
    | some operand => .ok (operand, g)
    | none => .error .misused

end Thumb.Arguments
