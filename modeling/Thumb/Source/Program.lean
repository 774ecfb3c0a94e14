namespace Thumb

inductive SectionKind
  | code
  | data
deriving DecidableEq, Repr

/-- An instruction or a data directive, with the label that stands before it. -/
structure Record where
  label : Option String
  mnemonic : String
  operands : List String
  line : Nat
deriving DecidableEq, Repr

structure Area where
  name : String
  kind : SectionKind
  readOnly : Bool
  records : List Record := []
deriving DecidableEq, Repr

structure Constant where
  name : String
  value : Int
  line : Nat
deriving DecidableEq, Repr

structure Program where
  areas : List Area := []
  constants : List Constant := []
deriving DecidableEq, Repr

end Thumb
