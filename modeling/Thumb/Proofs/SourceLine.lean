import Thumb.Proofs.Symbols

namespace Thumb.Source

def content (raw : List Char) : List Char :=
  Text.trim (uncommented none raw)

/-- The first word, if a colon ends it or if it is neither a directive nor a mnemonic. -/
def lineLabel (raw : List Char) : Option String :=
  let head := (Text.splitBlank (content raw)).1
  if head.getLast? = some ':' then some (String.ofList head.dropLast)
  else if (content raw).isEmpty || isKnown head then none
  else some (String.ofList head)

def lineBody (raw : List Char) : List Char :=
  if (lineLabel raw).isSome then Text.trim (Text.splitBlank (content raw)).2 else content raw

def lineWord (raw : List Char) : String :=
  upperText (Text.splitBlank (lineBody raw)).1

def lineOperands (raw : List Char) : Option (List String) :=
  splitOperands (Text.splitBlank (lineBody raw)).2

inductive LineKind
  /-- Nothing, or an ignored directive, after the label if there is one. -/
  | mark
  /-- An instruction or a data directive. -/
  | record
  | constant
  | area
  | finish
  | other
deriving DecidableEq

def lineKind (raw : List Char) : LineKind :=
  let word := lineWord raw
  if (lineBody raw).isEmpty || ignoredDirectives.contains word then .mark
  else if word = "AREA" then .area
  else if word = "EQU" then .constant
  else if word = "END" then .finish
  else if dataDirectives.contains word || Form.all.any (·.answersTo word) then .record
  else .other

/-- The statement of a line, as its text has it. -/
inductive Tells (raw : List Char) : Statement → Prop
  | blank (kind : lineKind raw = .mark) (label : lineLabel raw = none) : Tells raw .blank
  | label {name : String} (kind : lineKind raw = .mark) (label : lineLabel raw = some name) :
      Tells raw (.label name)
  | record {ops : List String} (kind : lineKind raw = .record)
      (operands : lineOperands raw = some ops) :
      Tells raw (.record (lineLabel raw) (lineWord raw) ops)
  | constant {name operand : String} {value : Int} (kind : lineKind raw = .constant)
      (label : lineLabel raw = some name) (operands : lineOperands raw = some [operand])
      (number : Operand.number? (String.ofList (dropHashes operand.toList)) = some value) :
      Tells raw (.constant name value)
  | area {a : Area} (kind : lineKind raw = .area) (label : lineLabel raw = none)
      (records : a.records = []) : Tells raw (.area a)
  | finish (kind : lineKind raw = .finish) : Tells raw (.finish (lineLabel raw))

theorem eq_of_checkLabel {label : Option (List Char)} {checked : Option String}
    (h : checkLabel label = .ok checked) : checked = label.map String.ofList := by
  unfold checkLabel at h
  split at h
  · cases h
    rfl
  · dsimp only at h
    split at h
    · cases h
      rfl
    · cases h

/-- The label is what the line starts with, and the body is what follows it. -/
theorem eq_of_splitLabel {raw rest : List Char} {label : Option (List Char)}
    (hne : (content raw).isEmpty = false) (h : splitLabel raw (content raw) = .ok (label, rest)) :
    lineLabel raw = label.map String.ofList ∧ lineBody raw = rest := by
  unfold lineBody lineLabel
  unfold splitLabel at h
  rw [hne]
  dsimp only at h ⊢
  split at h
  case isTrue hcolon =>
    cases h
    rw [if_pos hcolon]
    exact ⟨rfl, rfl⟩
  case isFalse hcolon =>
    rw [if_neg hcolon, Bool.false_or]
    split at h
    case isTrue hknown =>
      cases h
      rw [if_pos hknown]
      exact ⟨rfl, rfl⟩
    case isFalse hknown =>
      rw [if_neg hknown]
      split at h
      case isTrue hrest =>
        split at h
        · cases h
        · cases h
          exact ⟨rfl, List.isEmpty_iff.mp hrest⟩
      case isFalse hrest =>
        split at h
        · cases h
          exact ⟨rfl, rfl⟩
        · cases h

theorem tells_elim {raw : List Char} (h : lineKind raw = .mark) :
    Tells raw ((lineLabel raw).elim .blank .label) := by
  cases hlabel : lineLabel raw with
  | none => exact .blank h hlabel
  | some name => exact .label h hlabel

theorem tells_of_parseConstant {raw : List Char} {operands : List String} {s : Statement}
    (hkind : lineKind raw = .constant) (hoperands : lineOperands raw = some operands)
    (h : parseConstant (lineLabel raw) operands = .ok s) : Tells raw s := by
  unfold parseConstant at h
  split at h
  · cases h
  case h_2 name value hlabel =>
    split at h
    case h_1 i hnumber =>
      cases h
      exact .constant hkind hlabel hoperands hnumber
    case h_2 => cases h
  · cases h

theorem lineKind_of_body {raw : List Char} (hne : (lineBody raw).isEmpty = false) :
    lineKind raw =
      if ignoredDirectives.contains (lineWord raw) then .mark
      else if lineWord raw = "AREA" then .area
      else if lineWord raw = "EQU" then .constant
      else if lineWord raw = "END" then .finish
      else if dataDirectives.contains (lineWord raw) || Form.all.any (·.answersTo (lineWord raw))
      then .record
      else .other := by
  rw [lineKind, hne, Bool.false_or]

theorem isRecord_of_isKnown {word : List Char} (hknown : isKnown word = true)
    (hignored : ignoredDirectives.contains (upperText word) = false)
    (harea : upperText word ≠ "AREA") (hequ : upperText word ≠ "EQU")
    (hend : upperText word ≠ "END") :
    (dataDirectives.contains (upperText word) ||
      Form.all.any (·.answersTo (upperText word))) = true := by
  have hothers : ["AREA", "EQU", "END"].contains (upperText word) = false := by
    simp [harea, hequ, hend]
  rw [isKnown, isDirective, Form.isMnemonic, String.toList_ofList] at hknown
  rwa [hignored, hothers, Bool.or_false, Bool.or_false] at hknown

theorem tells_of_parseBody {raw : List Char} {s : Statement} (hne : (lineBody raw).isEmpty = false)
    (h : parseBody (lineLabel raw) (lineBody raw) = .ok s) : Tells raw s := by
  have hword : upperText (Text.splitBlank (lineBody raw)).1 = lineWord raw := rfl
  have hoperands : splitOperands (Text.splitBlank (lineBody raw)).2 = lineOperands raw := rfl
  have hkind := lineKind_of_body hne
  unfold parseBody at h
  dsimp only at h
  rw [hword, hoperands] at h
  split at h
  · cases h
  case isFalse hknown =>
    split at h
    · cases h
    case h_2 operands hops =>
      split at h
      case isTrue hend =>
        cases h
        rw [hend] at hkind
        exact .finish hkind
      case isFalse hend =>
        split at h
        case isTrue harea =>
          rw [harea] at hkind
          split at h
          · cases h
          case isFalse hlabel =>
            obtain ⟨a, ha, h⟩ := bind_ok_iff.mp h
            cases h
            exact .area hkind (Option.not_isSome_iff_eq_none.mp hlabel) (records_parseArea ha)
        case isFalse harea =>
          split at h
          case isTrue hequ =>
            rw [hequ] at hkind
            exact tells_of_parseConstant hkind hops h
          case isFalse hequ =>
            split at h
            case isTrue hignored =>
              cases h
              rw [if_pos hignored] at hkind
              exact tells_elim hkind
            case isFalse hignored =>
              cases h
              have hrecord := isRecord_of_isKnown (by simpa using hknown)
                (Bool.eq_false_iff.mpr hignored) harea hequ hend
              rw [hword] at hrecord
              rw [if_neg hignored, if_neg harea, if_neg hequ, if_neg hend, if_pos hrecord] at hkind
              exact .record hkind hops

theorem tells_of_parseStatement {raw : List Char} {s : Statement}
    (h : parseStatement raw = .ok s) : Tells raw s := by
  have htext : Text.trim (uncommented none raw) = content raw := rfl
  unfold parseStatement at h
  dsimp only at h
  rw [htext] at h
  cases hempty : (content raw).isEmpty with
  | true =>
    rw [hempty] at h
    cases h
    have hnil := List.isEmpty_iff.mp hempty
    have hlabel : lineLabel raw = none := by
      rw [lineLabel, hnil]
      rfl
    have hbody : lineBody raw = [] := by
      rw [lineBody, hlabel, hnil]
      rfl
    apply Tells.blank _ hlabel
    rw [lineKind, hbody]
    rfl
  | false =>
    rw [hempty] at h
    obtain ⟨⟨label, rest⟩, hsplit, h⟩ := bind_ok_iff.mp h
    obtain ⟨hlabel, hbody⟩ := eq_of_splitLabel hempty hsplit
    obtain ⟨checked, hchecked, h⟩ := bind_ok_iff.mp h
    rw [eq_of_checkLabel hchecked, ← hlabel] at h
    dsimp only at h
    rw [← hbody] at h
    split at h
    case isTrue hrest =>
      cases h
      apply tells_elim
      rw [lineKind, hrest]
      rfl
    case isFalse hrest => exact tells_of_parseBody (Bool.eq_false_iff.mpr hrest) h

def toEnd : List (List Char) → List (List Char)
  | [] => []
  | raw :: rest => if lineKind raw = .finish then [raw] else raw :: toEnd rest

/-- Statements of consecutive lines from a line number on. -/
inductive TellsAll : Nat → List (List Char) → List (Nat × Statement) → Prop
  | nil {n : Nat} : TellsAll n [] []
  | cons {n : Nat} {raw : List Char} {s : Statement} {lines : List (List Char)}
      {ss : List (Nat × Statement)} (tells : Tells raw s) (rest : TellsAll (n + 1) lines ss) :
      TellsAll n (raw :: lines) ((n, s) :: ss)

theorem Tells.finish_iff {raw : List Char} {s : Statement} (h : Tells raw s) :
    lineKind raw = .finish ↔ ∃ label, s = .finish label := by
  cases h with
  | finish kind => exact ⟨fun _ => ⟨_, rfl⟩, fun _ => kind⟩
  | _ kind => simp [kind]

theorem tellsAll_of_statements {n : Nat} {lines : List (List Char)} {ss : List (Nat × Statement)}
    (h : statements n lines = .ok ss) : TellsAll n (toEnd lines) ss := by
  induction lines generalizing n ss with
  | nil =>
    cases h
    exact .nil
  | cons raw rest ih =>
    unfold statements at h
    unfold toEnd
    split at h
    · cases h
    case h_2 label hraw =>
      cases h
      have htells := tells_of_parseStatement hraw
      rw [if_pos (htells.finish_iff.mpr ⟨label, rfl⟩)]
      exact .cons htells .nil
    case h_3 s hother hraw =>
      obtain ⟨more, hmore, rfl⟩ := map_ok_iff.mp h
      have htells := tells_of_parseStatement hraw
      have hnot : lineKind raw ≠ .finish := by
        intro hkind
        obtain ⟨label, rfl⟩ := htells.finish_iff.mp hkind
        exact hother label rfl
      rw [if_neg hnot]
      exact .cons htells (ih hmore)

end Thumb.Source
