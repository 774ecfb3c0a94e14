import Thumb.Proofs.FormSelection
import Thumb.Proofs.LiteralLoad
import Thumb.Proofs.Substitution

namespace Thumb

/-- A text without the mark of the labels of literals. -/
def Plain (text : String) : Prop :=
  '$' ∉ text.toList

instance (text : String) : Decidable (Plain text) :=
  inferInstanceAs (Decidable (¬_))

theorem not_plain_literalLabel (n : Nat) : ¬Plain (literalLabel n) := by
  rw [Plain, toList_literalLabel]
  exact not_not.mpr (.head _)

theorem Plain.ne_literalLabel {text : String} (h : Plain text) (n : Nat) :
    text ≠ literalLabel n := by
  rintro rfl
  exact not_plain_literalLabel n h

theorem trimmed_literalLabel (n : Nat) : Text.trimmed (literalLabel n) = literalLabel n := by
  rw [Text.trimmed, trim_literalLabel, String.ofList_toList]

theorem Plain.trimmed {text : String} (h : Plain text) : Plain (Text.trimmed text) := by
  rw [Plain, Text.trimmed, String.toList_ofList]
  exact fun hmem => h (Text.trim_subset _ hmem)

theorem Plain.substitute {operand : String} (h : Plain operand) (constants : Constants) :
    Plain (constants.substitute operand) := by
  rw [Plain, Constants.toList_substitute, Constants.mem_spelled_iff (by decide) (by decide)]
  exact h

/-- A text with the number of a literal, if it has one, counted from another one. -/
def renumber (first : Nat) (text : String) : String :=
  match text.toList with
  | '$' :: 'l' :: 'i' :: 't' :: digits => literalLabel (first + (Text.natural? 10 digits).getD 0)
  | _ => text

theorem renumber_literalLabel (first n : Nat) :
    renumber first (literalLabel n) = literalLabel (first + n) := by
  unfold renumber
  rw [toList_literalLabel]
  show literalLabel (first + (Text.natural? 10 (Nat.toDigits 10 n)).getD 0) = _
  rw [Operand.natural?_toDigits, Option.getD_some]

theorem Plain.renumber {text : String} (h : Plain text) (first : Nat) :
    renumber first text = text := by
  unfold Thumb.renumber
  split
  case h_1 digits heq =>
    rw [Plain, heq] at h
    exact absurd (.head _) h
  case h_2 => rfl

/-- A plain text, or the label of one of the first literals. -/
def Ordinary (count : Nat) (text : String) : Prop :=
  Plain text ∨ ∃ n < count, text = literalLabel n

namespace Ordinary

variable {count count' : Nat} {text text' : String}

theorem mono (h : Ordinary count text) (hle : count ≤ count') : Ordinary count' text := by
  rcases h with h | ⟨n, hn, h⟩
  · exact .inl h
  · exact .inr ⟨n, hn.trans_le hle, h⟩

theorem trimmed (h : Ordinary count text) : Ordinary count (Text.trimmed text) := by
  rcases h with h | ⟨n, hn, rfl⟩
  · exact .inl h.trimmed
  · exact .inr ⟨n, hn, trimmed_literalLabel n⟩

theorem trimmed_renumber (h : Ordinary count text) (first : Nat) :
    Text.trimmed (renumber first text) = renumber first (Text.trimmed text) := by
  rcases h with h | ⟨n, hn, rfl⟩
  · rw [h.renumber, h.trimmed.renumber]
  · rw [trimmed_literalLabel, renumber_literalLabel, trimmed_literalLabel]

theorem renumber_inj (h : Ordinary count text) (h' : Ordinary count' text') {first : Nat} :
    renumber first text = renumber first text' ↔ text = text' := by
  rcases h with h | ⟨n, _, rfl⟩
  · rcases h' with h' | ⟨n', _, rfl⟩
    · rw [h.renumber, h'.renumber]
    · rw [h.renumber, renumber_literalLabel]
      exact iff_of_false (h.ne_literalLabel _) (h.ne_literalLabel _)
  · rcases h' with h' | ⟨n', _, rfl⟩
    · rw [h'.renumber, renumber_literalLabel]
      exact iff_of_false (h'.ne_literalLabel _).symm (h'.ne_literalLabel _).symm
    · rw [renumber_literalLabel, renumber_literalLabel]
      constructor
      · intro heq
        rw [Nat.add_left_cancel (literalLabel_injective heq)]
      · intro heq
        rw [literalLabel_injective heq]

end Ordinary

/-- Texts that are the same, or the labels of literals. -/
def SameName (text text' : String) : Prop :=
  text = text' ∨ ∃ n n', text = literalLabel n ∧ text' = literalLabel n'

theorem SameName.symm {text text' : String} (h : SameName text text') : SameName text' text := by
  rcases h with h | ⟨n, n', h, h'⟩
  · exact .inl h.symm
  · exact .inr ⟨n', n, h', h⟩

theorem Ordinary.sameName {count : Nat} {text : String} (h : Ordinary count text)
    (first first' : Nat) : SameName (renumber first text) (renumber first' text) := by
  rcases h with h | ⟨n, _, rfl⟩
  · rw [h.renumber, h.renumber]
    exact .inl rfl
  · exact .inr ⟨_, _, renumber_literalLabel _ _, renumber_literalLabel _ _⟩

theorem Ordinary.sameName_renumber {count : Nat} {text : String} (h : Ordinary count text)
    (first : Nat) : SameName text (renumber first text) := by
  rcases h with h | ⟨n, _, rfl⟩
  · exact .inl (h.renumber first).symm
  · exact .inr ⟨n, _, rfl, renumber_literalLabel first n⟩

namespace Operand

variable (n : Nat)

theorem isRegister_literalLabel : isRegister (literalLabel n) = false := by
  rw [isRegister, Option.isSome_eq_false_iff, Option.isNone_iff_eq_none,
    Option.eq_none_iff_forall_ne_some]
  intro r hr
  refine Reg.not_mem_of_ofChars? hr (c := '$') (by decide) ?_
  rw [toList_literalLabel]
  exact .head _

theorem parse?_literalLabel : Reg.parse? (literalLabel n) = none := by
  have h := isRegister_literalLabel n
  rwa [isRegister, Option.isSome_eq_false_iff, Option.isNone_iff_eq_none] at h

theorem lowRegister_literalLabel (d : Fin 8) : lowRegister (literalLabel n) ≠ .ok d := by
  rw [Ne, lowRegister_eq_ok, parse?_literalLabel]
  exact nofun

theorem isLowRegister_literalLabel : isLowRegister (literalLabel n) = false := by
  rw [isLowRegister, parse?_literalLabel, Option.any_none]

theorem sameRegister_literalLabel (op : String) : sameRegister (literalLabel n) op = false := by
  rw [sameRegister, isRegister_literalLabel, Bool.false_and]

theorem sameRegister_literalLabel' (op : String) : sameRegister op (literalLabel n) = false := by
  rw [sameRegister, parse?_literalLabel, isRegister]
  cases Reg.parse? op with
  | none => rfl
  | some r => rfl

theorem isImmediate_literalLabel : isImmediate (literalLabel n) = false := by
  apply not_isImmediate_of_trim (c := '$') (by decide)
  rw [trim_literalLabel, toList_literalLabel]

theorem isRegisterList_literalLabel : isRegisterList (literalLabel n) = false := by
  rw [isRegisterList, isEnclosed, trim_literalLabel, toList_literalLabel]
  rfl

theorem isLabel_literalLabel : isLabel (literalLabel n) = true := by
  have hdigits : ((Nat.toDigits 10 n).all isNameChar) = true := by
    rw [List.all_eq_true]
    intro c hc
    have hdigit := isDigit_toDigits n c hc
    simp [isNameChar, Char.isAlphanum, hdigit]
  have hname : (['l', 'i', 't'] ++ Nat.toDigits 10 n).all isNameChar = true := by
    rw [List.all_append, hdigits]
    decide
  unfold isLabel
  rw [trim_literalLabel, toList_literalLabel]
  exact Bool.and_eq_true_iff.mpr ⟨hname, by rw [isRegister_literalLabel]; rfl⟩

def target (labels : Option Labels) (op : String) : Option (Word × Option Word) :=
  labels.map fun l => (l.site, l.targets.get? (Text.trimmed op))

theorem target_none (op op' : String) : target none op = target none op' := by
  rw [target, target, Option.map_none, Option.map_none]

section Target

variable {labels labels' : Option Labels} {op op' : String}

theorem labelOffset_of_target (h : target labels op = target labels' op') {aligned : Bool}
    {offset : Int} (hoffset : labelOffset op labels aligned = .ok offset) :
    labelOffset op' labels' aligned = .ok offset := by
  cases labels with
  | none =>
    cases labels' with
    | none => exact hoffset
    | some l' => simp [target] at h
  | some l =>
    cases labels' with
    | none => simp [target] at h
    | some l' =>
      obtain ⟨hsite, hget⟩ := Prod.mk.inj (Option.some.inj h)
      simp only [labelOffset, Labels.alignedOffset?, Labels.offset?] at hoffset ⊢
      rw [← hsite, ← hget]
      cases hfound : l.targets.get? (Text.trimmed op) with
      | none =>
        rw [hfound] at hoffset
        cases aligned <;> cases hoffset
      | some address =>
        rw [hfound] at hoffset
        cases aligned <;> exact hoffset

theorem signedLabelField_of_target (h : target labels op = target labels' op') {bits scale n : Nat}
    (hn : signedLabelField op labels bits scale = .ok n) :
    signedLabelField op' labels' bits scale = .ok n := by
  simp only [signedLabelField, bind_ok_iff, boundedOffset_eq_ok] at hn ⊢
  obtain ⟨offset, hoffset, hfield⟩ := hn
  exact ⟨offset, labelOffset_of_target h hoffset, hfield⟩

theorem alignedLabelField_of_target (h : target labels op = target labels' op') {bits n : Nat}
    (hn : alignedLabelField op labels bits = .ok n) :
    alignedLabelField op' labels' bits = .ok n := by
  simp only [alignedLabelField, bind_ok_iff, boundedOffset_eq_ok] at hn ⊢
  obtain ⟨offset, hoffset, hfield⟩ := hn
  exact ⟨offset, labelOffset_of_target h hoffset, hfield⟩

end Target

/-- A label of a literal gives way to that of another one. -/
theorem isLabel_of_sameName {op op' : String} (h : SameName op op') (hop : isLabel op = true) :
    isLabel op' = true := by
  rcases h with rfl | ⟨n, n', rfl, rfl⟩
  · exact hop
  · exact isLabel_literalLabel n'

theorem eq_of_isRegister {op op' : String} (h : SameName op op') (hop : isRegister op = true) :
    op' = op := by
  rcases h with rfl | ⟨n, n', rfl, rfl⟩
  · rfl
  · rw [isRegister_literalLabel] at hop
    cases hop

end Operand

namespace Form

open Operand

variable {f : Form} {operands operands' : List String} {labels labels' : Option Labels}

theorem not_mem_of_transferTakes {p : Address → Bool} {n : Nat}
    (h : transferTakes p operands = true) : literalLabel n ∉ operands := by
  unfold transferTakes at h
  split at h
  case h_1 t mem =>
    intro hop
    simp only [List.mem_cons, List.not_mem_nil, or_false] at hop
    rcases hop with rfl | rfl
    · simp [isRegister_literalLabel] at h
    · simp [address?_literalLabel] at h
  case h_2 => cases h

theorem not_mem_of_dataShapeTakes {shape : DataShape} {n : Nat}
    (h : dataShapeTakes shape operands = true) : literalLabel n ∉ operands := by
  intro hop
  unfold dataShapeTakes at h
  split at h <;> first | cases h | simp only [List.mem_cons, List.not_mem_nil, or_false] at hop
  all_goals
    rcases hop with rfl | rfl | rfl <;>
      simp [isRegister_literalLabel, isLowRegister_literalLabel, isImmediate_literalLabel,
        sameRegister_literalLabel, sameRegister_literalLabel'] at h

theorem not_mem_of_multiple {n : Nat} {base list : String}
    (hbase : isRegister (String.ofList (dropMarks (Text.trimEnd base.toList))) = true)
    (hlist : isRegisterList list = true) : literalLabel n ∉ [base, list] := by
  intro hop
  simp only [List.mem_cons, List.not_mem_nil, or_false] at hop
  rcases hop with rfl | rfl
  · -- The mark of the label stands before the marks `!` and blanks that are dropped.
    obtain ⟨r, hr⟩ := Option.isSome_iff_exists.mp hbase
    refine Reg.not_mem_of_ofChars? hr (c := '$') (by decide) ?_
    rw [String.toList_ofList]
    apply mem_dropMarks (by decide) (by decide)
    rw [toList_literalLabel]
    exact .head _
  · rw [isRegisterList_literalLabel] at hlist
    cases hlist

/-- A form without labels does not take the label of a literal. -/
theorem not_mem_of_parse {i : Instr} (hf : f.needsLabels = false)
    (htakes : f.takes operands = true) (hi : f.parse operands labels = .ok i) (n : Nat) :
    literalLabel n ∉ operands := by
  cases f
  case data op => exact not_mem_of_dataShapeTakes htakes
  case transferSp | transferImm | transferReg => exact not_mem_of_transferTakes htakes
  case adr | loadLiteral | branch | branchLink | branchIf => cases hf
  all_goals intro hop
  all_goals rcases operands with _ | ⟨a, _ | ⟨b, _ | ⟨c, _ | ⟨d, rest⟩⟩⟩⟩
  all_goals
    simp only [takes, List.mem_cons, List.not_mem_nil, or_false, Bool.false_eq_true] at htakes hop
  case storeMultiple | loadMultiple =>
    obtain ⟨hbase, hlist⟩ := Bool.and_eq_true_iff.mp htakes
    exact not_mem_of_multiple hbase hlist (by simpa using hop)
  case unary =>
    obtain ⟨x, hx, hi⟩ := bind_ok_iff.mp hi
    obtain ⟨y, hy, hi⟩ := bind_ok_iff.mp hi
    rcases hop with rfl | rfl
    · exact lowRegister_literalLabel n x hx
    · exact lowRegister_literalLabel n y hy
  case moveImm | compareImm =>
    obtain ⟨x, hx, _⟩ := bind_ok_iff.mp hi
    rcases hop with rfl | rfl
    · exact lowRegister_literalLabel n x hx
    · rw [isImmediate_literalLabel] at htakes
      cases htakes
  all_goals
    rcases hop with rfl | rfl | rfl <;>
      simp [isSp, parse?_literalLabel, isRegister_literalLabel, isImmediate_literalLabel,
        isRegisterList_literalLabel, sameRegister_literalLabel,
        sameRegister_literalLabel'] at htakes

/-- Operands that differ in the numbers of literals, and stand for the same places. -/
def SameTargets (labels labels' : Option Labels) (operands operands' : List String) : Prop :=
  operands.Forall₂ (fun op op' => SameName op op' ∧ target labels op = target labels' op') operands'

theorem SameTargets.symm (h : SameTargets labels labels' operands operands') :
    SameTargets labels' labels operands' operands :=
  h.flip.imp fun _ _ hop => ⟨hop.1.symm, hop.2.symm⟩

theorem SameTargets.eq (h : SameTargets labels labels' operands operands')
    (hnone : ∀ n, literalLabel n ∉ operands) : operands' = operands := by
  induction h with
  | nil => rfl
  | cons hop _ ih =>
    rcases hop.1 with rfl | ⟨n, n', rfl, rfl⟩
    · rw [ih fun n hn => hnone n (.tail _ hn)]
    · exact absurd (.head _) (hnone n)

/-- A form with labels takes a literal with another number, and makes the same of it. -/
theorem SameTargets.parse {i : Instr} (h : SameTargets labels labels' operands operands')
    (hf : f.needsLabels = true) (htakes : f.takes operands = true)
    (hi : f.parse operands labels = .ok i) :
    f.takes operands' = true ∧ f.parse operands' labels' = .ok i := by
  cases f
  case adr | loadLiteral =>
    rcases operands with _ | ⟨d, _ | ⟨label, _ | ⟨c, rest⟩⟩⟩
    case cons.cons.nil =>
      obtain _ | ⟨hd, _ | ⟨hlabel, _ | _⟩⟩ := h
      obtain ⟨hregister, hisLabel⟩ := Bool.and_eq_true_iff.mp htakes
      cases eq_of_isRegister hd.1 hregister
      obtain ⟨x, hx, hi⟩ := bind_ok_iff.mp hi
      obtain ⟨y, hy, hi⟩ := bind_ok_iff.mp hi
      refine ⟨Bool.and_eq_true_iff.mpr ⟨hregister, isLabel_of_sameName hlabel.1 hisLabel⟩, ?_⟩
      exact bind_ok_iff.mpr
        ⟨x, hx, bind_ok_iff.mpr ⟨y, alignedLabelField_of_target hlabel.2 hy, hi⟩⟩
    all_goals cases htakes
  case branch | branchLink | branchIf =>
    rcases operands with _ | ⟨label, _ | ⟨c, rest⟩⟩
    case cons.nil =>
      obtain _ | ⟨hlabel, _ | _⟩ := h
      obtain ⟨x, hx, hi⟩ := bind_ok_iff.mp hi
      refine ⟨isLabel_of_sameName hlabel.1 htakes, ?_⟩
      exact bind_ok_iff.mpr ⟨x, signedLabelField_of_target hlabel.2 hx, hi⟩
    all_goals cases htakes
  all_goals cases hf

theorem not_twins_of_needsLabels (hf : f.needsLabels = true) (g : Form) :
    twins f g = false ∧ twins g f = false := by
  constructor
  · rw [Bool.eq_false_iff]
    intro h
    rcases twins_cases h with ⟨op, rfl, _⟩ | ⟨rfl, _⟩ | ⟨rfl, _⟩ <;> cases hf
  · rw [Bool.eq_false_iff]
    intro h
    rcases twins_cases h with ⟨op, _, rfl⟩ | ⟨_, rfl⟩ | ⟨_, rfl⟩ <;> cases hf

theorem SameTargets.encode {mnemonic : String} {opcode : List Halfword}
    (h : SameTargets labels labels' operands operands')
    (hselect : select mnemonic operands = .ok f)
    (hencode : f.encode operands labels = .ok opcode) :
    select mnemonic operands' = .ok f ∧ f.encode operands' labels' = .ok opcode := by
  obtain ⟨hanswers, htakes⟩ := Bool.and_eq_true_iff.mp (canEncode_of_select hselect)
  obtain ⟨i, hi, hopcode⟩ := encode_eq_ok.mp hencode
  cases hf : f.needsLabels with
  | false =>
    have hnone : f.encode operands labels = f.encode operands none := encode_of_not_needsLabels hf
    rw [h.eq (not_mem_of_parse hf htakes hi), encode_of_not_needsLabels hf, ← hnone]
    exact ⟨hselect, hencode⟩
  | true =>
    obtain ⟨htakes', hi'⟩ := h.parse hf htakes hi
    have hcan := Bool.and_eq_true_iff.mpr ⟨hanswers, htakes'⟩
    obtain ⟨g, hg⟩ := exists_select hcan
    obtain ⟨hfg, hgf⟩ := not_twins_of_needsLabels hf g
    rcases eq_or_twins hcan (canEncode_of_select hg) with rfl | htwins | htwins
    · exact ⟨hg, encode_eq_ok.mpr ⟨i, hi', hopcode⟩⟩
    · rw [hfg] at htwins
      cases htwins
    · rw [hgf] at htwins
      cases htwins

end Form

end Thumb
