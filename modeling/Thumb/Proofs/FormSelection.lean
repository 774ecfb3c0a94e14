import Thumb.Proofs.AluText

namespace Thumb

theorem Text.head?_trimStart {cs rest : List Char} {c : Char} (h : trim cs = c :: rest) :
    (trimStart cs).head? = some c := by
  obtain ⟨after, hafter⟩ := trim_prefix cs
  rw [← hafter, h]
  rfl

namespace Operand

inductive Kind
  | immediate
  | register
  /-- The stack pointer, possibly with an immediate offset. -/
  | stack
  /-- Another base register, possibly with an immediate offset. -/
  | offset
  /-- A base register with a register added. -/
  | index
  | label
deriving DecidableEq, Repr

def Address.kind (a : Address) : Kind :=
  if a.offset.isRegister then .index else if a.base = .sp then .stack else .offset

def kind (op : String) : Kind :=
  if isImmediate op then .immediate
  else if isRegister op then .register
  else ((address? op).map Address.kind).getD .label

variable {op : String}

theorem not_isImmediate_of_trim {c : Char} {rest : List Char} (hc : c ≠ '#')
    (h : Text.trim op.toList = c :: rest) : isImmediate op = false := by
  rw [isImmediate, Text.head?_trimStart h, beq_eq_false_iff_ne]
  exact fun heq => hc (Option.some.inj heq)

theorem kind_of_isImmediate (h : isImmediate op = true) : kind op = .immediate :=
  if_pos h

theorem kind_of_isRegister (h : isRegister op = true) : kind op = .register := by
  obtain ⟨r, hr⟩ := Option.isSome_iff_exists.mp h
  rw [kind, isImmediate_of_register hr, h]
  rfl

theorem trim_of_address? {a : Address} (h : address? op = some a) :
    ∃ rest, Text.trim op.toList = '[' :: rest := by
  obtain ⟨inner, hinner, _⟩ := Option.bind_eq_some_iff.mp h
  exact ⟨_, eq_of_between? hinner⟩

theorem kind_of_address? {a : Address} (h : address? op = some a) : kind op = a.kind := by
  obtain ⟨rest, htrim⟩ := trim_of_address? h
  have himm := not_isImmediate_of_trim (by decide) htrim
  have hreg : isRegister op = false := by
    rw [isRegister, Option.isSome_eq_false_iff, Option.isNone_iff_eq_none,
      Option.eq_none_iff_forall_ne_some]
    intro r hr
    have hmem : '[' ∈ op.toList := Text.trim_subset _ (htrim ▸ .head _)
    exact Reg.not_mem_of_ofChars? hr (by decide) hmem
  simp [kind, himm, hreg, h]

theorem kind_of_isLabel (h : isLabel op = true) : kind op = .label := by
  unfold isLabel at h
  split at h
  · cases h
  case h_2 c rest htrim =>
    simp only [Bool.and_eq_true, Bool.not_eq_true'] at h
    obtain ⟨⟨hstart, _⟩, hreg⟩ := h
    have hne {c' : Char} (hc' : isNameStart c' = false) : c ≠ c' := by
      rintro rfl
      rw [hstart] at hc'
      cases hc'
    have himm := not_isImmediate_of_trim (hne (by decide)) htrim
    have hnone : address? op = none := by
      rw [Option.eq_none_iff_forall_ne_some]
      intro a ha
      obtain ⟨rest', hbracket⟩ := trim_of_address? ha
      rw [htrim] at hbracket
      exact hne (by decide) (List.cons.inj hbracket).1
    simp [kind, himm, hreg, hnone]

end Operand

namespace Form

open Operand

/-- The last operand of a form that shares its mnemonic with another one. -/
def lastKind? : Form → Option Kind
  | .moveImm | .shiftImm _ | .immThree _ | .immEight _ | .adjustSp _ | .addSp | .compareImm =>
    some .immediate
  | .data .rsb => none
  | .moveReg | .regThree _ | .addHigh | .compareHigh | .data _ => some .register
  | .transferSp _ => some .stack
  | .transferImm .. => some .offset
  | .transferReg _ => some .index
  | .loadLiteral => some .label
  | _ => none

variable {f g : Form} {mnemonic : String} {operands : List String} {labels : Option Labels}

theorem last_of_transferTakes {p : Address → Bool} {k : Kind}
    (hp : ∀ a, p a = true → a.kind = k) (h : transferTakes p operands = true) :
    ∃ op, operands.getLast? = some op ∧ kind op = k := by
  unfold transferTakes at h
  split at h
  case h_1 t mem =>
    obtain ⟨_, hmem⟩ := Bool.and_eq_true_iff.mp h
    cases ha : address? mem with
    | none =>
      rw [ha] at hmem
      cases hmem
    | some a =>
      rw [ha, Option.any_some] at hmem
      exact ⟨mem, rfl, (kind_of_address? ha).trans (hp a hmem)⟩
  case h_2 => cases h

theorem last_of_dataShapeTakes {shape : DataShape} (hshape : shape ≠ .negate)
    (h : dataShapeTakes shape operands = true) :
    ∃ op, operands.getLast? = some op ∧ kind op = .register := by
  have hlow {op : String} (hop : isLowRegister op = true) : isRegister op = true := by
    cases hr : Reg.parse? op with
    | none =>
      rw [isLowRegister, hr] at hop
      cases hop
    | some r => rw [isRegister, hr, Option.isSome_some]
  unfold dataShapeTakes at h
  split at h <;> first | cases h | simp only [Bool.and_eq_true] at h
  case h_1 => exact ⟨_, rfl, kind_of_isRegister h.1⟩
  case h_5 => exact ⟨_, rfl, kind_of_isRegister (hlow h.2)⟩
  case h_6 => exact absurd rfl hshape
  all_goals exact ⟨_, rfl, kind_of_isRegister h.2⟩

theorem lastKind?_data {op : DataOp} {k : Kind} (h : (data op).lastKind? = some k) :
    op.shape ≠ .negate ∧ k = .register := by
  cases op <;> cases h <;> exact ⟨by decide, rfl⟩

theorem last_of_takes {k : Kind} (hk : f.lastKind? = some k) (h : f.takes operands = true) :
    ∃ op, operands.getLast? = some op ∧ kind op = k := by
  cases f
  case data op =>
    obtain ⟨hop, rfl⟩ := lastKind?_data hk
    exact last_of_dataShapeTakes hop h
  case transferSp | transferImm | transferReg =>
    cases hk
    refine last_of_transferTakes ?_ h
    simp +contextual [Address.kind]
  all_goals cases hk
  all_goals rcases operands with _ | ⟨a, _ | ⟨b, _ | ⟨c, _ | ⟨d, rest⟩⟩⟩⟩
  all_goals first | cases h | refine ⟨_, rfl, ?_⟩
  case loadLiteral => exact kind_of_isLabel (Bool.and_eq_true_iff.mp h).2
  case moveImm | compareImm => exact kind_of_isImmediate h
  case immThree =>
    exact kind_of_isImmediate (Bool.and_eq_true_iff.mp (Bool.and_eq_true_iff.mp h).1).2
  case compareHigh =>
    exact kind_of_isRegister (Bool.and_eq_true_iff.mp (Bool.and_eq_true_iff.mp h).1).2
  case moveReg | regThree | regThree | addHigh | addHigh =>
    exact kind_of_isRegister (Bool.and_eq_true_iff.mp h).2
  all_goals exact kind_of_isImmediate (Bool.and_eq_true_iff.mp h).2

/-- Pairs of forms with a mnemonic and the kind of the last operand in common. -/
def twins : Form → Form → Bool
  | .immThree op, .immEight op' => op = op'
  | .adjustSp .add, .addSp => true
  | .compareHigh, .data .cmp => true
  | _, _ => false

theorem lastKind?_ne_of_answersTo (hf : f.answersTo mnemonic = true)
    (hg : g.answersTo mnemonic = true) :
    f = g ∨ twins f g = true ∨ twins g f = true ∨
      f.lastKind?.isSome = true ∧ g.lastKind?.isSome = true ∧ f.lastKind? ≠ g.lastKind? := by
  have hall : ∀ f ∈ all, ∀ mnemonic ∈ f.name :: f.aliases, ∀ g ∈ all,
      g.answersTo mnemonic = true → f = g ∨ twins f g = true ∨ twins g f = true ∨
        f.lastKind?.isSome = true ∧ g.lastKind?.isSome = true ∧ f.lastKind? ≠ g.lastKind? := by
    decide +kernel
  have hmem : mnemonic ∈ f.name :: f.aliases := by
    simpa [answersTo] using hf
  exact hall f f.mem_all mnemonic hmem g g.mem_all hg

theorem eq_or_twins (hf : f.canEncode mnemonic operands = true)
    (hg : g.canEncode mnemonic operands = true) :
    f = g ∨ twins f g = true ∨ twins g f = true := by
  obtain ⟨hfm, hfo⟩ := Bool.and_eq_true_iff.mp hf
  obtain ⟨hgm, hgo⟩ := Bool.and_eq_true_iff.mp hg
  rcases lastKind?_ne_of_answersTo hfm hgm with h | h | h | ⟨hk, hk', hne⟩
  · exact .inl h
  · exact .inr (.inl h)
  · exact .inr (.inr h)
  · obtain ⟨k, hk⟩ := Option.isSome_iff_exists.mp hk
    obtain ⟨k', hk'⟩ := Option.isSome_iff_exists.mp hk'
    obtain ⟨op, hop, rfl⟩ := last_of_takes hk hfo
    obtain ⟨op', hop', rfl⟩ := last_of_takes hk' hgo
    rw [hop] at hop'
    cases hop'
    exact absurd (hk.trans hk'.symm) hne

theorem twins_cases (h : twins f g = true) :
    (∃ op, f = immThree op ∧ g = immEight op) ∨ f = adjustSp .add ∧ g = addSp ∨
      f = compareHigh ∧ g = data .cmp := by
  unfold twins at h
  split at h
  case h_1 op op' =>
    cases of_decide_eq_true h
    exact .inl ⟨op, rfl, rfl⟩
  case h_2 => exact .inr (.inl ⟨rfl, rfl⟩)
  case h_3 => exact .inr (.inr ⟨rfl, rfl⟩)
  case h_4 => cases h

theorem operation?_of_twins (h : twins f g = true) :
    ∃ op, f.operation? = some op ∧ g.operation? = some op := by
  rcases twins_cases h with ⟨op, rfl, rfl⟩ | ⟨rfl, rfl⟩ | ⟨rfl, rfl⟩ <;> exact ⟨_, rfl, rfl⟩

theorem not_takes_compareHigh (h : (data .cmp).takes operands = true) :
    compareHigh.takes operands = false := by
  match operands with
  | [] | [_] | _ :: _ :: _ :: _ => rfl
  | [n, m] =>
    have hlow : (isLowRegister n && isLowRegister m) = true := h
    simp [takes, hlow]

/-- The stack pointer is not a low register, so that only one form encodes an addition to it. -/
theorem parse_addSp_ne_ok {i : Instr} (h : (adjustSp .add).takes operands = true) :
    addSp.parse operands labels ≠ .ok i := by
  intro hi
  match operands with
  | [] | [_] | [_, _] | _ :: _ :: _ :: _ :: _ => cases hi
  | [s, t, imm] =>
    simp only [takes, isSp, Bool.and_eq_true, beq_iff_eq] at h
    obtain ⟨d, hd, _⟩ := bind_ok_iff.mp hi
    rw [lowRegister_eq_ok, h.1.1, Option.some_inj] at hd
    have hlow : ∀ d : Fin 8, Reg.sp ≠ .low d := by decide
    exact hlow d hd

/-- An immediate that is not wide is encoded by both forms or by neither. -/
theorem parse_immThree_iff {op : AddSub} (h : (immThree op).takes operands = true)
    (h' : (immEight op).takes operands = true) :
    (∃ i, (immThree op).parse operands labels = .ok i) ↔
      ∃ i, (immEight op).parse operands labels = .ok i := by
  match operands with
  | [] | [_] | [_, _] | _ :: _ :: _ :: _ :: _ => cases h
  | [d, n, imm] =>
    simp only [takes, Bool.and_eq_true, Bool.not_eq_true', Bool.and_eq_false_imp] at h h'
    obtain ⟨hsame, _⟩ := h'
    have hnarrow := h.2 hsame
    simp (disch := decide) only [parse, bind_ok_iff, lowRegister_eq_ok, unsignedImmediate_eq_ok,
      pure, Except.pure, Except.ok.injEq]
    constructor
    · rintro ⟨_, d', hd, _, _, u, ⟨hu, himm⟩, _⟩
      exact ⟨_, d', hd, u, ⟨by omega, himm⟩, rfl⟩
    · rintro ⟨_, d', hd, u, ⟨_, himm⟩, _⟩
      have hu : u < 2 ^ 3 := by
        rw [isWide, himm, decide_eq_false_iff_not] at hnarrow
        omega
      exact ⟨_, d', hd, d', parse?_of_sameRegister hsame hd, u, ⟨hu, himm⟩, rfl⟩

/-- No form is selected in place of one that stands before it in the catalogue. -/
theorem select_ne_of_before (hbefore : g ∈ all.takeWhile (· ≠ f))
    (h : g.canEncode (String.ofList (Text.upper mnemonic.toList)) operands = true) :
    select mnemonic operands ≠ .ok f := by
  intro hselect
  unfold select at hselect
  dsimp only at hselect
  generalize String.ofList (Text.upper mnemonic.toList) = name at h hselect
  split at hselect
  case h_2 => cases hselect
  case h_1 found hfind =>
    cases hselect
    rw [← List.takeWhile_append_dropWhile (p := (· ≠ f)) (l := all), List.find?_append] at hfind
    cases hfirst : (all.takeWhile (· ≠ f)).find? (·.canEncode name operands) with
    | none => exact absurd h (List.find?_eq_none.mp hfirst g hbefore)
    | some first =>
      rw [hfirst, Option.some_or] at hfind
      cases hfind
      have hne := List.mem_takeWhile_imp (List.mem_of_find?_eq_some hfirst)
      simp at hne

/-- If a form encodes a text, then so does the form that is selected. -/
theorem parse_of_select {i : Instr} (hselect : select mnemonic operands = .ok f)
    (hg : g.canEncode (String.ofList (Text.upper mnemonic.toList)) operands = true)
    (h : g.parse operands labels = .ok i) : ∃ i', f.parse operands labels = .ok i' := by
  have hf := canEncode_of_select hselect
  obtain ⟨_, hfo⟩ := Bool.and_eq_true_iff.mp hf
  obtain ⟨_, hgo⟩ := Bool.and_eq_true_iff.mp hg
  rcases eq_or_twins hf hg with rfl | htwins | htwins
  · exact ⟨i, h⟩
  · rcases twins_cases htwins with ⟨op, rfl, rfl⟩ | ⟨rfl, rfl⟩ | ⟨rfl, rfl⟩
    · exact (parse_immThree_iff hfo hgo).mpr ⟨i, h⟩
    · exact absurd h (parse_addSp_ne_ok hfo)
    · rw [not_takes_compareHigh hgo] at hfo
      cases hfo
  · rcases twins_cases htwins with ⟨op, rfl, rfl⟩ | ⟨rfl, rfl⟩ | ⟨rfl, rfl⟩
    · exact (parse_immThree_iff hgo hfo).mp ⟨i, h⟩
    · exact absurd hselect (select_ne_of_before (by decide) hg)
    · rw [not_takes_compareHigh hfo] at hgo
      cases hgo

theorem exists_select
    (hg : g.canEncode (String.ofList (Text.upper mnemonic.toList)) operands = true) :
    ∃ f, select mnemonic operands = .ok f := by
  unfold select
  dsimp only
  split
  case h_1 f _ => exact ⟨f, rfl⟩
  case h_2 hnone => exact absurd hg (List.find?_eq_none.mp hnone g g.mem_all)

theorem exec_eq_of_canEncode {i j : Instr} (hf : f.canEncode mnemonic operands = true)
    (hg : g.canEncode mnemonic operands = true) (hi : f.parse operands labels = .ok i)
    (hj : g.parse operands labels = .ok j) {μ : Type} [Bus μ] :
    (i.exec : Exec μ Unit) = j.exec := by
  obtain ⟨_, hfo⟩ := Bool.and_eq_true_iff.mp hf
  obtain ⟨_, hgo⟩ := Bool.and_eq_true_iff.mp hg
  have hops : f = g ∨ ∃ op, f.operation? = some op ∧ g.operation? = some op := by
    rcases eq_or_twins hf hg with h | h | h
    · exact .inl h
    · exact .inr (operation?_of_twins h)
    · obtain ⟨op, hop, hop'⟩ := operation?_of_twins h
      exact .inr ⟨op, hop', hop⟩
  rcases hops with rfl | ⟨op, hop, hop'⟩
  · cases hi.symm.trans hj
    rfl
  · obtain ⟨d, a, x, hreading, hdoes⟩ := means_of_parse hop hfo hi
    obtain ⟨d', a', x', hreading', hdoes'⟩ := means_of_parse hop' hgo hj
    cases hreading.symm.trans hreading'
    rw [hdoes.exec, hdoes'.exec]

theorem exec_of_parse {i : Instr} (h : f.parse operands labels = .ok i) {μ : Type} [Bus μ] :
    f.exec i.encode = (i.exec : Exec μ Unit) := by
  cases form_of_parse h
  rw [exec, i.decode_encode]

end Form

/-- For every mnemonic in upper case: a text is encoded exactly when one of the forms that can mean
it encodes it, and the opcodes that such forms give it all do the same when executed. -/
theorem form_selection (mnemonic : String) (operands : List String) (labels : Option Labels)
    (hupper : String.ofList (Text.upper mnemonic.toList) = mnemonic) :
    ((∃ opcode, encodeInstruction mnemonic operands labels = .ok opcode) ↔
      ∃ f ∈ Form.all, f.canEncode mnemonic operands = true ∧
        ∃ opcode, f.encode operands labels = .ok opcode) ∧
    ∀ f ∈ Form.all, ∀ g ∈ Form.all,
      f.canEncode mnemonic operands = true → g.canEncode mnemonic operands = true →
      ∀ opcode opcode', f.encode operands labels = .ok opcode →
        g.encode operands labels = .ok opcode' →
        ∀ {μ : Type} [Bus μ] (m : Machine μ), f.exec opcode m = g.exec opcode' m := by
  refine ⟨⟨?_, ?_⟩, ?_⟩
  · rintro ⟨opcode, h⟩
    obtain ⟨f, hselect, hencode⟩ := encodeInstruction_eq_ok.mp h
    have hcan := Form.canEncode_of_select hselect
    rw [hupper] at hcan
    exact ⟨f, f.mem_all, hcan, opcode, Form.encode_eq_ok.mpr hencode⟩
  · rintro ⟨g, _, hcan, opcode, hencode⟩
    obtain ⟨i, hi, _⟩ := Form.encode_eq_ok.mp hencode
    rw [← hupper] at hcan
    obtain ⟨f, hselect⟩ := Form.exists_select hcan
    obtain ⟨i', hi'⟩ := Form.parse_of_select hselect hcan hi
    exact ⟨_, encodeInstruction_eq_ok.mpr ⟨f, hselect, i', hi', rfl⟩⟩
  · intro f _ g _ hf hg opcode opcode' hopcode hopcode' μ _ m
    obtain ⟨i, hi, rfl⟩ := Form.encode_eq_ok.mp hopcode
    obtain ⟨j, hj, rfl⟩ := Form.encode_eq_ok.mp hopcode'
    rw [Form.exec_of_parse hi, Form.exec_of_parse hj, Form.exec_eq_of_canEncode hf hg hi hj]

/-- An addition that has two forms, and the opcode of each. -/
theorem form_selection_adds :
    let operands := ["R3", "r3", "#5"]
    (∃ opcode, encodeInstruction "ADDS" operands none = .ok opcode) ∧
      ∀ m : Machine Memory,
        (Form.immThree .add).exec [0x1D5B] m = (Form.immEight .add).exec [0x3305] m := by
  intro operands
  obtain ⟨hiff, hsame⟩ := form_selection "ADDS" operands none (by decide +kernel)
  have hthree : (Form.immThree .add).encode operands none = .ok [0x1D5B] := by decide +kernel
  have height : (Form.immEight .add).encode operands none = .ok [0x3305] := by decide +kernel
  have hcan : (Form.immThree .add).canEncode "ADDS" operands = true := by decide +kernel
  have hcan' : (Form.immEight .add).canEncode "ADDS" operands = true := by decide +kernel
  exact ⟨hiff.mpr ⟨_, Form.mem_all _, hcan, _, hthree⟩,
    hsame _ (Form.mem_all _) _ (Form.mem_all _) hcan hcan' _ _ hthree height⟩

end Thumb
