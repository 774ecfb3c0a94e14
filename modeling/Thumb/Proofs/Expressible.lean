import Thumb.Proofs.FormSelection
import Thumb.Proofs.Interruption
import Thumb.Proofs.LabelReach
import Thumb.Proofs.Table
import Thumb.Proofs.TransferText
import Thumb.Proofs.WrittenOperand

namespace Thumb

open Operand

namespace Form

theorem mem_listed {mask : BitVec 8} {i : Fin 8} :
    Reg.low i ∈ listed mask ↔ mask.getLsb i = true := by
  have hinj : Function.Injective Reg.low := by
    intro a b h
    exact Fin.castLE_injective _ (Reg.mk.inj h)
  rw [listed, List.mem_map_of_injective hinj]
  simp

theorem getLsb_listMask (rs : List Reg) (i : Fin 8) :
    (listMask rs).getLsb i = true ↔ Reg.low i ∈ rs := by
  have hget : (listMask rs).getLsb i =
      ((List.finRange 8).map fun i => rs.contains (.low i)).getD i false :=
    BitVec.getLsbD_ofBoolListLE
  rw [hget]
  simp

theorem listMask_eq {rs : List Reg} {mask : BitVec 8}
    (h : ∀ i : Fin 8, Reg.low i ∈ rs ↔ mask.getLsb i = true) : listMask rs = mask := by
  apply BitVec.eq_of_getLsbD_eq
  intro i hi
  rw [Bool.eq_iff_iff]
  exact (getLsb_listMask rs ⟨i, hi⟩).trans (h ⟨i, hi⟩)

theorem lowList_listText {rs : List Reg} {extra : Option Reg} (hne : rs ≠ []) (hnodup : rs.Nodup)
    (hlow : ∀ r ∈ rs, r.isLow = true ∨ some r = extra) :
    lowList (listText rs) extra = .ok rs := by
  have hnone : (rs.find? fun r => !r.isLow && some r != extra) = none := by
    rw [List.find?_eq_none]
    intro r hr
    rcases hlow r hr with h | h
    · simp [h]
    · simp [h]
  rw [lowList, registerList_listText hne hnodup]
  simp only [bind, Except.bind, hnone]
  rfl

/-- The amount of a shift as it is written: the field of a right shift by 32 is zero. -/
def writtenAmount (op : Shift) (amount : BitVec 5) : Nat :=
  if amount = 0 ∧ op ≠ .lsl then 32 else amount.toNat

theorem shiftAmount_writtenAmount (op : Shift) (amount : BitVec 5) :
    shiftAmount op (numberText (writtenAmount op amount)) = .ok amount := by
  revert amount
  cases op <;> decide

def baseText (n : Fin 8) (marked : Bool) : String :=
  (Reg.low n).name ++ if marked then "!" else ""

theorem baseText_reads (n : Fin 8) (marked : Bool) :
    String.ofList (dropMarks (Text.trimEnd (baseText n marked).toList)) = (Reg.low n).name ∧
      String.ofList (dropMarks (Text.trim (baseText n marked).toList)) = (Reg.low n).name ∧
      ((Text.trim (baseText n marked).toList).getLast? == some '!') = marked := by
  revert n marked
  decide

end Form

/-- One label, at a distance from four bytes behind an instruction. -/
def Labels.ahead (distance : Int) : Labels where
  site := 0x40000000
  targets := .ofList [("target", BitVec.ofInt 32 (0x40000004 + distance))]

namespace Labels

variable {distance : Int}

theorem site_ahead : (ahead distance).site = 0x40000000 :=
  rfl

theorem get?_ahead : (ahead distance).targets.get? (Text.trimmed "target") =
    some (BitVec.ofInt 32 (0x40000004 + distance)) := by
  rw [ahead, Table.get?_ofList (List.pairwise_singleton _ _)]
  exact .head _

theorem toNat_ahead (hmin : -0x40000000 ≤ distance) (hmax : distance ≤ 0x40000000) :
    ((BitVec.ofInt 32 (0x40000004 + distance)).toNat : Int) = 0x40000004 + distance := by
  rw [BitVec.toNat_ofInt]
  omega

theorem signedLabelField_ahead {k : Nat} (hk : k ≤ 28) (halfwords : BitVec (k + 1)) :
    ∃ field, signedLabelField "target" (some (ahead (2 * halfwords.toInt))) (k + 1) 2 = .ok field ∧
      BitVec.ofNat (k + 1) field = halfwords := by
  have hmin : -2 ^ k ≤ halfwords.toInt := halfwords.le_toInt
  have hmax : halfwords.toInt < 2 ^ k := BitVec.toInt_lt
  have hpow : (2 : Int) ^ k ≤ 2 ^ 28 := pow_le_pow_right₀ (by decide) hk
  have hdistance : (ahead (2 * halfwords.toInt)).distance
      (BitVec.ofInt 32 (0x40000004 + 2 * halfwords.toInt)) = 2 * halfwords.toInt := by
    rw [Labels.distance, toNat_ahead (by omega) (by omega), site_ahead]
    simp only [BitVec.reduceToNat]
    omega
  refine ⟨_, (signedLabelField_eq_ok rfl rfl get?_ahead).mpr ⟨?_, rfl⟩, ?_⟩
  · rw [Spans, hdistance]
    omega
  · rw [hdistance, Int.mul_ediv_cancel_left _ (by decide), ofNat_emod, BitVec.ofInt_toInt]

theorem alignedLabelField_ahead (words : BitVec 8) :
    alignedLabelField "target" (some (ahead (4 * words.toNat))) 8 = .ok words.toNat := by
  have hlt := words.isLt
  have htarget : ((BitVec.ofInt 32 (0x40000004 + 4 * (words.toNat : Int))).toNat : Int) =
      0x40000004 + 4 * words.toNat := toNat_ahead (by omega) (by omega)
  have hsite : (0x40000000 : Word).toNat = 0x40000000 := by decide
  have hdistance : (ahead (4 * words.toNat)).literalDistance
      (BitVec.ofInt 32 (0x40000004 + 4 * (words.toNat : Int))) = 4 * words.toNat := by
    rw [literalDistance, htarget, site_ahead, hsite]
    omega
  rw [alignedLabelField_eq_ok (by rw [site_ahead, hsite]; decide) get?_ahead, hdistance]
  omega

end Labels

namespace Instr

/-- The instructions that no text stands for. -/
def unwritable (i : Instr) : Bool :=
  match i with
  | .push .. | .pop .. | .storeMultiple .. | .loadMultiple .. => i.transferred.isEmpty
  | .compareHigh m n => m.isLow && n.isLow
  | _ => false

def operands (i : Instr) : List String :=
  let low (n : Fin 8) : String := (Reg.low n).name
  match i with
  | .moveReg m d | .unary _ m d => [low d, low m]
  | .moveImm d imm | .immEight _ d imm | .compareImm d imm => [low d, numberText imm.toNat]
  | .moveHigh m d | .addHigh m d | .compareHigh m d => [d.name, m.name]
  | .nop => []
  | .shiftImm op amount m d => [low d, low m, numberText (Form.writtenAmount op amount)]
  | .immThree _ imm n d => [low d, low n, numberText imm.toNat]
  | .regThree _ m n d => [low d, low n, low m]
  | .adjustSp _ words => [Reg.sp.name, numberText (4 * words.toNat)]
  | .addSp d words => [low d, Reg.sp.name, numberText (4 * words.toNat)]
  | .adr d _ | .loadLiteral d _ => [low d, "target"]
  | .data op m d => if op = .rsb then [low d, low m, "#0"] else [low d, low m]
  | .transferSp _ t words => [low t, memoryText .sp (numberText (4 * words.toNat))]
  | .transferImm _ width units n t =>
    [low t, memoryText (.low n) (numberText (width.bytes * units.toNat))]
  | .transferReg _ m n t => [low t, memoryText (.low n) (low m)]
  | .push .. | .pop .. => [listText i.transferred]
  | .storeMultiple n _ => [Form.baseText n true, listText i.transferred]
  | .loadMultiple n list => [Form.baseText n (!list.getLsb n), listText i.transferred]
  | .branch _ | .branchLink _ | .branchIf .. => ["target"]
  | .exchange _ m => [m.name]

def labels : Instr → Labels
  | .adr _ words | .loadLiteral _ words => .ahead (4 * words.toNat)
  | .branch halfwords => .ahead (2 * halfwords.toInt)
  | .branchLink halfwords => .ahead (2 * halfwords.toInt)
  | .branchIf _ halfwords => .ahead (2 * halfwords.toInt)
  | _ => .ahead 0

theorem value?_numberText {n : Nat} (hn : n < 2 ^ 63) :
    value? (numberText n) = some (.immediate n) :=
  value?_eq_immediate.mpr (immediate_numberText hn)

theorem transferTakes_memoryText (n t : Reg) {offset : String} {x : Value}
    (hvalue : value? offset = some x) (hcomma : ',' ∉ offset.toList) :
    ∃ o : Offset, o.Adds x ∧
      ∀ p, Form.transferTakes p [t.name, memoryText n offset] = p ⟨n, o⟩ := by
  obtain ⟨o, haddress, hadds⟩ :=
    (memoryText_reads n hvalue).address? (count_memoryText n hcomma)
  refine ⟨o, hadds, ?_⟩
  intro p
  simp [Form.transferTakes, isRegister_name, haddress]

theorem takes_transfer_immediate (n t : Reg) {u : Nat} (hu : u < 2 ^ 63)
    {p : Address → Bool} (hp : ∀ o : Offset, o.isRegister = false → p ⟨n, o⟩ = true) :
    Form.transferTakes p [t.name, memoryText n (numberText u)] = true := by
  obtain ⟨o, hadds, htakes⟩ :=
    transferTakes_memoryText n t (value?_numberText hu) (not_mem_numberText u)
  have ho : o.isRegister = false := by
    cases hadds <;> rfl
  rw [htakes, hp o ho]

theorem units_lt (width : Width) (units : BitVec 5) : width.bytes * units.toNat < 2 ^ 63 := by
  have hlt := units.isLt
  have hbytes : width.bytes ≤ 4 := by cases width <;> decide
  calc width.bytes * units.toNat ≤ 4 * units.toNat := Nat.mul_le_mul_right _ hbytes
    _ < 2 ^ 63 := by omega

theorem low_ne_sp (n : Fin 8) : Reg.low n ≠ .sp := by
  revert n
  decide

theorem takes_operands (i : Instr) (h : i.unwritable = false) :
    i.form.takes i.operands = true := by
  have hlow (n : Fin 8) : (Reg.low n).isLow = true := decide_eq_true n.isLt
  cases i with
  | shiftImm op amount m d =>
    simp [form, operands, Form.takes, isRegister_name, isImmediate_numberText]
  | immThree op imm n d =>
    have hwide : Form.isWide (numberText imm.toNat) = false := by
      have hlt := imm.isLt
      rw [Form.isWide, immediate_numberText (by omega)]
      simp
      omega
    simp [form, operands, Form.takes, isRegister_name, isImmediate_numberText, hwide]
  | adjustSp op words =>
    simp [form, operands, Form.takes, Form.isSp, Reg.parse?_name, isImmediate_numberText]
  | addSp d words =>
    simp [form, operands, Form.takes, Form.isSp, Reg.parse?_name, isRegister_name,
      isImmediate_numberText]
  | adr d words | loadLiteral d words =>
    have hlabel : isLabel "target" = true := by decide
    simp [form, operands, Form.takes, isRegister_name, hlabel]
  | branch | branchLink | branchIf =>
    show isLabel "target" = true
    decide
  | compareHigh m n =>
    have hnot : (n.isLow && m.isLow) = false := by
      rw [Bool.and_comm]
      exact h
    rw [form, operands, Form.takes, isRegister_name, isRegister_name, isLowRegister_name,
      isLowRegister_name, hnot]
    rfl
  | data op m d =>
    have hzero : isImmediate "#0" = true := by decide
    cases op <;>
      simp [form, operands, Form.takes, Form.dataShapeTakes, DataOp.shape, isRegister_name,
        isLowRegister_name, hlow, hzero]
  | transferSp load t words =>
    have hlt := words.isLt
    apply takes_transfer_immediate _ _ (by omega)
    simp
  | transferImm load width units n t =>
    apply takes_transfer_immediate _ _ (units_lt width units)
    simp [low_ne_sp]
  | transferReg op m n t =>
    obtain ⟨o, hadds, htakes⟩ := transferTakes_memoryText (.low n) (.low t)
      (value?_eq_register.mpr (Reg.low m).parse?_name)
      (Reg.not_mem_of_ofChars? (Reg.low m).parse?_name (by decide))
    cases hadds
    exact htakes _
  | push | pop => exact isRegisterList_listText _
  | storeMultiple n list =>
    simp [form, operands, Form.takes, (Form.baseText_reads n _).1, isRegister_name,
      isRegisterList_listText]
  | loadMultiple n list =>
    simp [form, operands, Form.takes, (Form.baseText_reads n _).1, isRegister_name,
      isRegisterList_listText]
  | _ => simp [form, operands, Form.takes, isRegister_name, isImmediate_numberText]

theorem upper_name (f : Form) : String.ofList (Text.upper f.name.toList) = f.name := by
  have hall : ∀ f ∈ Form.all, String.ofList (Text.upper f.name.toList) = f.name := by
    decide
  exact hall f f.mem_all

theorem select_operands (i : Instr) (h : i.unwritable = false) :
    Form.select i.form.name i.operands = .ok i.form := by
  have hcan : i.form.canEncode (String.ofList (Text.upper i.form.name.toList)) i.operands =
      true := by
    rw [upper_name, Form.canEncode, i.takes_operands h, Form.answersTo, beq_self_eq_true]
    rfl
  obtain ⟨f, hselect⟩ := Form.exists_select hcan
  have hf := Form.canEncode_of_select hselect
  obtain ⟨_, htakes⟩ := Bool.and_eq_true_iff.mp hf
  rcases Form.eq_or_twins hf hcan with heq | htwins | htwins
  · rw [hselect, heq]
  · rcases Form.twins_cases htwins with ⟨op, rfl, hi⟩ | ⟨rfl, hi⟩ | ⟨rfl, hi⟩
    · obtain ⟨d, imm, rfl⟩ : ∃ d imm, i = immEight op d imm := by
        cases i <;> cases hi
        exact ⟨_, _, rfl⟩
      cases htakes
    · obtain ⟨d, words, rfl⟩ : ∃ d words, i = addSp d words := by
        cases i <;> cases hi
        exact ⟨_, _, rfl⟩
      simp [operands, Form.takes, Form.isSp, Reg.parse?_name, low_ne_sp] at htakes
    · have hlow := i.takes_operands h
      rw [hi] at hlow
      rw [Form.not_takes_compareHigh hlow] at htakes
      cases htakes
  · rcases Form.twins_cases htwins with ⟨op, hi, rfl⟩ | ⟨hi, rfl⟩ | ⟨hi, rfl⟩
    · refine absurd hselect (Form.select_ne_of_before ?_ hcan)
      rw [hi]
      cases op <;> decide
    · refine absurd hselect (Form.select_ne_of_before ?_ hcan)
      rw [hi]
      decide
    · have hhigh := i.takes_operands h
      rw [hi, Form.not_takes_compareHigh htakes] at hhigh
      cases hhigh

/-- A list of low registers and of possibly one other is read as it is written. -/
theorem lowList_written {mask : BitVec 8} {flag : Bool} {extra : Reg}
    (hextra : extra.isLow = false) {rs : List Reg}
    (hrs : rs = listed mask ++ if flag then [extra] else []) (hne : rs ≠ []) (hnodup : rs.Nodup) :
    Form.lowList (listText rs) (some extra) = .ok rs ∧ rs.contains extra = flag ∧
      Form.listMask rs = mask := by
  have hlow {r : Reg} (hr : r ∈ listed mask) : r ≠ extra := by
    rintro rfl
    rw [isLow_of_mem_listed hr] at hextra
    cases hextra
  have hmem {r : Reg} : r ∈ rs ↔ r ∈ listed mask ∨ flag = true ∧ r = extra := by
    rw [hrs]
    cases flag <;> simp
  refine ⟨Form.lowList_listText hne hnodup ?_, ?_, Form.listMask_eq ?_⟩
  · intro r hr
    rcases hmem.mp hr with hr | ⟨_, rfl⟩
    · exact .inl (isLow_of_mem_listed hr)
    · exact .inr rfl
  · rw [Bool.eq_iff_iff, List.contains_iff_mem, hmem]
    constructor
    · rintro (hr | ⟨hflag, _⟩)
      · exact absurd rfl (hlow hr)
      · exact hflag
    · exact fun hflag => .inr ⟨hflag, rfl⟩
  · intro n
    rw [hmem, Form.mem_listed]
    constructor
    · rintro (hn | ⟨_, rfl⟩)
      · exact hn
      · cases hextra.symm.trans (decide_eq_true n.isLt)
    · exact .inl

theorem multipleOperands_written (load : Bool) (n : Fin 8) {mask : BitVec 8}
    (hne : listed mask ≠ []) (hnodup : (listed mask).Nodup) :
    Form.multipleOperands load (Form.baseText n (!load || !mask.getLsb n))
      (listText (listed mask)) = .ok (n, mask) := by
  obtain ⟨_, hname, hmark⟩ := Form.baseText_reads n (!load || !mask.getLsb n)
  have hlist : Form.lowList (listText (listed mask)) none = .ok (listed mask) :=
    Form.lowList_listText hne hnodup fun r hr => .inl (isLow_of_mem_listed hr)
  have hmask : Form.listMask (listed mask) = mask := Form.listMask_eq fun _ => Form.mem_listed
  simp only [Form.multipleOperands, hname, lowRegister_name, hlist, hmark, hmask, bind,
    Except.bind, ne_eq, not_true_eq_false, if_false]
  rfl

theorem scaledImmediate_words {bits : Nat} (hbits : bits ≤ 16) (words : BitVec bits) :
    scaledImmediate (numberText (4 * words.toNat)) bits 4 = .ok words.toNat :=
  scaledImmediate_numberText hbits (by decide) (by decide) words.isLt

theorem parse_operands (i : Instr) (h : i.unwritable = false) :
    i.form.parse i.operands (some i.labels) = .ok i := by
  cases i with
  | moveReg m d | unary op m d | regThree op m n d =>
    simp only [form, operands, Form.parse, lowRegister_name]
    rfl
  | moveImm d imm | compareImm d imm | immEight op d imm =>
    simp only [form, operands, Form.parse, lowRegister_name,
      unsignedImmediate_numberText (by decide) imm.isLt, bind, Except.bind, BitVec.ofNat_toNat,
      BitVec.setWidth_eq]
    rfl
  | moveHigh m d | addHigh m d | compareHigh m d | exchange link m =>
    simp only [form, operands, Form.parse, register_name]
    rfl
  | nop => rfl
  | shiftImm op amount m d =>
    simp only [form, operands, Form.parse, lowRegister_name, Form.shiftAmount_writtenAmount]
    rfl
  | immThree op imm n d =>
    simp only [form, operands, Form.parse, lowRegister_name,
      unsignedImmediate_numberText (by decide) imm.isLt, bind, Except.bind, BitVec.ofNat_toNat,
      BitVec.setWidth_eq]
    rfl
  | adjustSp op words =>
    have hsp : exactRegister Reg.sp.name .sp = .ok () := exactRegister_eq_ok.mpr Reg.sp.parse?_name
    simp only [form, operands, Form.parse, hsp,
      scaledImmediate_words (by decide) words, bind, Except.bind, BitVec.ofNat_toNat,
      BitVec.setWidth_eq]
    rfl
  | addSp d words =>
    have hsp : exactRegister Reg.sp.name .sp = .ok () := exactRegister_eq_ok.mpr Reg.sp.parse?_name
    simp only [form, operands, Form.parse, lowRegister_name, hsp,
      scaledImmediate_words (by decide) words, bind, Except.bind, BitVec.ofNat_toNat,
      BitVec.setWidth_eq]
    rfl
  | adr d words | loadLiteral d words =>
    simp only [form, operands, labels, Form.parse, lowRegister_name,
      Labels.alignedLabelField_ahead, bind, Except.bind, BitVec.ofNat_toNat, BitVec.setWidth_eq]
    rfl
  | data op m d =>
    have hregisters : (Form.data op).dataRegisters op (operands (.data op m d)) = .ok (d, m) := by
      have hzero : immediate "#0" = .ok 0 := by decide
      cases op <;>
        simp only [operands, reduceCtorEq, if_false, if_true, Form.dataRegisters, DataOp.shape,
          lowRegister_name, hzero] <;> rfl
    simp only [form, Form.parse, hregisters]
    rfl
  | transferSp load t words =>
    have hlt := words.isLt
    refine (Form.parse_transferSp (memoryText_reads _ (value?_numberText (by omega)))
      (count_memoryText _ (not_mem_numberText _))).mpr ?_
    exact ⟨t, words.toNat, Reg.parse?_name _, hlt, Nat.cast_mul _ _, by simp⟩
  | transferImm load width units n t =>
    refine (Form.parse_transferImm (memoryText_reads _ (value?_numberText (units_lt width units)))
      (count_memoryText _ (not_mem_numberText _))).mpr ?_
    exact ⟨t, n, units.toNat, Reg.parse?_name _, rfl, units.isLt, Nat.cast_mul _ _, by simp⟩
  | transferReg op m n t =>
    have hm := (Reg.low m).parse?_name
    refine (Form.parse_transferReg (memoryText_reads _ (value?_eq_register.mpr hm))
      (count_memoryText _ (Reg.not_mem_of_ofChars? hm (by decide)))).mpr ?_
    exact ⟨t, m, n, Reg.parse?_name _, rfl, rfl, rfl⟩
  | push withLr list =>
    have hrs : (push withLr list).transferred = listed list ++ if withLr then [.lr] else [] := rfl
    obtain ⟨hlist, hlr, hmask⟩ := lowList_written rfl hrs (List.isEmpty_eq_false_iff.mp h)
      (nodup_transferred _)
    simp only [form, operands, Form.parse, hlist, bind, Except.bind, hmask, hlr]
    rfl
  | pop toPc list =>
    have hrs : (pop toPc list).transferred = listed list ++ if toPc then [.pc] else [] := rfl
    obtain ⟨hlist, hpc, hmask⟩ := lowList_written rfl hrs (List.isEmpty_eq_false_iff.mp h)
      (nodup_transferred _)
    simp only [form, operands, Form.parse, hlist, bind, Except.bind, hmask, hpc]
    rfl
  | storeMultiple n list =>
    have hparts := multipleOperands_written false n (List.isEmpty_eq_false_iff.mp h)
      (storeMultiple n list).nodup_transferred
    exact bind_ok_iff.mpr ⟨_, hparts, rfl⟩
  | loadMultiple n list =>
    have hparts := multipleOperands_written true n (List.isEmpty_eq_false_iff.mp h)
      (loadMultiple n list).nodup_transferred
    exact bind_ok_iff.mpr ⟨_, hparts, rfl⟩
  | branch halfwords | branchLink halfwords | branchIf _ halfwords =>
    obtain ⟨field, hfield, hhalfwords⟩ := Labels.signedLabelField_ahead (by decide) halfwords
    exact bind_ok_iff.mpr ⟨field, hfield, by rw [hhalfwords]; rfl⟩

end Instr

namespace Form

variable {f : Form} {operands : List String} {labels : Option Labels} {i : Instr}

theorem lowList_cases {op : String} {extra : Option Reg} {rs : List Reg}
    (h : lowList op extra = .ok rs) :
    (∃ n, Reg.low n ∈ rs) ∨ ∃ r ∈ rs, some r = extra := by
  obtain ⟨rs', hrs, h⟩ := bind_ok_iff.mp h
  split at h
  case h_1 => cases h
  case h_2 hnone =>
    cases h
    obtain ⟨r, hr⟩ := List.exists_mem_of_ne_nil _ (registerList_ne_nil hrs)
    have hallowed := List.find?_eq_none.mp hnone r hr
    simp only [Bool.and_eq_true, Bool.not_eq_true', bne_iff_ne, ne_eq, not_and, not_not] at hallowed
    cases hlow : r.isLow with
    | true => exact .inl ⟨_, Reg.low_lowOfNat hlow ▸ hr⟩
    | false => exact .inr ⟨r, hr, hallowed hlow⟩

theorem listed_listMask_ne_nil {rs : List Reg} {n : Fin 8} (h : Reg.low n ∈ rs) :
    listed (listMask rs) ≠ [] :=
  List.ne_nil_of_mem (mem_listed.mpr ((getLsb_listMask rs n).mpr h))

theorem writable_of_lowList {op : String} {extra : Reg} {rs : List Reg}
    (h : lowList op (some extra) = .ok rs) :
    (listed (listMask rs) ++ if rs.contains extra then [extra] else []) ≠ [] := by
  rcases lowList_cases h with ⟨n, hn⟩ | ⟨r, hr, heq⟩
  · exact List.append_ne_nil_of_left_ne_nil (listed_listMask_ne_nil hn) _
  · cases heq
    rw [if_pos (List.contains_iff_mem.mpr hr)]
    exact List.append_ne_nil_of_right_ne_nil _ (List.cons_ne_nil _ _)

theorem writable_of_multipleOperands {load : Bool} {base list : String} {n : Fin 8}
    {mask : BitVec 8} (h : multipleOperands load base list = .ok (n, mask)) :
    listed mask ≠ [] := by
  simp only [multipleOperands, bind_ok_iff] at h
  obtain ⟨_, _, rs, hrs, h⟩ := h
  split at h
  case isTrue => cases h
  case isFalse =>
    cases h
    rcases lowList_cases hrs with ⟨n, hn⟩ | ⟨r, _, heq⟩
    · exact listed_listMask_ne_nil hn
    · cases heq

theorem stack_of_parse (hf : f = push ∨ f = pop) (h : f.parse operands labels = .ok i) :
    ∃ op rs, operands = [op] ∧
      (f = push ∧ lowList op (some .lr) = .ok rs ∧ i = .push (rs.contains .lr) (listMask rs) ∨
        f = pop ∧ lowList op (some .pc) = .ok rs ∧ i = .pop (rs.contains .pc) (listMask rs)) := by
  have hone : ∃ op, operands = [op] := by
    rcases operands with _ | ⟨op, _ | ⟨_, _⟩⟩
    · rcases hf with rfl | rfl <;> cases h
    · exact ⟨op, rfl⟩
    · rcases hf with rfl | rfl <;> cases h
  obtain ⟨op, rfl⟩ := hone
  rcases hf with rfl | rfl
  all_goals
    obtain ⟨rs, hrs, h⟩ := bind_ok_iff.mp h
    cases h
  · exact ⟨op, rs, rfl, .inl ⟨rfl, hrs, rfl⟩⟩
  · exact ⟨op, rs, rfl, .inr ⟨rfl, hrs, rfl⟩⟩

theorem multiple_of_parse (hf : f = storeMultiple ∨ f = loadMultiple)
    (h : f.parse operands labels = .ok i) :
    ∃ base list n mask, operands = [base, list] ∧
      (f = storeMultiple ∧ multipleOperands false base list = .ok (n, mask) ∧
          i = .storeMultiple n mask ∨
        f = loadMultiple ∧ multipleOperands true base list = .ok (n, mask) ∧
          i = .loadMultiple n mask) := by
  have htwo : ∃ base list, operands = [base, list] := by
    rcases operands with _ | ⟨base, _ | ⟨list, _ | ⟨_, _⟩⟩⟩
    · rcases hf with rfl | rfl <;> cases h
    · rcases hf with rfl | rfl <;> cases h
    · exact ⟨base, list, rfl⟩
    · rcases hf with rfl | rfl <;> cases h
  obtain ⟨base, list, rfl⟩ := htwo
  rcases hf with rfl | rfl
  all_goals
    simp only [parse, bind_ok_iff] at h
    obtain ⟨⟨n, mask⟩, hread, h⟩ := h
    cases h
  · exact ⟨base, list, n, mask, rfl, .inl ⟨rfl, hread, rfl⟩⟩
  · exact ⟨base, list, n, mask, rfl, .inr ⟨rfl, hread, rfl⟩⟩

theorem writable_stack (hf : f = push ∨ f = pop) (h : f.parse operands labels = .ok i) :
    i.unwritable = false := by
  obtain ⟨op, rs, _, ⟨_, hrs, rfl⟩ | ⟨_, hrs, rfl⟩⟩ := stack_of_parse hf h
  · exact List.isEmpty_eq_false_iff.mpr (writable_of_lowList hrs)
  · exact List.isEmpty_eq_false_iff.mpr (writable_of_lowList hrs)

theorem writable_multiple (hf : f = storeMultiple ∨ f = loadMultiple)
    (h : f.parse operands labels = .ok i) : i.unwritable = false := by
  obtain ⟨_, _, n, mask, _, ⟨_, hread, rfl⟩ | ⟨_, hread, rfl⟩⟩ := multiple_of_parse hf h
  · exact List.isEmpty_eq_false_iff.mpr (writable_of_multipleOperands hread)
  · exact List.isEmpty_eq_false_iff.mpr (writable_of_multipleOperands hread)

theorem writable_compareHigh (htakes : compareHigh.takes operands = true)
    (h : compareHigh.parse operands labels = .ok i) : i.unwritable = false := by
  match operands with
  | [] | [_] | _ :: _ :: _ :: _ => cases h
  | [x, y] =>
    simp only [parse, bind_ok_iff, register_eq_ok] at h
    obtain ⟨n, hn, m, hm, h⟩ := h
    cases h
    simp only [takes, isLowRegister, hn, hm, Option.any_some, Bool.and_eq_true,
      Bool.not_eq_true'] at htakes
    rw [Instr.unwritable, Bool.and_comm]
    exact htakes.2

theorem writable_of_parse (htakes : f.takes operands = true)
    (h : f.parse operands labels = .ok i) : i.unwritable = false := by
  cases form_of_parse h
  cases i with
  | push => exact writable_stack (.inl rfl) h
  | pop => exact writable_stack (.inr rfl) h
  | storeMultiple => exact writable_multiple (.inl rfl) h
  | loadMultiple => exact writable_multiple (.inr rfl) h
  | compareHigh => exact writable_compareHigh htakes h
  | _ => rfl

end Form

/-- For every opcode that the catalogue assigns to a form: a mnemonic, operands and labels are
encoded as exactly that opcode, unless it transfers no register or compares two low registers in
the form for the others. These opcodes are the encoding of no text. -/
theorem opcode_expressible (opcode : List Halfword) (f : Form)
    (hlookup : Form.lookup? opcode = some f) (hlength : opcode.length = f.layout.length) :
    ((f.decode opcode).unwritable = false →
      ∃ mnemonic operands labels,
        encodeInstruction mnemonic operands (some labels) = .ok opcode) ∧
    ((f.decode opcode).unwritable = true →
      ∀ mnemonic operands labels, encodeInstruction mnemonic operands labels ≠ .ok opcode) := by
  constructor
  · intro hwritable
    rw [Form.lookup?_eq_find?] at hlookup
    have haccepts := List.find?_some hlookup
    have hencode := Form.encode_decode haccepts hlength
    generalize f.decode opcode = i at hwritable hencode
    exact ⟨i.form.name, i.operands, i.labels, encodeInstruction_eq_ok.mpr
      ⟨i.form, i.select_operands hwritable, i, i.parse_operands hwritable, hencode⟩⟩
  · intro hunwritable mnemonic operands labels h
    obtain ⟨g, hselect, i, hparse, rfl⟩ := encodeInstruction_eq_ok.mp h
    obtain ⟨_, htakes⟩ := Bool.and_eq_true_iff.mp (Form.canEncode_of_select hselect)
    have hfound := i.lookup?_encode []
    rw [List.append_nil, hlookup, Option.some_inj] at hfound
    rcases i.decodedForm_cases with hform | ⟨m, d, rfl, hform⟩
    · rw [hfound, hform, i.decode_encode, Form.writable_of_parse htakes hparse] at hunwritable
      cases hunwritable
    · -- A shift by zero is found as a move, which can be written.
      rw [hfound, hform, Instr.encode_shift_zero] at hunwritable
      have hmove := (Instr.moveReg m d).decode_encode
      rw [Instr.form] at hmove
      rw [hmove] at hunwritable
      cases hunwritable

/-- A linked branch has a text, and saving no register has none. -/
theorem opcode_expressible_branchLink :
    (∃ mnemonic operands labels,
      encodeInstruction mnemonic operands (some labels) = .ok [0xF7FF, 0xFFFC]) ∧
    ∀ mnemonic operands labels, encodeInstruction mnemonic operands labels ≠ .ok [0xB400] := by
  have hbranch : Form.lookup? [0xF7FF, 0xFFFC] = some .branchLink := by decide +kernel
  have hpush : Form.lookup? [0xB400] = some .push := by decide +kernel
  exact ⟨(opcode_expressible _ _ hbranch rfl).1 (by decide +kernel),
    (opcode_expressible _ _ hpush rfl).2 (by decide +kernel)⟩

end Thumb
