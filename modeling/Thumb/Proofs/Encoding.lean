import Thumb.Object.Draft
import Thumb.Proofs.Except
import Thumb.Proofs.LittleEndian
import Thumb.Proofs.Opcode

namespace Thumb

theorem Width.length_of_dataBytes {w : Width} {value : Int} {bytes : List Byte}
    (h : w.dataBytes value = .ok bytes) : bytes.length = w.bytes := by
  obtain ⟨v, _, rfl⟩ := map_ok_iff.mp h
  exact w.length_toBytes v

namespace Form

variable {f : Form} {operands : List String} {labels : Option Labels}

theorem form_of_parse {i : Instr} (h : f.parse operands labels = .ok i) : i.form = f := by
  unfold parse at h
  split at h
  case h_24 op t mem =>
    -- A register offset and an immediate one give the same form.
    simp only [bind_ok_iff] at h
    obtain ⟨_, _, a, _, h⟩ := h
    split at h
    · simp only [bind_ok_iff] at h
      obtain ⟨_, _, _, _, h⟩ := h
      cases h
      rfl
    · simp only [bind_ok_iff] at h
      obtain ⟨_, _, h⟩ := h
      cases h
      rfl
  all_goals
    simp only [bind_ok_iff, pure, Except.pure, Except.ok.injEq, throw, throwThe,
      MonadExceptOf.throw, reduceCtorEq] at h
  all_goals
    obtain ⟨_, _, _, _, _, _, rfl⟩ := h
    rfl

theorem answersTo_transfer {op : RegTransfer} {f : Form} :
    f.answersTo op.mnemonic = true ↔
      f = .transferReg op ∨
      op.transfer.signed = false ∧ f = .transferImm op.transfer.load op.transfer.width ∨
      op.transfer.signed = false ∧ op.transfer.width = .word ∧ f = .transferSp op.transfer.load ∨
      op = .ldr ∧ f = .loadLiteral := by
  revert f
  apply forall_of_mem_all
  cases op <;> decide

theorem canEncode_of_select {mnemonic : String} (h : select mnemonic operands = .ok f) :
    f.canEncode (String.ofList (Text.upper mnemonic.toList)) operands = true := by
  unfold select at h
  dsimp only at h
  split at h
  case h_1 g hfind =>
    cases h
    have hcan := List.find?_some hfind
    exact hcan
  case h_2 => cases h

theorem encode_eq_ok {opcode : List Halfword} :
    f.encode operands labels = .ok opcode ↔
      ∃ i, f.parse operands labels = .ok i ∧ i.encode = opcode := by
  simp only [encode, bind_ok_iff, pure, Except.pure, Except.ok.injEq]

theorem length_of_encode {opcode : List Halfword} (h : f.encode operands labels = .ok opcode) :
    opcode.length = f.layout.length := by
  obtain ⟨i, hi, rfl⟩ := encode_eq_ok.mp h
  rw [i.length_encode, form_of_parse hi]

theorem parse_of_not_needsLabels (hf : f.needsLabels = false) :
    f.parse operands labels = f.parse operands none := by
  rcases operands with _ | ⟨a, _ | ⟨b, _ | ⟨c, _ | ⟨d, rest⟩⟩⟩⟩
  all_goals cases f <;> first | rfl | cases hf

theorem encode_of_not_needsLabels (hf : f.needsLabels = false) :
    f.encode operands labels = f.encode operands none := by
  rw [encode, encode, parse_of_not_needsLabels hf]

end Form

theorem encodeInstruction_of_select {mnemonic : String} {operands : List String} {f : Form}
    (h : Form.select mnemonic operands = .ok f) (labels : Option Labels) :
    encodeInstruction mnemonic operands labels = f.encode operands labels := by
  rw [encodeInstruction, h]
  rfl

theorem encodeInstruction_eq_ok {mnemonic : String} {operands : List String}
    {labels : Option Labels} {opcode : List Halfword} :
    encodeInstruction mnemonic operands labels = .ok opcode ↔
      ∃ f, Form.select mnemonic operands = .ok f ∧
        ∃ i, f.parse operands labels = .ok i ∧ i.encode = opcode := by
  simp only [encodeInstruction, bind_ok_iff, Form.encode_eq_ok]

namespace Object.Draft

theorem halfwordBytes_cons (h : Halfword) (hs : List Halfword) :
    halfwordBytes (h :: hs) = Width.halfword.toBytes h ++ halfwordBytes hs :=
  List.flatMap_cons

theorem length_halfwordBytes (hs : List Halfword) : (halfwordBytes hs).length = 2 * hs.length := by
  induction hs with
  | nil => rfl
  | cons h hs ih =>
    have hh : (Width.halfword.toBytes h).length = 2 := Width.length_toBytes .halfword h
    rw [halfwordBytes_cons, List.length_append, ih, hh, List.length_cons, Nat.mul_succ,
      Nat.add_comm]

theorem take_drop_halfwordBytes {opcode : List Halfword} {n : Nat} {h : Halfword}
    (hn : opcode[n]? = some h) :
    ((halfwordBytes opcode).drop (2 * n)).take 2 = Width.halfword.toBytes h := by
  induction opcode generalizing n with
  | nil => cases hn
  | cons first others ih =>
    have hlen : (Width.halfword.toBytes first).length = 2 := Width.length_toBytes .halfword first
    rw [halfwordBytes_cons]
    cases n with
    | zero =>
      cases hn
      rw [Nat.mul_zero, List.drop_zero, List.take_left' hlen]
    | succ n =>
      rw [Nat.mul_succ, Nat.add_comm, ← List.drop_drop, List.drop_left' hlen]
      exact ih hn

theorem dataBytes_of_number {width : Width} {value : Int} {mnemonic operand : String} {line : Nat}
    {bytes : List Byte} (h : number width value mnemonic operand line = .ok bytes) :
    width.dataBytes value = .ok bytes := by
  unfold number at h
  split at h
  case h_1 bytes' hb =>
    cases h
    exact hb
  case h_2 => cases h

end Object.Draft

end Thumb
