import Thumb.Memory.Map
import Thumb.Proofs.Decoding
import Thumb.Proofs.Operation
import Thumb.Proofs.RegisterChange

namespace Thumb

namespace Operand

theorem unsignedImmediate_eq_ok {op : String} {bits u : Nat} (hbits : bits ≤ 32) :
    unsignedImmediate op bits = .ok u ↔ u < 2 ^ bits ∧ immediate op = .ok (u : Int) := by
  rw [unsignedImmediate, scaledImmediate_eq_ok hbits Nat.one_pos, Nat.cast_one, one_mul]

theorem exactRegister_eq_ok {op : String} {r : Reg} {u : Unit} :
    exactRegister op r = .ok u ↔ Reg.parse? op = some r := by
  simp only [exactRegister, bind_ok_iff, register_eq_ok]
  constructor
  · rintro ⟨s, hs, h⟩
    split_ifs at h with hne
    rw [hs, not_not.mp hne]
  · intro h
    exact ⟨r, h, if_neg (not_not.mpr rfl)⟩

theorem parse?_of_sameRegister {a b : String} {r : Reg} (h : sameRegister a b = true)
    (ha : Reg.parse? a = some r) : Reg.parse? b = some r := by
  obtain ⟨_, heq⟩ := Bool.and_eq_true_iff.mp h
  rw [← ha, beq_iff_eq.mp heq]

/-- The destination and the two values that operands name. Without a third operand, the destination
is the first value. -/
def reading? (operands : List String) : Option (Reg × Value × Value) :=
  match operands.mapM value? with
  | some [.register d, x] => some (d, .register d, x)
  | some [.register d, a, x] => some (d, a, x)
  | _ => none

variable {d a x : String} {r : Reg} {u v : Value}

theorem reading?_pair : reading? [d, x] = some (r, u, v) ↔
    Reg.parse? d = some r ∧ u = .register r ∧ value? x = some v := by
  rw [← value?_eq_register]
  cases hd : value? d with
  | none => simp [reading?, hd]
  | some w =>
    cases hx : value? x with
    | none => simp [reading?, hd, hx]
    | some w' =>
      cases w with
      | register r' =>
        have hreading : reading? [d, x] = some (r', .register r', w') := by
          simp [reading?, hd, hx]
        rw [hreading]
        simp only [Option.some_inj, Prod.mk.injEq, Value.register.injEq]
        constructor
        · rintro ⟨rfl, rfl, rfl⟩
          exact ⟨rfl, rfl, rfl⟩
        · rintro ⟨rfl, rfl, rfl⟩
          exact ⟨rfl, rfl, rfl⟩
      | immediate i => simp [reading?, hd, hx]

theorem reading?_triple (hd : Reg.parse? d = some r) (ha : value? a = some u)
    (hx : value? x = some v) : reading? [d, a, x] = some (r, u, v) := by
  simp [reading?, value?_eq_register.mpr hd, ha, hx]

end Operand

namespace Form

def operation? : Form → Option Operation
  | .moveReg | .moveImm => some .movs
  | .moveHigh => some .mov
  | .unary op => some op.operation
  | .shiftImm op => some op.operation
  | .immThree op | .immEight op | .regThree op => some (op.operation true)
  | .adjustSp op => some (op.operation false)
  | .addSp | .addHigh => some .add
  | .compareImm | .compareHigh => some .cmp
  | .data op => some op.operation
  | _ => none

theorem operation?_of_answersTo {f : Form} {op : Operation}
    (h : f.answersTo op.mnemonic = true) : f.operation? = some op := by
  revert f
  apply forall_of_mem_all
  cases op <;> decide

open Operand

/-- An instruction does an operation on what the operands name. -/
def Means (operands : List String) (i : Instr) (op : Operation) : Prop :=
  ∃ d a x, Operand.reading? operands = some (d, a, x) ∧ i.Does op d a x

variable {operands : List String} {labels : Option Labels} {i : Instr}

theorem Means.same {x y z : String} {op : Operation} (h : Means [x, z] i op)
    (hsame : sameRegister x y = true) : Means [x, y, z] i op := by
  obtain ⟨d, a, v, hreading, hdoes⟩ := h
  obtain ⟨hd, rfl, hv⟩ := reading?_pair.mp hreading
  have hy := parse?_of_sameRegister hsame hd
  exact ⟨_, _, _, reading?_triple hd (value?_eq_register.mpr hy) hv, hdoes⟩

section Pair

variable {x y : String} {op : Operation}

theorem means_low_low {instr : Fin 8 → Fin 8 → Instr}
    (hdoes : ∀ m d, (instr m d).Does op (.low d) (.register (.low d)) (.register (.low m)))
    (h : (do
      let d ← lowRegister x
      return instr (← lowRegister y) d) = Except.ok i) : Means [x, y] i op := by
  simp only [bind_ok_iff, lowRegister_eq_ok] at h
  obtain ⟨d, hd, m, hm, h⟩ := h
  cases h
  exact ⟨_, _, _, reading?_pair.mpr ⟨hd, rfl, value?_eq_register.mpr hm⟩, hdoes m d⟩

theorem means_any_any {instr : Reg → Reg → Instr}
    (hdoes : ∀ m d, (instr m d).Does op d (.register d) (.register m))
    (h : (do
      let d ← register x
      return instr (← register y) d) = Except.ok i) : Means [x, y] i op := by
  simp only [bind_ok_iff, register_eq_ok] at h
  obtain ⟨d, hd, m, hm, h⟩ := h
  cases h
  exact ⟨_, _, _, reading?_pair.mpr ⟨hd, rfl, value?_eq_register.mpr hm⟩, hdoes m d⟩

theorem means_low_byte {instr : Fin 8 → BitVec 8 → Instr}
    (hdoes : ∀ d {u : Nat}, u < 2 ^ 8 →
      (instr d (.ofNat 8 u)).Does op (.low d) (.register (.low d)) (.immediate u))
    (h : (do return instr (← lowRegister x) (.ofNat 8 (← unsignedImmediate y 8))) =
      Except.ok i) : Means [x, y] i op := by
  simp (disch := decide) only [bind_ok_iff, lowRegister_eq_ok, unsignedImmediate_eq_ok] at h
  obtain ⟨d, hd, u, ⟨hu, himm⟩, h⟩ := h
  cases h
  exact ⟨_, _, _, reading?_pair.mpr ⟨hd, rfl, value?_eq_immediate.mpr himm⟩, hdoes d hu⟩

end Pair

theorem means_moveReg (h : moveReg.parse operands labels = .ok i) : Means operands i .movs := by
  match operands with
  | [] | [_] | _ :: _ :: _ :: _ => cases h
  | [d, m] => exact means_low_low .moveReg h

theorem means_moveImm (h : moveImm.parse operands labels = .ok i) : Means operands i .movs := by
  match operands with
  | [] | [_] | _ :: _ :: _ :: _ => cases h
  | [d, imm] => exact means_low_byte .moveImm h

theorem means_moveHigh (h : moveHigh.parse operands labels = .ok i) : Means operands i .mov := by
  match operands with
  | [] | [_] | _ :: _ :: _ :: _ => cases h
  | [d, m] => exact means_any_any .moveHigh h

theorem means_unary {op : Unary} (h : (unary op).parse operands labels = .ok i) :
    Means operands i op.operation := by
  match operands with
  | [] | [_] | _ :: _ :: _ :: _ => cases h
  | [d, m] => exact means_low_low (.unary op) h

theorem means_shiftImm {op : Shift} (h : (shiftImm op).parse operands labels = .ok i) :
    Means operands i op.operation := by
  match operands with
  | [] | [_] | _ :: _ :: _ :: _ :: _ => cases h
  | [d, imm] =>
    simp only [parse, bind_ok_iff, lowRegister_eq_ok] at h
    obtain ⟨d', hd, amount, hamount, h⟩ := h
    obtain ⟨n, himm, hmin, hmax, rfl⟩ := shiftAmount_ok hamount
    cases h
    exact ⟨_, _, _, reading?_pair.mpr ⟨hd, rfl, value?_eq_immediate.mpr himm⟩,
      .shiftImm op d' d' hmin hmax⟩
  | [d, m, imm] =>
    simp only [parse, bind_ok_iff, lowRegister_eq_ok] at h
    obtain ⟨d', hd, m', hm, amount, hamount, h⟩ := h
    obtain ⟨n, himm, hmin, hmax, rfl⟩ := shiftAmount_ok hamount
    cases h
    exact ⟨_, _, _, reading?_triple hd (value?_eq_register.mpr hm) (value?_eq_immediate.mpr himm),
      .shiftImm op m' d' hmin hmax⟩

theorem means_immThree {op : AddSub} (h : (immThree op).parse operands labels = .ok i) :
    Means operands i (op.operation true) := by
  match operands with
  | [] | [_] | [_, _] | _ :: _ :: _ :: _ :: _ => cases h
  | [d, n, imm] =>
    simp (disch := decide) only [parse, bind_ok_iff, lowRegister_eq_ok,
      unsignedImmediate_eq_ok] at h
    obtain ⟨d', hd, n', hn, u, ⟨hu, himm⟩, h⟩ := h
    cases h
    exact ⟨_, _, _, reading?_triple hd (value?_eq_register.mpr hn) (value?_eq_immediate.mpr himm),
      .immThree op n' d' hu⟩

theorem means_immEight {op : AddSub} (htakes : (immEight op).takes operands = true)
    (h : (immEight op).parse operands labels = .ok i) : Means operands i (op.operation true) := by
  match operands with
  | [] | [_] | _ :: _ :: _ :: _ :: _ => cases h
  | [d, imm] => exact means_low_byte (.immEight op) h
  | [d, n, imm] =>
    -- The second operand is not read again: the form is only taken when it is the first.
    obtain ⟨hsame, _⟩ := Bool.and_eq_true_iff.mp htakes
    exact (means_low_byte (.immEight op) h).same hsame

theorem means_regThree {op : AddSub} (h : (regThree op).parse operands labels = .ok i) :
    Means operands i (op.operation true) := by
  match operands with
  | [] | [_] | _ :: _ :: _ :: _ :: _ => cases h
  | [d, m] => exact means_low_low (fun m d => .regThree op m d d) h
  | [d, n, m] =>
    simp only [parse, bind_ok_iff, lowRegister_eq_ok] at h
    obtain ⟨d', hd, n', hn, m', hm, h⟩ := h
    cases h
    exact ⟨_, _, _, reading?_triple hd (value?_eq_register.mpr hn) (value?_eq_register.mpr hm),
      .regThree op m' n' d'⟩

theorem means_adjustSp_pair {op : AddSub} {s imm : String}
    (h : (adjustSp op).parse [s, imm] labels = .ok i) :
    Means [s, imm] i (op.operation false) := by
  simp (disch := decide) only [parse, bind_ok_iff, exactRegister_eq_ok,
    scaledImmediate_eq_ok] at h
  obtain ⟨_, hs, u, ⟨hu, himm⟩, h⟩ := h
  cases h
  exact ⟨_, _, _, reading?_pair.mpr ⟨hs, rfl, value?_eq_immediate.mpr himm⟩, .adjustSp op hu⟩

theorem means_adjustSp {op : AddSub} (htakes : (adjustSp op).takes operands = true)
    (h : (adjustSp op).parse operands labels = .ok i) : Means operands i (op.operation false) := by
  match operands with
  | [] | [_] | _ :: _ :: _ :: _ :: _ => cases h
  | [s, imm] => exact means_adjustSp_pair h
  | [s, t, imm] =>
    simp only [takes, isSp, Bool.and_eq_true, beq_iff_eq] at htakes
    obtain ⟨⟨hs, ht⟩, _⟩ := htakes
    have hpair : (adjustSp op).parse [s, imm] labels = .ok i := h
    exact (means_adjustSp_pair hpair).same (by simp [sameRegister, isRegister, hs, ht])

theorem means_addSp (h : addSp.parse operands labels = .ok i) : Means operands i .add := by
  match operands with
  | [] | [_] | [_, _] | _ :: _ :: _ :: _ :: _ => cases h
  | [d, s, imm] =>
    simp (disch := decide) only [parse, bind_ok_iff, lowRegister_eq_ok, exactRegister_eq_ok,
      scaledImmediate_eq_ok] at h
    obtain ⟨d', hd, _, hs, u, ⟨hu, himm⟩, h⟩ := h
    cases h
    exact ⟨_, _, _, reading?_triple hd (value?_eq_register.mpr hs) (value?_eq_immediate.mpr himm),
      .addSp d' hu⟩

theorem means_addHigh (htakes : addHigh.takes operands = true)
    (h : addHigh.parse operands labels = .ok i) : Means operands i .add := by
  match operands with
  | [] | [_] | _ :: _ :: _ :: _ :: _ => cases h
  | [d, m] => exact means_any_any .addHigh h
  | [d, n, m] =>
    obtain ⟨hsame, _⟩ := Bool.and_eq_true_iff.mp htakes
    exact (means_any_any .addHigh h).same hsame

theorem means_compareImm (h : compareImm.parse operands labels = .ok i) :
    Means operands i .cmp := by
  match operands with
  | [] | [_] | _ :: _ :: _ :: _ => cases h
  | [n, imm] => exact means_low_byte .compareImm h

theorem means_compareHigh (h : compareHigh.parse operands labels = .ok i) :
    Means operands i .cmp := by
  match operands with
  | [] | [_] | _ :: _ :: _ :: _ => cases h
  | [n, m] => exact means_any_any .compareHigh h

theorem lowPair_eq_ok {x y : String} {d m : Fin 8} :
    (do return (← lowRegister x, ← lowRegister y)) = Except.ok (d, m) ↔
      Reg.parse? x = some (.low d) ∧ Reg.parse? y = some (.low m) := by
  simp only [bind_ok_iff, lowRegister_eq_ok, pure, Except.pure, Except.ok.injEq, Prod.mk.injEq]
  constructor
  · rintro ⟨_, hd, _, hm, rfl, rfl⟩
    exact ⟨hd, hm⟩
  · rintro ⟨hd, hm⟩
    exact ⟨d, hd, m, hm, rfl, rfl⟩

theorem means_data_pair {op : DataOp} (hop : op.shape ≠ .negate) {x y : String} {d m : Fin 8}
    (h : (do return (← lowRegister x, ← lowRegister y)) = Except.ok (d, m)) :
    Means [x, y] (.data op m d) op.operation := by
  obtain ⟨hd, hm⟩ := lowPair_eq_ok.mp h
  have hne : op ≠ .rsb := by
    rintro rfl
    exact hop rfl
  exact ⟨_, _, _, reading?_pair.mpr ⟨hd, rfl, value?_eq_register.mpr hm⟩, .data op m d hne⟩

theorem means_data {op : DataOp} (htakes : (data op).takes operands = true)
    (h : (data op).parse operands labels = .ok i) : Means operands i op.operation := by
  obtain ⟨⟨d, m⟩, hregisters, h⟩ := bind_ok_iff.mp h
  cases h
  unfold dataRegisters at hregisters
  split at hregisters
  case h_1 x y hshape => exact means_data_pair (by simp [hshape]) hregisters
  case h_2 x n y hshape =>
    have htakes : dataShapeTakes op.shape [x, n, y] = true := htakes
    rw [hshape] at htakes
    obtain ⟨_, hsame⟩ := Bool.and_eq_true_iff.mp htakes
    exact (means_data_pair (by simp [hshape]) hregisters).same hsame
  case h_3 x y hshape => exact means_data_pair (by simp [hshape]) hregisters
  case h_4 x y hshape => exact means_data_pair (by simp [hshape]) hregisters
  case h_5 x y hshape => exact means_data_pair (by simp [hshape]) hregisters
  case h_6 x n zero hshape =>
    have hop : op = .rsb := by
      cases op <;> first | rfl | cases hshape
    subst hop
    obtain ⟨z, hz, hregisters⟩ := bind_ok_iff.mp hregisters
    split_ifs at hregisters with hzero
    · cases hregisters
    · obtain ⟨hd, hm⟩ := lowPair_eq_ok.mp hregisters
      cases not_not.mp hzero
      exact ⟨_, _, _, reading?_triple hd (value?_eq_register.mpr hm) (value?_eq_immediate.mpr hz),
        .negate m d⟩
  case h_7 x n y hshape =>
    have hop : op = .mul := by
      cases op <;> first | rfl | cases hshape
    subst hop
    simp only [bind_ok_iff, lowRegister_eq_ok] at hregisters
    obtain ⟨d', hd, n', hn, m', hm, hregisters⟩ := hregisters
    have hreading := reading?_triple hd (value?_eq_register.mpr hn) (value?_eq_register.mpr hm)
    -- The destination is one of the factors.
    split_ifs at hregisters with hlast hfirst
    · cases hregisters
      subst hlast
      exact ⟨_, _, _, hreading, .multiply m d⟩
    · cases hregisters
      subst hfirst
      exact ⟨_, _, _, hreading, .data .mul m d (by decide)⟩
  case h_8 => cases hregisters

theorem means_of_parse {f : Form} {op : Operation} (hop : f.operation? = some op)
    (htakes : f.takes operands = true) (h : f.parse operands labels = .ok i) :
    Means operands i op := by
  cases f <;> cases hop
  case moveReg => exact means_moveReg h
  case moveImm => exact means_moveImm h
  case moveHigh => exact means_moveHigh h
  case unary => exact means_unary h
  case shiftImm => exact means_shiftImm h
  case immThree => exact means_immThree h
  case immEight => exact means_immEight htakes h
  case regThree => exact means_regThree h
  case adjustSp => exact means_adjustSp htakes h
  case addSp => exact means_addSp h
  case addHigh => exact means_addHigh htakes h
  case compareImm => exact means_compareImm h
  case compareHigh => exact means_compareHigh h
  case data => exact means_data htakes h

end Form

theorem Instr.Does.exec {i : Instr} {op : Operation} {d : Reg} {a x : Operand.Value}
    (h : i.Does op d a x) {μ : Type} [Bus μ] :
    (i.exec : Exec μ Unit) = Exec.onRegs (op.effect d a x) := by
  have heffect : i.effect = op.effect d a x := funext fun b => h.effect b
  rw [← heffect]
  cases h <;> rfl

theorem Operation.becomes_effect (op : Operation) (d : Reg) (a x : Operand.Value) (b : Bank) :
    let e := op.result b.flags.c (a.word b) (x.word b) (x.amount b)
    b.Becomes (if op.writes then [(d, if d = .pc then e.word &&& ~~~1 else e.word)] else [])
      (if op.setsFlags then e.flags b.flags else b.flags) (op.effect d a x b) := by
  intro e
  have hwritten : b.Becomes
      (if op.writes then [(d, if d = .pc then e.word &&& ~~~1 else e.word)] else []) b.flags
      (if op.writes then b.writeAny d e.word else b) := by
    split
    · exact (Bank.Becomes.refl b).write d _
    · exact .refl b
  cases hflags : op.setsFlags with
  | true =>
    rw [effect, hflags]
    exact hwritten.setFlags _
  | false =>
    rw [effect, hflags]
    exact hwritten

/-- For every text of arithmetic, logic, a shift or a move that is encoded, and for every register
bank: what is executed is the operation on the registers and the immediate that the text names. -/
theorem alu_text_effect (op : Operation) (mnemonic : String) (operands : List String)
    (labels : Option Labels) (opcode : List Halfword)
    (hop : String.ofList (Text.upper mnemonic.toList) = op.mnemonic)
    (h : encodeInstruction mnemonic operands labels = .ok opcode) :
    ∃ d a x, Operand.reading? operands = some (d, a, x) ∧
      ∀ {μ : Type} [Bus μ] (following : Option Halfword) (m : Machine μ),
        let e := op.result m.regs.flags.c (a.word m.regs) (x.word m.regs) (x.amount m.regs)
        ∃ regs, executeOpcode? opcode following m = some (.ok () ⟨regs, m.bus⟩) ∧
          m.regs.Becomes
            (if op.writes then [(d, if d = .pc then e.word &&& ~~~1 else e.word)] else [])
            (if op.setsFlags then e.flags m.regs.flags else m.regs.flags) regs := by
  obtain ⟨f, hselect, i, hparse, rfl⟩ := encodeInstruction_eq_ok.mp h
  have hcan := Form.canEncode_of_select hselect
  rw [hop] at hcan
  obtain ⟨hanswers, htakes⟩ := Bool.and_eq_true_iff.mp hcan
  obtain ⟨d, a, x, hreading, hdoes⟩ :=
    Form.means_of_parse (Form.operation?_of_answersTo hanswers) htakes hparse
  refine ⟨d, a, x, hreading, ?_⟩
  intro μ _ following m e
  refine ⟨op.effect d a x m.regs, ?_, op.becomes_effect d a x m.regs⟩
  rw [i.executeOpcode?_encode, hdoes.exec]
  rfl

/-- The program counter as a source reads ahead, and as the destination it is even. A sum of numbers
with sign overflows. -/
theorem alu_text_effect_pc :
    encodeInstruction "add" ["PC", "pc", "R3"] none = .ok [0x449F] ∧
    encodeInstruction "ADDS" ["R0", "R0", "#1"] none = .ok [0x1C40] ∧
    (∀ (following : Option Halfword) (m : Machine Memory), ∃ regs,
      executeOpcode? [0x449F] following m = some (.ok () ⟨regs, m.bus⟩) ∧
      regs.read .pc = (m.regs.pc + 4 + m.regs.read (.low 3)) &&& ~~~1 ∧
      (∀ r, r ≠ .pc → regs.read r = m.regs.read r) ∧ regs.flags = m.regs.flags) ∧
    ∀ (following : Option Halfword) (m : Machine Memory), m.regs.read (.low 0) = 0x7FFFFFFF →
      ∃ regs, executeOpcode? [0x1C40] following m = some (.ok () ⟨regs, m.bus⟩) ∧
        regs.read (.low 0) = 0x80000000 ∧ (∀ r, r ≠ .low 0 → regs.read r = m.regs.read r) ∧
        regs.flags = { m.regs.flags with n := true, z := false, c := false, v := true } := by
  have hjump : encodeInstruction "add" ["PC", "pc", "R3"] none = .ok [0x449F] := by
    decide +kernel
  have hsum : encodeInstruction "ADDS" ["R0", "R0", "#1"] none = .ok [0x1C40] := by
    decide +kernel
  refine ⟨hjump, hsum, ?_, ?_⟩
  · have hnamed : Operand.reading? ["PC", "pc", "R3"] =
        some (.pc, .register .pc, .register (.low 3)) := by
      decide +kernel
    obtain ⟨d, a, x, hreading, hexecute⟩ :=
      alu_text_effect .add "add" ["PC", "pc", "R3"] none [0x449F] (by decide +kernel) hjump
    cases hnamed.symm.trans hreading
    intro following m
    obtain ⟨regs, hregs, hbecomes⟩ := hexecute following m
    refine ⟨regs, hregs, ?_, ?_, hbecomes.flags⟩
    · rw [hbecomes.read, Operation.result, Exact.word_sum]
      rfl
    · exact fun r hr => Bank.Becomes.read_of_ne hbecomes hr
  · have hnamed : Operand.reading? ["R0", "R0", "#1"] =
        some (.low 0, .register (.low 0), .immediate 1) := by
      decide +kernel
    obtain ⟨d, a, x, hreading, hexecute⟩ :=
      alu_text_effect .adds "ADDS" ["R0", "R0", "#1"] none [0x1C40] (by decide +kernel) hsum
    cases hnamed.symm.trans hreading
    intro following m hzero
    obtain ⟨regs, hregs, hbecomes⟩ := hexecute following m
    have hword : (Operand.Value.register (.low 0)).word m.regs = 0x7FFFFFFF := hzero
    rw [hword] at hbecomes
    exact ⟨regs, hregs, hbecomes.read (.low 0), fun r hr => Bank.Becomes.read_of_ne hbecomes hr,
      hbecomes.flags⟩

end Thumb
