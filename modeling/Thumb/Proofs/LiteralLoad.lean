import Thumb.Proofs.AssembledStep
import Thumb.Proofs.LabelReach
import Thumb.Proofs.LiteralPool
import Thumb.Proofs.OperandText
import Thumb.Proofs.RangeCheck

namespace Thumb

theorem Number.eq_of_integral {v i : Int} (h : (integer v).integral = .ok i) : i = v := by
  rw [integral_integer] at h
  split at h
  · cases h
    rfl
  · cases h

/-- A number that is read with or without a sign is in one of the two ranges. -/
theorem Width.ofEither_cases {w : Width} {v : Int} {value : BitVec w.bits}
    (h : w.ofEither (.integer v) = .ok value) :
    value = BitVec.ofInt w.bits v ∧
      (0 ≤ v ∧ v < (Nat.pow 2 w.bits : Int) ∨
        -(Nat.pow 2 (w.bits - 1) : Int) ≤ v ∧ v < (Nat.pow 2 (w.bits - 1) : Int)) := by
  unfold ofEither at h
  split at h
  case h_1 value' hunsigned =>
    cases h
    obtain ⟨i, hi, hunsigned⟩ := bind_ok_iff.mp hunsigned
    cases Number.eq_of_integral hi
    split at hunsigned
    case isTrue hrange =>
      cases hunsigned
      exact ⟨rfl, .inl hrange⟩
    case isFalse => cases hunsigned
  case h_2 =>
    obtain ⟨i, hi, hsigned⟩ := bind_ok_iff.mp h
    cases Number.eq_of_integral hi
    split at hsigned
    case isTrue hrange =>
      cases hsigned
      exact ⟨rfl, .inr hrange⟩
    case isFalse => cases hsigned

theorem Width.eq_toBytes_of_dataBytes {w : Width} {v : Int} {bytes : List Byte}
    (h : w.dataBytes v = .ok bytes) : bytes = w.toBytes (BitVec.ofInt w.bits v) := by
  obtain ⟨value, hvalue, rfl⟩ := map_ok_iff.mp h
  rw [(ofEither_cases hvalue).1]

theorem Object.Relocated.literal {p : Program} {o : Object} {bytes : Nat → List Byte}
    {k offset : Nat} {c : Draft} {l : Literal} (ho : ofProgram p = .ok o)
    (h : o.Relocated o.body o.relocations bytes)
    (hc : p.constants.foldlM Draft.constant {} = .ok c)
    (hl : o.LiteralAt k offset c.constants l) :
    ∃ v, p.Denotes o l.value v ∧
      ((bytes k).drop offset).take 4 = Width.word.toBytes (BitVec.ofInt 32 v) := by
  have hvalue := Program.value?_constants hc l.value
  cases hnumber : p.number? l.value with
  | some v =>
    rw [hnumber] at hvalue
    obtain ⟨hdata, hfree⟩ := hl.number v hvalue
    refine ⟨v, .number hnumber, Eq.trans ?_ (Width.eq_toBytes_of_dataBytes hdata)⟩
    apply take_drop_congr
    intro n hn
    apply h.outside
    intro r hr
    exact hfree r hr n hn
  | none =>
    rw [hnumber] at hvalue
    obtain ⟨hlabel, hmem⟩ := hl.named hvalue
    obtain ⟨new, hnew, hbytes⟩ := h.inside _ hmem
    generalize hfour : 4 = four at hnew hbytes
    cases hnew with
    | @data _ _ _ width _ symbol _ hfound hdata =>
      cases width with
      | byte => cases hfour
      | halfword => cases hfour
      | word =>
        exact ⟨_, Program.denotes_of_symbol ho hnumber hlabel hfound,
          hbytes.trans (Width.eq_toBytes_of_dataBytes hdata)⟩

theorem trim_literalLabel (n : Nat) :
    Text.trim (literalLabel n).toList = (literalLabel n).toList := by
  apply Text.trim_eq_self
  intro c hc
  rw [toList_literalLabel] at hc
  simp only [List.mem_cons] at hc
  rcases hc with rfl | rfl | rfl | rfl | hc
  · rfl
  · rfl
  · rfl
  · rfl
  · exact Text.isBlank_of_isDigit (Nat.isDigit_of_mem_toDigits (by decide) (by decide) hc)

/-- The label of a literal is its address for an instruction anywhere. -/
theorem Object.LiteralAt.target {o : Object} {k offset : Nat} {constants : Constants}
    {l : Literal} (h : o.LiteralAt k offset constants l) (site : Nat) :
    (o.labelsAt site).targets.get? (Text.trimmed l.label) =
      some (BitVec.ofNat 32 (o.addressOf k + offset)) := by
  obtain ⟨n, hlabel⟩ := h.label
  rw [hlabel, Text.trimmed, trim_literalLabel, String.ofList_toList, ← hlabel, labelsAt,
    Table.get?_filterMap, h.symbol, ← BitVec.ofInt_natCast, Nat.cast_add]
  rfl

theorem address?_literalLabel (n : Nat) : Operand.address? (literalLabel n) = none := by
  unfold Operand.address?
  rw [trim_literalLabel, toList_literalLabel]
  rfl

namespace Form

theorem select_literal {t : String} {n : Nat} {f : Form}
    (h : select "LDR" [t, literalLabel n] = .ok f) : f = .loadLiteral := by
  obtain ⟨hanswers, htakes⟩ := Bool.and_eq_true_iff.mp (canEncode_of_select h)
  have hname : String.ofList (Text.upper "LDR".toList) = RegTransfer.ldr.mnemonic := by
    decide
  rw [hname, answersTo_transfer] at hanswers
  rcases hanswers with rfl | ⟨_, rfl⟩ | ⟨_, _, rfl⟩ | ⟨_, rfl⟩
  · simp [takes, transferTakes, address?_literalLabel] at htakes
  · simp [takes, transferTakes, address?_literalLabel] at htakes
  · simp [takes, transferTakes, address?_literalLabel] at htakes
  · rfl

end Form

namespace Board

theorem execute_loadLiteral {labels : Labels} {label t : String} {d : Fin 8} {target value : Word}
    {opcode : List Halfword} {b : Board} (hs : labels.site.toNat ≤ 0xFFFFFFFB)
    (htarget : labels.targets.get? (Text.trimmed label) = some target)
    (hd : Operand.lowRegister t = .ok d)
    (hencode : Form.loadLiteral.encode [t, label] (some labels) = .ok opcode)
    (hpc : b.cpu.regs.pc = labels.site)
    (hread : Memory.read .word target b.memory = .ok value b.memory) :
    ∃ regs, execute .loadLiteral opcode b =
        .ok () { b with cpu := { b.cpu with regs, cycles := b.cpu.cycles + 1 } } ∧
      b.cpu.regs.Becomes [(.pc, b.cpu.regs.pc + 2), (.low d, value)] b.cpu.regs.flags regs := by
  have houtcome := (Form.loadLiteral_reaches hs htarget hd).executes hencode
    (⟨b.cpu.regs.beginCycle, b.memory⟩ : Machine Memory) hpc
  have hbus : Bus.read .word target b.memory = .ok value b.memory := hread
  rw [hbus] at houtcome
  obtain ⟨regs, hexec, hregs⟩ := houtcome
  have hlength : opcode.length = 1 := Form.length_of_encode hencode
  have hwritten : regs.pcWritten = false := by
    rw [hregs.pcWritten, List.lookup_cons, beq_false_of_ne (Reg.low_ne_pc d).symm]
    rfl
  refine ⟨regs.write .pc (b.cpu.regs.pc + 2), ?_, (hregs.write .pc _).of_beginCycle rfl⟩
  simp only [execute, hexec, hwritten, hlength]
  rfl

/-- For every text that is assembled and loaded and for every `LDR Rt, =expr` in its code: what the
expression stands for is loaded into the register, and nothing else changes. -/
theorem literal_load_step (source : String) (x : Executable) (loaded : Board)
    (hx : assemble source = .ok x) (hload : load x (ofConfig {}) = .ok () loaded) :
    loaded.HoldsImage x ∧
    ∃ p o, Source.parse source = .ok p ∧ Object.ofProgram p = .ok o ∧ o.link = .ok x ∧
      ∀ i j a r t rt op expr, p.areas[i]? = some a → a.kind = .code → a.records[j]? = some r →
        r.mnemonic = "LDR" → r.operands = [t, op] → Reg.parse? t = some rt →
        Text.trim op.toList = '=' :: expr →
        ∃ mark v, o.marks[p.recordNumber i j]? = some mark ∧ mark.index = i ∧ mark.line = r.line ∧
          (∀ v', p.Denotes o (String.ofList (Text.trim expr)) v' ↔ v' = v) ∧
          ∀ b : Board, b.HoldsImage x →
            b.cpu.regs.pc = BitVec.ofNat 32 (o.addressOf i + mark.offset) →
            ∃ regs, b.step =
                .ok () { b with cpu := { b.cpu with regs, cycles := b.cpu.cycles + 1 } } ∧
              b.cpu.regs.Becomes [(.pc, b.cpu.regs.pc + 2), (rt, BitVec.ofInt 32 v)]
                b.cpu.regs.flags regs := by
  obtain ⟨hholds, p, o, bytes, hp, ho, hlink, himage⟩ := load_flashImage hx hload
  refine ⟨hholds, p, o, hp, ho, hlink, ?_⟩
  intro i j a r t rt op expr ha hkind hr hmnemonic hops ht hop
  have hinstr : r.kind = .instruction := by
    rw [Record.kind, hmnemonic]
    rfl
  obtain ⟨d, mark, form, placeholder, hd, hmark, hindex, hline, hat⟩ :=
    Object.ofProgram_instruction ho ha hr hinstr
  obtain ⟨_, d', d'', _, _, _, _, hd', _, hrecord, _⟩ := Object.Draft.ofProgram_around ho ha hr
  cases hd.symm.trans hd'
  obtain ⟨l, hl, hvalue, hoperands⟩ := Object.Draft.record_literal hrecord hinstr hops ht hop
  obtain ⟨c, offset, hc, hliteral⟩ := Object.ofProgram_literal ho ha hr hd hrecord hl
  obtain ⟨v, hdenotes, hword⟩ := himage.relocated.literal ho hc hliteral
  obtain ⟨n, hlabel⟩ := hliteral.label
  rw [hvalue] at hdenotes
  refine ⟨mark, v, hmark, hindex, hline, ?_, ?_⟩
  · intro v'
    exact ⟨hdenotes.unique ho, fun heq => heq ▸ hdenotes⟩
  intro b hb hpc
  -- The instruction is a load from the label of the literal.
  rw [hoperands] at hat
  have hselect := hat.select
  dsimp only at hselect
  rw [hmnemonic, hlabel] at hselect
  cases Form.select_literal hselect
  obtain ⟨opcode, hencode, _, _⟩ := himage.relocated.instruction hat
  obtain ⟨s, hs, hle⟩ := hliteral.inside
  have hcode := ((Object.ofProgram_wellFormed ho).kind_eq ha hs).trans hkind
  rw [Board.step_instructionAt himage hs hcode hat hencode hb hpc]
  -- Its register is a low one, and its label is the address of the literal.
  obtain ⟨instr, hparse, _⟩ := Form.encode_eq_ok.mp hencode
  obtain ⟨rd, hrd, _⟩ := bind_ok_iff.mp hparse
  cases ht.symm.trans (Operand.lowRegister_eq_ok.mp hrd)
  have htarget := hliteral.target (o.addressOf i + mark.offset)
  have hsite : (o.labelsAt (o.addressOf i + mark.offset)).site.toNat ≤ 0xFFFFFFFB := by
    obtain ⟨_, hs', hinside⟩ := hat.inside
    cases hs.symm.trans hs'
    have haddress := himage.address_add_le hs hcode
    rw [Object.labelsAt, BitVec.toNat_ofNat]
    omega
  have hread : Memory.read .word (BitVec.ofNat 32 (o.addressOf i + offset)) b.memory =
      .ok (BitVec.ofInt 32 v) b.memory := by
    obtain ⟨flash, rest, hmemory, hin, hfetch⟩ := himage.fetch_section hs hcode hb hle
    rw [hmemory]
    exact Memory.read_first hin (hfetch.trans hword)
  exact execute_loadLiteral hsite htarget hrd hencode hpc hread

/-- The second of two loads of a label, in another section than the label. -/
theorem literal_load_step_shared :
    let source := "n EQU 7\n AREA text, CODE\nx LDR R1, =n\n AREA more, CODE\n" ++
      " LDR R2, =x\n LDR R3, =x\n"
    ∃ x loaded, assemble source = .ok x ∧ load x (ofConfig {}) = .ok () loaded ∧
      loaded.HoldsImage x ∧
      ∀ b : Board, b.HoldsImage x → b.cpu.regs.pc = 0x08000016 →
        ∃ regs, b.step =
            .ok () { b with cpu := { b.cpu with regs, cycles := b.cpu.cycles + 1 } } ∧
          regs.read (.low 3) = 0x08000008 ∧ regs.read .pc = 0x08000018 ∧
          (∀ r, r ≠ .low 3 → r ≠ .pc → regs.read r = b.cpu.regs.read r) ∧
          regs.flags = b.cpu.regs.flags := by
  intro source
  let p : Program := {
    areas := [
      { name := "text", kind := .code, readOnly := true, records := [
        { label := some "x", mnemonic := "LDR", operands := ["R1", "=n"], line := 2 }] },
      { name := "more", kind := .code, readOnly := true, records := [
        { label := none, mnemonic := "LDR", operands := ["R2", "=x"], line := 4 },
        { label := none, mnemonic := "LDR", operands := ["R3", "=x"], line := 5 }] }]
    constants := [{ name := "n", value := 7, line := 0 }] }
  have hparse : Source.parse source = .ok p := by decide +kernel
  have hload : (assemble source).toOption.any (fun x => match load x (ofConfig {}) with
      | .ok _ _ => true
      | .error _ _ => false) = true := by
    decide +kernel
  have haddresses : (do
      let o ← (Object.ofProgram p).toOption
      let first ← o.marks[0]?
      let last ← o.marks[2]?
      return (o.addressOf 0 + first.offset, o.addressOf 1 + last.offset)) =
        some (0x08000008, 0x08000016) := by
    decide +kernel
  cases hx : assemble source with
  | error e =>
    rw [hx] at hload
    cases hload
  | ok x =>
    rw [hx, Except.toOption, Option.any_some] at hload
    split at hload
    case h_2 => cases hload
    case h_1 u loaded hloaded =>
      obtain ⟨hholds, p', o, hp, ho, _, hrecords⟩ := literal_load_step source x loaded hx hloaded
      rw [hparse] at hp
      cases hp
      obtain ⟨mark, v, hmark, _, _, hdenotes, hstep⟩ :=
        hrecords 1 1 _ _ "R3" (.low 3) "=x" ['x'] rfl rfl rfl rfl rfl (by decide +kernel)
          (by decide +kernel)
      change o.marks[2]? = some mark at hmark
      simp only [Except.toOption, ho, hmark, pure, bind, Option.bind_some] at haddresses
      obtain ⟨first, hfirst, haddresses⟩ := Option.bind_eq_some_iff.mp haddresses
      obtain ⟨hlabel, haddress⟩ := Prod.mk.inj (Option.some.inj haddresses)
      have hvalue := (hdenotes (o.addressOf 0 + first.offset)).mp
        (.label (j := 0) (by decide +kernel) rfl rfl (by decide +kernel) hfirst)
      refine ⟨x, loaded, rfl, hloaded, hholds, ?_⟩
      intro b hb hpc
      obtain rfl : v = 0x08000008 := by omega
      obtain ⟨regs, hresult, hregs⟩ := hstep b hb (by rw [hpc, haddress]; rfl)
      rw [hpc] at hregs
      refine ⟨regs, hresult, hregs.read (.low 3), hregs.read .pc, ?_, hregs.flags⟩
      intro r hlow hnext
      rw [hregs.read, List.lookup_cons, beq_false_of_ne hnext, List.lookup_cons,
        beq_false_of_ne hlow]
      rfl

end Board

end Thumb
