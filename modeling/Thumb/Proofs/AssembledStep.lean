import Thumb.Proofs.Decoding
import Thumb.Proofs.Flash
import Thumb.Proofs.InstructionPlace
import Thumb.Proofs.Linking

namespace Thumb

theorem Object.Relocated.instruction {o : Object} {bytes : Nat → List Byte} {k offset : Nat}
    {r : Record} {form : Form} {placeholder : List Halfword}
    (h : o.Relocated o.body o.relocations bytes)
    (hr : o.InstructionAt k offset r form placeholder) :
    ∃ opcode, form.encode r.operands (some (o.labelsAt (o.addressOf k + offset))) = .ok opcode ∧
      opcode.length = placeholder.length ∧
      ((bytes k).drop offset).take (2 * opcode.length) = Draft.halfwordBytes opcode := by
  cases hlabels : form.needsLabels with
  | true =>
    obtain ⟨new, hnew, hbytes⟩ := h.inside _ (hr.labelled hlabels)
    cases hnew with
    | @code _ _ _ _ _ opcode hencode =>
      rw [encodeInstruction_of_select hr.select] at hencode
      have hlen := (Form.length_of_encode hencode).trans (Form.length_of_encode hr.encode).symm
      exact ⟨opcode, hencode, hlen, hlen ▸ hbytes⟩
  | false =>
    refine ⟨placeholder, (Form.encode_of_not_needsLabels hlabels).trans hr.encode, rfl, ?_⟩
    rw [← hr.bytes]
    apply take_drop_congr
    intro n hn
    apply h.outside
    intro r' hr'
    exact hr.plain hlabels r' hr' n hn

variable {flash : Region} {rest : List Region} {pc : Word}

theorem Memory.read_halfword {opcode : List Halfword}
    (hin : flash.contains pc (2 * opcode.length) = true)
    (hbytes : flash.fetch pc (2 * opcode.length) = Object.Draft.halfwordBytes opcode) {n : Nat}
    {h : Halfword} (hn : opcode[n]? = some h) {addr : Word}
    (haddr : addr.toNat = pc.toNat + 2 * n) :
    Memory.read .halfword addr ⟨flash :: rest⟩ = .ok h ⟨flash :: rest⟩ := by
  have hlt := (List.getElem?_eq_some_iff.mp hn).1
  have hle : 2 * n + Width.halfword.bytes ≤ 2 * opcode.length := by
    rw [Width.bytes]
    omega
  rw [Region.contains_iff] at hin
  apply read_first
  · rw [Region.contains_iff, haddr]
    omega
  · have hoffset : flash.offset addr = flash.offset pc + 2 * n := by
      rw [Region.offset, Region.offset, haddr]
      omega
    rw [Region.fetch_eq_take_drop hbytes hoffset hle]
    exact Object.Draft.take_drop_halfwordBytes hn

namespace Exec

variable {regs : Bank}

theorem onBus_read {memory : Memory} {v : Halfword} {addr : Word}
    (h : Memory.read .halfword addr memory = .ok v memory) :
    (onBus addr (Bus.read .halfword addr) : Exec Memory Halfword) ⟨regs, memory⟩ =
      .ok v ⟨regs, memory⟩ := by
  show onBus addr (Memory.read .halfword addr) _ = _
  rw [onBus, h]
  rfl

theorem attempt_read {memory : Memory} {v : Halfword} {addr : Word}
    (h : Memory.read .halfword addr memory = .ok v memory) :
    (attempt (Bus.read .halfword addr) : Exec Memory (Option Halfword)) ⟨regs, memory⟩ =
      .ok (some v) ⟨regs, memory⟩ := by
  show attempt (Memory.read .halfword addr) _ = _
  rw [attempt, h]
  rfl

theorem exists_attempt_read (addr : Word) (m : Machine Memory) :
    ∃ v, (attempt (Bus.read .halfword addr) : Exec Memory (Option Halfword)) m = .ok v m := by
  obtain ⟨regs, memory⟩ := m
  show ∃ v, attempt (Memory.read .halfword addr) _ = .ok v _
  unfold attempt Memory.read
  dsimp only
  cases memory.find? addr Width.halfword.bytes with
  | none => exact ⟨none, rfl⟩
  | some r => exact ⟨some _, rfl⟩

theorem fetch_encode (i : Instr) (hin : flash.contains pc (2 * i.encode.length) = true)
    (hbytes : flash.fetch pc (2 * i.encode.length) = Object.Draft.halfwordBytes i.encode)
    (hend : pc.toNat + 2 < 0x100000000) :
    fetch pc ⟨regs, (⟨flash :: rest⟩ : Memory)⟩ =
      .ok ⟨i.decodedForm, i.encode⟩ ⟨regs, ⟨flash :: rest⟩⟩ := by
  obtain ⟨first, others, hi⟩ := i.encode_eq_cons
  have hzero : i.encode[0]? = some first := by rw [hi, List.getElem?_cons_zero]
  have hfirst : Memory.read .halfword pc ⟨flash :: rest⟩ = .ok first ⟨flash :: rest⟩ :=
    Memory.read_halfword hin hbytes hzero rfl
  -- What is read after an opcode of one halfword does not matter.
  obtain ⟨second, hsecond, hnext⟩ : ∃ second : Option Halfword,
      (attempt (Bus.read .halfword (pc + 2)) : Exec Memory (Option Halfword))
        ⟨regs, ⟨flash :: rest⟩⟩ = .ok second ⟨regs, ⟨flash :: rest⟩⟩ ∧
      ∀ h, i.encode[1]? = some h → second = some h := by
    cases hone : i.encode[1]? with
    | none =>
      obtain ⟨second, hsecond⟩ := exists_attempt_read (pc + 2) ⟨regs, ⟨flash :: rest⟩⟩
      refine ⟨second, hsecond, ?_⟩
      intro h hh
      cases hh
    | some second =>
      have hnext : (pc + 2).toNat = pc.toNat + 2 * 1 := by
        rw [BitVec.toNat_add]
        exact Nat.mod_eq_of_lt hend
      have hread : Memory.read .halfword (pc + 2) ⟨flash :: rest⟩ =
          .ok second ⟨flash :: rest⟩ :=
        Memory.read_halfword hin hbytes hone hnext
      exact ⟨some second, attempt_read hread, fun _ hh => hh⟩
  have hdecode := i.decode?_of_getElem? hzero hnext
  have hmarker := i.first_ne_endOfCode hi
  simp only [fetch, bind, EStateM.bind, onBus_read hfirst, if_neg hmarker, hsecond, hdecode]
  rfl

end Exec

namespace Board

/-- Executes an opcode of a given form, wherever it came from. -/
def execute (form : Form) (opcode : List Halfword) : EStateM Trap Board Unit :=
  fun b =>
    match form.exec opcode ⟨b.cpu.regs.beginCycle, b.memory⟩ with
    | .ok () ⟨regs, memory⟩ =>
      let next := b.cpu.regs.pc + BitVec.ofNat 32 (2 * opcode.length)
      let regs := if regs.pcWritten then regs else regs.write .pc next
      .ok () { b with cpu := b.cpu.afterCycle regs, memory }
    | .error t ⟨regs, memory⟩ => .error t { b with cpu := { b.cpu with regs }, memory }

theorem step_of_fetch {b : Board} {i : Instr}
    (h : Exec.fetch b.cpu.regs.pc ⟨b.cpu.regs, b.memory⟩ =
      .ok ⟨i.decodedForm, i.encode⟩ ⟨b.cpu.regs, b.memory⟩) :
    b.step = execute i.form i.encode b := by
  obtain ⟨cpu, memory, image⟩ := b
  have hexec : i.form.exec i.encode = (i.exec : Exec Memory Unit) := by
    rw [Form.exec, i.decode_encode]
  simp only [step, execute, Exec.step, bind, EStateM.bind, Exec.regs, h, Exec.onRegs,
    i.exec_decodedForm, hexec, Exec.advance, Form.size, i.length_decodedForm]
  cases i.exec ⟨cpu.regs.beginCycle, memory⟩ with
  | ok u m => rfl
  | error t m => rfl

end Board

/-- An executable that an object is linked to, the bytes of the sections in it, and code that fits
into flash. -/
structure Object.FlashImage (o : Object) (bytes : Nat → List Byte) (x : Executable) : Prop where
  relocated : o.Relocated o.body o.relocations bytes
  content : x.content = o.image bytes
  segments : x.segments = segments o.codeSize o.linkedSize
  fits : o.codeSize ≤ ({} : Config).flashSize

namespace Object.FlashImage

variable {o : Object} {bytes : Nat → List Byte} {x : Executable} {k : Nat} {s : Section}

theorem address_add_le (h : o.FlashImage bytes x) (hs : o.sections[k]? = some s)
    (hkind : s.kind = .code) : o.addressOf k + s.size ≤ 0x08010000 := by
  have hend := fileOffset_add_le_code hs hkind
  have hfits := h.fits
  have hsize : ({} : Config).flashSize = 0x10000 := rfl
  rw [addressOf_code hs hkind]
  omega

theorem fetch_section (h : o.FlashImage bytes x) (hs : o.sections[k]? = some s)
    (hkind : s.kind = .code) {b : Board} (hb : b.HoldsImage x) {offset length : Nat}
    (hle : offset + length ≤ s.size) :
    ∃ flash rest, b.memory = ⟨flash :: rest⟩ ∧
      flash.contains (BitVec.ofNat 32 (o.addressOf k + offset)) length = true ∧
      flash.fetch (BitVec.ofNat 32 (o.addressOf k + offset)) length =
        ((bytes k).drop offset).take length := by
  have hend := fileOffset_add_le_code hs hkind
  obtain ⟨flash, rest, hmemory, hflash⟩ := hb.code h.segments h.fits
  obtain ⟨hin, hfetch⟩ := hflash (o.fileOffset k + offset) length (by omega)
  rw [h.content, take_drop_image_add h.relocated.sized hs hle] at hfetch
  rw [addressOf_code hs hkind, Nat.add_assoc]
  exact ⟨flash, rest, hmemory, hin, hfetch⟩

end Object.FlashImage

namespace Board

theorem load_flashImage {source : String} {x : Executable} {loaded : Board}
    (hx : assemble source = .ok x) (hload : load x (ofConfig {}) = .ok () loaded) :
    loaded.HoldsImage x ∧
    ∃ p o bytes, Source.parse source = .ok p ∧ Object.ofProgram p = .ok o ∧ o.link = .ok x ∧
      o.FlashImage bytes x := by
  obtain ⟨p, hp, h⟩ := bind_ok_iff.mp hx
  obtain ⟨o, ho, hlink⟩ := bind_ok_iff.mp h
  obtain ⟨bytes, hrelocated, rfl⟩ := Object.link_eq_ok (Object.ofProgram_wellFormed ho) hlink
  obtain ⟨hholds, hfits⟩ := load_holdsImage rfl hload
  exact ⟨hholds, p, o, bytes, hp, ho, hlink, hrelocated, rfl, rfl, hfits⟩

section InstructionAt

variable {o : Object} {bytes : Nat → List Byte} {x : Executable} {k offset : Nat} {s : Section}
  {r : Record} {form : Form} {placeholder : List Halfword}

theorem fetch_instructionAt (h : o.FlashImage bytes x) (hs : o.sections[k]? = some s)
    (hkind : s.kind = .code) (hat : o.InstructionAt k offset r form placeholder) {i : Instr}
    (hencode : form.encode r.operands (some (o.labelsAt (o.addressOf k + offset))) = .ok i.encode)
    {b : Board} (hb : b.HoldsImage x) (regs : Bank) :
    Exec.fetch (BitVec.ofNat 32 (o.addressOf k + offset)) ⟨regs, b.memory⟩ =
      .ok ⟨i.decodedForm, i.encode⟩ ⟨regs, b.memory⟩ := by
  obtain ⟨_, hs', hle⟩ := hat.inside
  cases hs.symm.trans hs'
  obtain ⟨opcode, hencode', hlen, hopcode⟩ := h.relocated.instruction hat
  cases hencode.symm.trans hencode'
  rw [← hlen] at hle
  obtain ⟨flash, rest, hmemory, hin, hfetch⟩ := h.fetch_section hs hkind hb hle
  rw [hopcode] at hfetch
  rw [hmemory]
  apply Exec.fetch_encode i hin hfetch
  have haddress := h.address_add_le hs hkind
  rw [BitVec.toNat_ofNat]
  omega

theorem step_instructionAt {opcode : List Halfword} (h : o.FlashImage bytes x)
    (hs : o.sections[k]? = some s) (hkind : s.kind = .code)
    (hat : o.InstructionAt k offset r form placeholder)
    (hencode : form.encode r.operands (some (o.labelsAt (o.addressOf k + offset))) = .ok opcode)
    {b : Board} (hb : b.HoldsImage x)
    (hpc : b.cpu.regs.pc = BitVec.ofNat 32 (o.addressOf k + offset)) :
    b.step = execute form opcode b := by
  obtain ⟨i, hparse, rfl⟩ := Form.encode_eq_ok.mp hencode
  cases Form.form_of_parse hparse
  apply step_of_fetch
  rw [hpc]
  exact fetch_instructionAt h hs hkind hat hencode hb b.cpu.regs

end InstructionAt

end Board

end Thumb
