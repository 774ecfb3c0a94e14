import Thumb.Proofs.BulkWrite
import Thumb.Proofs.Decoding
import Thumb.Proofs.OperandValue
import Thumb.Proofs.RegisterChange

namespace Thumb

namespace Transfer

/-- The word that a load makes of the bytes it finds. -/
def word (k : Transfer) (bytes : List Byte) : Word :=
  if k.signed then BitVec.ofInt 32 (Int.bmod (ofLittleEndian bytes) (256 ^ k.width.bytes))
  else BitVec.ofNat 32 (ofLittleEndian bytes)

/-- What comes of moving a low register to or from an address. The first region that has all the
bytes answers. -/
inductive Outcome (k : Transfer) (addr : Word) (t : Fin 8) (m : Machine Memory) :
    EStateM.Result Trap (Machine Memory) Unit → Prop
  | unaligned (h : addr.toNat % k.width.bytes ≠ 0) : Outcome k addr t m (.error (.unaligned addr) m)
  | unmapped (aligned : addr.toNat % k.width.bytes = 0)
      (h : ¬m.bus.Inside addr.toNat k.width.bytes) :
      Outcome k addr t m (.error (.bus addr (.unmapped addr)) m)
  | loaded {before after : List Region} {r : Region} {bytes : List Byte} {regs : Bank}
      (kind : k.load = true) (aligned : addr.toNat % k.width.bytes = 0)
      (answers : m.bus.Answers addr k.width.bytes before r after)
      (found : (List.range' addr.toNat k.width.bytes).map r.byte? = bytes.map some)
      (becomes : m.regs.Becomes [(.low t, k.word bytes)] m.regs.flags regs) :
      Outcome k addr t m (.ok () ⟨regs, m.bus⟩)
  | stored {before after : List Region} {r r' : Region} (kind : k.load = false)
      (aligned : addr.toNat % k.width.bytes = 0)
      (answers : m.bus.Answers addr k.width.bytes before r after)
      (overwritten :
        r.Overwritten addr (littleEndian k.width.bytes (m.regs.read (.low t)).toNat) r') :
      Outcome k addr t m (.ok () ⟨m.regs, ⟨before ++ r' :: after⟩⟩)

theorem word_eq {k : Transfer} {bytes : List Byte} (h : bytes.length = k.width.bytes) :
    k.word bytes =
      let value := (k.width.ofBytes bytes).setWidth 32
      if k.signed then (value.setWidth k.width.bits).signExtend 32 else value := by
  have hlt : ofLittleEndian bytes < 2 ^ k.width.bits := by
    rw [← k.width.pow_bytes, ← h]
    exact ofLittleEndian_lt bytes
  have hbits : k.width.bits ≤ 32 := by
    cases k.width <;> decide
  dsimp only [word, Width.ofBytes]
  split
  · rw [BitVec.setWidth_setWidth_of_le _ hbits, BitVec.setWidth_eq, BitVec.signExtend,
      BitVec.toInt_ofNat', k.width.pow_bytes]
  · rw [BitVec.setWidth_ofNat_of_le_of_lt hbits hlt]

end Transfer

namespace Exec

variable {w : Width} {addr value : Word} {m : Machine Memory}

theorem bind_checkAligned {α : Type} (h : addr.toNat % w.bytes ≠ 0) (next : Unit → Exec Memory α) :
    (checkAligned w addr >>= next) m = .error (.unaligned addr) m := by
  simp only [checkAligned, if_neg h, bind, EStateM.bind]
  rfl

theorem load_of_aligned (h : addr.toNat % w.bytes = 0) :
    load w addr m =
      match m.bus.find? addr w.bytes with
      | none => .error (.bus addr (.unmapped addr)) m
      | some region => .ok ((w.ofBytes (region.fetch addr w.bytes)).setWidth 32) m := by
  have hread : Bus.read w addr m.bus = Memory.read w addr m.bus := rfl
  simp only [load, checkAligned, if_pos h, bind, EStateM.bind, pure, EStateM.pure, onBus, hread,
    Memory.read]
  cases m.bus.find? addr w.bytes with
  | none => rfl
  | some region => rfl

theorem store_of_aligned (h : addr.toNat % w.bytes = 0) :
    store w addr value m =
      match Memory.alter addr w.bytes (·.store addr (littleEndian w.bytes value.toNat)) m.bus with
      | .ok () bus => .ok () { m with bus }
      | .error e bus => .error (.bus addr e) { m with bus } := by
  have hbytes : w.toBytes (value.setWidth w.bits) = littleEndian w.bytes value.toNat := by
    rw [Width.toBytes, BitVec.toNat_setWidth, ← w.pow_bytes, littleEndian_mod]
  have hwrite : Bus.write w addr (value.setWidth w.bits) m.bus =
      Memory.write w addr (value.setWidth w.bits) m.bus := rfl
  simp only [store, checkAligned, if_pos h, bind, EStateM.bind, pure, EStateM.pure, onBus, hwrite,
    Memory.write, hbytes]
  cases Memory.alter addr w.bytes (·.store addr (littleEndian w.bytes value.toNat)) m.bus with
  | ok u bus => rfl
  | error e bus => rfl

theorem transfer_of_load {k : Transfer} (hkind : k.load = true) (addr : Word) (t : Fin 8)
    (m : Machine Memory) :
    transfer k addr t m =
      match load k.width addr m with
      | .ok value m' =>
        let value := if k.signed then (value.setWidth k.width.bits).signExtend 32 else value
        .ok () ⟨m'.regs.write (.low t) value, m'.bus⟩
      | .error e m' => .error e m' := by
  simp only [transfer, hkind, if_true, bind, EStateM.bind]
  cases load k.width addr m with
  | ok value m' => rfl
  | error e m' => rfl

theorem transfer_of_store {k : Transfer} (hkind : k.load = false) (addr : Word) (t : Fin 8)
    (m : Machine Memory) :
    transfer k addr t m = store k.width addr (m.regs.read (.low t)) m := by
  rw [transfer, hkind]
  rfl

theorem loads_outcome {k : Transfer} (hkind : k.load = true) (addr : Word) (t : Fin 8)
    (m : Machine Memory) : k.Outcome addr t m (transfer k addr t m) := by
  rw [transfer_of_load hkind]
  by_cases haligned : addr.toNat % k.width.bytes = 0
  · rw [load_of_aligned haligned]
    by_cases hinside : m.bus.Inside addr.toNat k.width.bytes
    · obtain ⟨before, r, after, hanswers⟩ := Memory.exists_answers hinside
      have hlength : (r.fetch addr k.width.bytes).length = k.width.bytes := by
        rw [Region.fetch, List.length_map, List.length_range']
      rw [hanswers.find?_eq]
      refine .loaded hkind haligned hanswers (Region.map_byte? hanswers.holds) ?_
      rw [Transfer.word_eq hlength]
      exact (Bank.Becomes.refl m.regs).write (.low t) _
    · rw [Memory.find?_of_not_inside hinside]
      exact .unmapped haligned hinside
  · have hload : load k.width addr m = .error (.unaligned addr) m := bind_checkAligned haligned _
    rw [hload]
    exact .unaligned haligned

theorem stores_outcome {k : Transfer} (hkind : k.load = false) (addr : Word) (t : Fin 8)
    (m : Machine Memory) : k.Outcome addr t m (transfer k addr t m) := by
  rw [transfer_of_store hkind]
  by_cases haligned : addr.toNat % k.width.bytes = 0
  · rw [store_of_aligned haligned]
    by_cases hinside : m.bus.Inside addr.toNat k.width.bytes
    · obtain ⟨before, r, after, hanswers⟩ := Memory.exists_answers hinside
      rw [hanswers.alter_eq]
      apply Transfer.Outcome.stored hkind haligned hanswers
      apply Region.overwritten_store
      rw [length_littleEndian]
      exact .inr hanswers.holds
    · rw [Memory.alter_of_not_inside hinside]
      exact .unmapped haligned hinside
  · have hstore : store k.width addr (m.regs.read (.low t)) m = .error (.unaligned addr) m :=
      bind_checkAligned haligned _
    rw [hstore]
    exact .unaligned haligned

theorem transfer_outcome (k : Transfer) (addr : Word) (t : Fin 8) (m : Machine Memory) :
    k.Outcome addr t m (transfer k addr t m) := by
  cases hkind : k.load with
  | true => exact loads_outcome hkind addr t m
  | false => exact stores_outcome hkind addr t m

end Exec

/-- The form in which a load or store is encoded, by its base register and what is added to it. -/
def RegTransfer.form? (op : RegTransfer) (n : Reg) : Operand.Value → Option Form
  | .register _ => some (.transferReg op)
  | .immediate _ =>
    if op.transfer.signed then none
    else if n ≠ .sp then some (.transferImm op.transfer.load op.transfer.width)
    else if op.transfer.width = .word then some (.transferSp op.transfer.load)
    else none

namespace Form

variable {t mem : String} {n : Reg} {x : Operand.Value} {labels : Option Labels} {instr : Instr}
  {op : RegTransfer} {f : Form}

theorem canEncode_of_address (hmem : Operand.MemoryText mem n x)
    (hone : mem.toList.count ',' ≤ 1) :
    f.canEncode op.mnemonic [t, mem] = true ↔
      Operand.isRegister t = true ∧ op.form? n x = some f := by
  obtain ⟨offset, haddress, hadds⟩ := hmem.address? hone
  have htakes (p : Operand.Address → Bool) :
      transferTakes p [t, mem] = (Operand.isRegister t && p ⟨n, offset⟩) := by
    simp [transferTakes, haddress]
  rw [canEncode, Bool.and_eq_true, answersTo_transfer]
  cases x with
  | register r =>
    have hoffset : offset.isRegister = true := by
      cases hadds
      rfl
    constructor
    · rintro ⟨rfl | ⟨_, rfl⟩ | ⟨_, _, rfl⟩ | ⟨_, rfl⟩, h⟩
      · simpa [takes, htakes, hoffset, RegTransfer.form?] using h
      · simp [takes, htakes, hoffset] at h
      · simp [takes, htakes, hoffset] at h
      · simp [takes, hmem.isLabel] at h
    · rintro ⟨ht, hform⟩
      cases hform
      exact ⟨.inl rfl, by simp [takes, htakes, hoffset, ht]⟩
  | immediate i =>
    have hoffset : offset.isRegister = false := by
      cases hadds <;> rfl
    constructor
    · rintro ⟨rfl | ⟨hsigned, rfl⟩ | ⟨hsigned, hword, rfl⟩ | ⟨_, rfl⟩, h⟩
      · simp [takes, htakes, hoffset] at h
      · simpa [takes, htakes, hoffset, RegTransfer.form?, hsigned] using h
      · simpa [takes, htakes, hoffset, RegTransfer.form?, hsigned, hword] using h
      · simp [takes, hmem.isLabel] at h
    · rintro ⟨ht, hform⟩
      rw [RegTransfer.form?] at hform
      split_ifs at hform with hsigned hbase hword
      · cases hform
        exact ⟨.inr (.inl ⟨Bool.eq_false_iff.mpr hsigned, rfl⟩),
          by simp [takes, htakes, hoffset, ht, hbase]⟩
      · cases hform
        exact ⟨.inr (.inr (.inl ⟨Bool.eq_false_iff.mpr hsigned, hword, rfl⟩)),
          by simp [takes, htakes, hoffset, ht, not_not.mp hbase]⟩

theorem canEncode_transfer (hmem : Operand.MemoryText mem n x) :
    f.canEncode op.mnemonic [t, mem] = true ↔
      Operand.isRegister t = true ∧ mem.toList.count ',' ≤ 1 ∧ op.form? n x = some f := by
  by_cases hone : mem.toList.count ',' ≤ 1
  · rw [canEncode_of_address hmem hone]
    exact and_congr_right fun _ => (and_iff_right hone).symm
  · have htakes (p : Operand.Address → Bool) : transferTakes p [t, mem] = false := by
      simp [transferTakes, hmem.address?_eq_none hone]
    constructor
    · rw [canEncode, Bool.and_eq_true, answersTo_transfer]
      rintro ⟨rfl | ⟨_, rfl⟩ | ⟨_, _, rfl⟩ | ⟨_, rfl⟩, h⟩
      · simp [takes, htakes] at h
      · simp [takes, htakes] at h
      · simp [takes, htakes] at h
      · simp [takes, hmem.isLabel] at h
    · rintro ⟨_, h, _⟩
      exact (hone h).elim

variable {mnemonic : String}

theorem select_transfer (hop : String.ofList (Text.upper mnemonic.toList) = op.mnemonic)
    (hmem : Operand.MemoryText mem n x) :
    select mnemonic [t, mem] = .ok f ↔
      Operand.isRegister t = true ∧ mem.toList.count ',' ≤ 1 ∧ op.form? n x = some f := by
  unfold select
  rw [hop]
  dsimp only
  split
  case h_1 g hg =>
    have hcan := List.find?_some hg
    obtain ⟨ht, hone, hform⟩ := (canEncode_transfer hmem).mp hcan
    rw [hform, Except.ok.injEq, Option.some_inj]
    exact ⟨fun h => ⟨ht, hone, h⟩, fun h => h.2.2⟩
  case h_2 hnone =>
    constructor
    · exact nofun
    · intro h
      exact (List.find?_eq_none.mp hnone f f.mem_all ((canEncode_transfer hmem).mpr h)).elim

theorem low_eq_ok {r : Reg} {d : Fin 8} : low r = .ok d ↔ r = .low d := by
  rw [low, Operand.lowRegister_eq_ok, Reg.parse?_name, Option.some_inj]

section Immediate

variable {i : Int} {load : Bool} {width : Width}

theorem parse_transferSp (h : Operand.MemoryText mem n (.immediate i))
    (hone : mem.toList.count ',' ≤ 1) :
    (transferSp load).parse [t, mem] labels = .ok instr ↔
      ∃ (rt : Fin 8) (u : Nat), Reg.parse? t = some (.low rt) ∧ u < 2 ^ 8 ∧ i = (4 : Nat) * u ∧
        instr = .transferSp load rt (.ofNat 8 u) := by
  obtain ⟨offset, haddress, hadds⟩ := h.address? hone
  have hoffset {u : Nat} := Operand.Address.scaledOffset_eq_ok (a := ⟨n, offset⟩) (u := u) hadds
    (show 8 ≤ 32 by decide) (show 0 < 4 by decide)
  simp only [parse, bind_ok_iff, Operand.lowRegister_eq_ok, Operand.address_eq_ok, haddress,
    Option.some_inj, exists_eq_left', hoffset, pure, Except.pure, Except.ok.injEq, and_assoc,
    exists_and_left, eq_comm (a := instr)]

theorem parse_transferImm (h : Operand.MemoryText mem n (.immediate i))
    (hone : mem.toList.count ',' ≤ 1) :
    (transferImm load width).parse [t, mem] labels = .ok instr ↔
      ∃ (rt rn : Fin 8) (u : Nat), Reg.parse? t = some (.low rt) ∧ n = .low rn ∧ u < 2 ^ 5 ∧
        i = width.bytes * u ∧ instr = .transferImm load width (.ofNat 5 u) rn rt := by
  obtain ⟨offset, haddress, hadds⟩ := h.address? hone
  have hpos : 0 < width.bytes := by
    cases width <;> decide
  have hoffset {u : Nat} := Operand.Address.scaledOffset_eq_ok (a := ⟨n, offset⟩) (u := u) hadds
    (show 5 ≤ 32 by decide) hpos
  simp only [parse, immediateTransfer, bind_ok_iff, Operand.lowRegister_eq_ok,
    Operand.address_eq_ok, haddress, Option.some_inj, exists_eq_left', low_eq_ok, hoffset, pure,
    Except.pure, Except.ok.injEq, and_assoc, exists_and_left, eq_comm (a := instr)]
  constructor
  · rintro ⟨rt, ht, _, ⟨rn, hn, u, hu, hi, rfl⟩, hinstr⟩
    exact ⟨rt, ht, rn, hn, u, hu, hi, hinstr⟩
  · rintro ⟨rt, ht, rn, hn, u, hu, hi, hinstr⟩
    exact ⟨rt, ht, _, ⟨rn, hn, u, hu, hi, rfl⟩, hinstr⟩

end Immediate

theorem parse_transferReg {r : Reg} (h : Operand.MemoryText mem n (.register r))
    (hone : mem.toList.count ',' ≤ 1) :
    (transferReg op).parse [t, mem] labels = .ok instr ↔
      ∃ rt rm rn : Fin 8, Reg.parse? t = some (.low rt) ∧ r = .low rm ∧ n = .low rn ∧
        instr = .transferReg op rm rn rt := by
  obtain ⟨offset, haddress, hadds⟩ := h.address? hone
  cases hadds
  simp only [parse, bind_ok_iff, Operand.lowRegister_eq_ok, Operand.address_eq_ok, haddress,
    Option.some_inj, exists_eq_left', low_eq_ok, pure, Except.pure, Except.ok.injEq,
    exists_and_left, eq_comm (a := instr)]

theorem exists_units {i : Int} {scale max : Nat} (hscale : 0 < scale) :
    (∃ u : Nat, u < max + 1 ∧ i = scale * u) ↔ (scale : Int) ∣ i ∧ 0 ≤ i ∧ i ≤ max * scale := by
  have hpos : (0 : Int) < scale := by omega
  constructor
  · rintro ⟨u, hu, rfl⟩
    have hle : (u : Int) ≤ max := by omega
    rw [mul_comm (max : Int)]
    exact ⟨Int.dvd_mul_right _ _, by positivity, mul_le_mul_of_nonneg_left hle hpos.le⟩
  · rintro ⟨⟨q, rfl⟩, hmin, hmax⟩
    rw [mul_comm (max : Int)] at hmax
    have hq : 0 ≤ q := le_of_mul_le_mul_left (by simpa using hmin) hpos
    have hqmax : q ≤ max := le_of_mul_le_mul_left hmax hpos
    exact ⟨q.toNat, by omega, by rw [Int.toNat_of_nonneg hq]⟩

theorem exec_transfer (hform : op.form? n x = some f) (hmem : Operand.MemoryText mem n x)
    (hone : mem.toList.count ',' ≤ 1) (hparse : f.parse [t, mem] labels = .ok instr) :
    ∃ rt, Reg.parse? t = some (.low rt) ∧ ∀ m : Machine Memory,
      op.transfer.Outcome (m.regs.read n + x.word m.regs) rt m (instr.exec m) := by
  have houtcome (rt : Fin 8) (m : Machine Memory) :=
    Exec.transfer_outcome op.transfer (m.regs.read n + x.word m.regs) rt m
  cases x with
  | register r =>
    cases hform
    obtain ⟨rt, rm, rn, ht, rfl, rfl, rfl⟩ := (parse_transferReg hmem hone).mp hparse
    refine ⟨rt, ht, ?_⟩
    intro m
    have hword : (Operand.Value.register (.low rm)).word m.regs = m.regs.read (.low rm) :=
      if_neg (Reg.low_ne_pc rm)
    have h := houtcome rt m
    rw [hword] at h ⊢
    exact h
  | immediate i =>
    rw [RegTransfer.form?] at hform
    split_ifs at hform with hsigned hbase hword
    · cases hform
      have hk : op.transfer = { load := op.transfer.load, width := op.transfer.width } := by
        rw [← Bool.eq_false_iff.mpr hsigned]
      obtain ⟨rt, rn, u, ht, rfl, hu, rfl, rfl⟩ := (parse_transferImm hmem hone).mp hparse
      refine ⟨rt, ht, ?_⟩
      intro m
      have h := houtcome rt m
      rw [Operand.Value.word, ← Operand.ofNat_field hu, hk] at h ⊢
      exact h
    · cases hform
      have hk : op.transfer = { load := op.transfer.load, width := .word } := by
        rw [← Bool.eq_false_iff.mpr hsigned, ← hword]
      obtain ⟨rt, u, ht, hu, rfl, rfl⟩ := (parse_transferSp hmem hone).mp hparse
      refine ⟨rt, ht, ?_⟩
      intro m
      have h := houtcome rt m
      rw [Operand.Value.word, ← Operand.ofNat_field hu, hk, not_not.mp hbase] at h ⊢
      exact h

theorem parse_transfer_iff {i : Int} (hsigned : op.transfer.signed = false)
    (hmem : Operand.MemoryText mem n (.immediate i)) (hone : mem.toList.count ',' ≤ 1) :
    (∃ f, op.form? n (.immediate i) = some f ∧ ∃ instr, f.parse [t, mem] labels = .ok instr) ↔
      (∃ rt, Reg.parse? t = some (.low rt)) ∧ (op.transfer.width.bytes : Int) ∣ i ∧ 0 ≤ i ∧
        (n.isLow = true ∧ i ≤ 31 * op.transfer.width.bytes ∨
          n = .sp ∧ op.transfer.width = .word ∧ i ≤ 1020) := by
  have hpos : 0 < op.transfer.width.bytes := by
    cases op <;> decide
  constructor
  · rintro ⟨f, hform, instr, hparse⟩
    rw [RegTransfer.form?] at hform
    split_ifs at hform with hsigned hbase hword
    · cases hform
      obtain ⟨rt, rn, u, ht, rfl, hu, hi, rfl⟩ := (parse_transferImm hmem hone).mp hparse
      obtain ⟨hdvd, hmin, hmax⟩ := (exists_units hpos).mp ⟨u, hu, hi⟩
      exact ⟨⟨rt, ht⟩, hdvd, hmin, .inl ⟨decide_eq_true rn.isLt, hmax⟩⟩
    · cases hform
      obtain ⟨rt, u, ht, hu, hi, rfl⟩ := (parse_transferSp hmem hone).mp hparse
      obtain ⟨hdvd, hmin, hmax⟩ := (exists_units (by decide)).mp ⟨u, hu, hi⟩
      rw [hword]
      exact ⟨⟨rt, ht⟩, hdvd, hmin, .inr ⟨not_not.mp hbase, rfl, hmax⟩⟩
  · rintro ⟨⟨rt, ht⟩, hdvd, hmin, ⟨hlow, hmax⟩ | ⟨rfl, hword, hmax⟩⟩
    · obtain ⟨u, hu, hi⟩ := (exists_units hpos).mpr ⟨hdvd, hmin, hmax⟩
      have hbase : n ≠ .sp := by
        rintro rfl
        cases hlow
      have hform : op.form? n (.immediate i) =
          some (.transferImm op.transfer.load op.transfer.width) := by
        rw [RegTransfer.form?, if_neg (by simp [hsigned]), if_pos hbase]
      exact ⟨_, hform, _, (parse_transferImm hmem hone).mpr
        ⟨rt, _, u, ht, (Reg.low_lowOfNat hlow).symm, hu, hi, rfl⟩⟩
    · rw [hword] at hdvd
      have hmax : i ≤ (255 : Nat) * Width.word.bytes := hmax
      obtain ⟨u, hu, hi⟩ := (exists_units (by decide)).mpr ⟨hdvd, hmin, hmax⟩
      have hform : op.form? .sp (.immediate i) = some (.transferSp op.transfer.load) := by
        rw [RegTransfer.form?, if_neg (by simp [hsigned]), if_neg (by simp), if_pos hword]
      exact ⟨_, hform, _, (parse_transferSp hmem hone).mpr ⟨rt, u, ht, hu, hi, rfl⟩⟩

end Form

/-- For every load or store of a memory text. What is encoded accesses the base register plus what
is added to it, for every register bank and memory. Without sign extension, a constant is
accepted exactly when the registers are low, or the base is the stack pointer of a word, and the
constant is a multiple of the size up to the greatest that its field holds, except that no second
comma may stand in the brackets. -/
theorem transfer_text_outcome (op : RegTransfer) (mnemonic t mem : String) (n : Reg)
    (x : Operand.Value) (labels : Option Labels)
    (hop : String.ofList (Text.upper mnemonic.toList) = op.mnemonic)
    (hmem : Operand.MemoryText mem n x) :
    (∀ opcode, encodeInstruction mnemonic [t, mem] labels = .ok opcode →
      ∃ rt, Reg.parse? t = some (.low rt) ∧ ∀ following (m : Machine Memory),
        ∃ result, executeOpcode? opcode following m = some result ∧
          op.transfer.Outcome (m.regs.read n + x.word m.regs) rt m result) ∧
    ∀ i, x = .immediate i → op.transfer.signed = false →
      ((∃ opcode, encodeInstruction mnemonic [t, mem] labels = .ok opcode) ↔
        mem.toList.count ',' ≤ 1 ∧
        (∃ rt, Reg.parse? t = some (.low rt)) ∧ (op.transfer.width.bytes : Int) ∣ i ∧ 0 ≤ i ∧
          (n.isLow = true ∧ i ≤ 31 * op.transfer.width.bytes ∨
            n = .sp ∧ op.transfer.width = .word ∧ i ≤ 1020)) := by
  constructor
  · intro opcode h
    obtain ⟨f, hselect, instr, hparse, rfl⟩ := encodeInstruction_eq_ok.mp h
    obtain ⟨_, hone, hform⟩ := (Form.select_transfer hop hmem).mp hselect
    obtain ⟨rt, ht, hexec⟩ := Form.exec_transfer hform hmem hone hparse
    refine ⟨rt, ht, ?_⟩
    intro following m
    exact ⟨_, instr.executeOpcode?_encode following m, hexec m⟩
  · rintro i rfl hsigned
    constructor
    · rintro ⟨opcode, h⟩
      obtain ⟨f, hselect, instr, hparse, _⟩ := encodeInstruction_eq_ok.mp h
      obtain ⟨_, hone, hform⟩ := (Form.select_transfer hop hmem).mp hselect
      exact ⟨hone, (Form.parse_transfer_iff hsigned hmem hone).mp ⟨f, hform, instr, hparse⟩⟩
    · rintro ⟨hone, h⟩
      obtain ⟨f, hform, instr, hparse⟩ := (Form.parse_transfer_iff hsigned hmem hone).mpr h
      obtain ⟨⟨rt, ht⟩, _⟩ := h
      have hregister : Operand.isRegister t = true := by
        rw [Operand.isRegister, ht]
        rfl
      have hselect := (Form.select_transfer hop hmem).mpr ⟨hregister, hone, hform⟩
      exact ⟨_, encodeInstruction_eq_ok.mpr ⟨f, hselect, instr, hparse, rfl⟩⟩

theorem transfer_text_outcome_stack :
    let mem := " [sp, #0x3FC ]"
    let bank : Bank :=
      { regs := #v[0, 0, 0, 0xAABBCCDD, 0, 0, 0, 0, 0, 0, 0, 0, 0, 0x20000000, 0, 0] }
    let region : Region :=
      { base := 0x200003F8, size := 8, written := Region.overwrite ∅ 4 [0x44, 0, 0, 0x11] }
    encodeInstruction "Ldr" ["r3", mem] none = .ok [0x9BFF] ∧
    encodeInstruction "sTR" ["r3", mem] none = .ok [0x93FF] ∧
    Operand.MemoryText mem .sp (.immediate 1020) ∧
    (∃ regs, executeOpcode? [0x9BFF] none (⟨bank, ⟨[region]⟩⟩ : Machine Memory) =
        some (.ok () ⟨regs, ⟨[region]⟩⟩) ∧
      regs.read (.low 3) = 0x11000044 ∧ ∀ r, r ≠ .low 3 → regs.read r = bank.read r) ∧
    ∃ region', executeOpcode? [0x93FF] none (⟨bank, ⟨[region]⟩⟩ : Machine Memory) =
        some (.ok () ⟨bank, ⟨[region']⟩⟩) ∧
      (List.range' 0x200003FB 6).map region'.byte? =
        [some 0, some 0xDD, some 0xCC, some 0xBB, some 0xAA, none] := by
  intro mem bank region
  have hload : encodeInstruction "Ldr" ["r3", mem] none = .ok [0x9BFF] := by decide +kernel
  have hstore : encodeInstruction "sTR" ["r3", mem] none = .ok [0x93FF] := by decide +kernel
  have htext : Text.trim mem.toList =
      '[' :: ((['s', 'p'] ++ ',' :: [' ', '#', '0', 'x', '3', 'F', 'C', ' ']) ++ [']']) := by
    decide +kernel
  have hmem : Operand.MemoryText mem .sp (.immediate 1020) :=
    .offset htext (by decide +kernel) (by decide +kernel)
  have hlow : ∀ rt : Fin 8, Reg.parse? "r3" = some (.low rt) → rt = 3 := by decide +kernel
  have haddr : bank.read .sp + (Operand.Value.immediate 1020).word bank = 0x200003FC := by decide
  have hinside : Memory.Inside ⟨[region]⟩ (0x200003FC : Word).toNat 4 := by decide
  have honly {before after : List Region} {r : Region} (h : [region] = before ++ r :: after) :
      before = [] ∧ region = r ∧ after = [] := by
    cases before with
    | nil => simpa using h
    | cons s before => simp at h
  refine ⟨hload, hstore, hmem, ?_, ?_⟩
  · obtain ⟨houtcome, _⟩ := transfer_text_outcome .ldr "Ldr" "r3" mem .sp (.immediate 1020)
      none (by decide +kernel) hmem
    obtain ⟨rt, ht, hexecute⟩ := houtcome _ hload
    cases hlow rt ht
    obtain ⟨result, hresult, houtcome⟩ := hexecute none ⟨bank, ⟨[region]⟩⟩
    dsimp only at houtcome
    rw [haddr] at houtcome
    cases houtcome with
    | unaligned h => exact absurd (by decide) h
    | unmapped _ h => exact absurd hinside h
    | stored kind => cases kind
    | @loaded before after r bytes regs _ _ answers found becomes =>
      obtain ⟨rfl, rfl, rfl⟩ := honly answers.regions
      have hfound : (List.range' (0x200003FC : Word).toNat 4).map region.byte? =
          [0x44, 0, 0, 0x11].map some := by
        decide
      obtain rfl := List.map_injective_iff.mpr (Option.some_injective _) (found.symm.trans hfound)
      exact ⟨regs, hresult, (becomes.read (.low 3)).trans (by decide),
        fun r hr => becomes.read_of_ne hr⟩
  · obtain ⟨houtcome, _⟩ := transfer_text_outcome .str "sTR" "r3" mem .sp (.immediate 1020)
      none (by decide +kernel) hmem
    obtain ⟨rt, ht, hexecute⟩ := houtcome _ hstore
    cases hlow rt ht
    obtain ⟨result, hresult, houtcome⟩ := hexecute none ⟨bank, ⟨[region]⟩⟩
    dsimp only at houtcome
    rw [haddr] at houtcome
    cases houtcome with
    | unaligned h => exact absurd (by decide) h
    | unmapped _ h => exact absurd hinside h
    | loaded kind => cases kind
    | @stored before after r r' _ _ answers overwritten =>
      obtain ⟨rfl, rfl, rfl⟩ := honly answers.regions
      refine ⟨r', hresult, ?_⟩
      rw [funext overwritten.byte]
      decide

/-- The constant 44 is refused when it is written as a quoted comma. -/
theorem transfer_text_comma :
    Operand.MemoryText "[R1, #',']" (.low 1) (.immediate 44) ∧
      (RegTransfer.ldr.transfer.width.bytes : Int) ∣ 44 ∧
      (44 : Int) ≤ 31 * RegTransfer.ldr.transfer.width.bytes ∧
      encodeInstruction "LDR" ["R0", "[R1, #44]"] none = .ok [0x6AC8] ∧
      ¬∃ opcode, encodeInstruction "LDR" ["R0", "[R1, #',']"] none = .ok opcode := by
  have htext : Text.trim "[R1, #',']".toList =
      '[' :: ((['R', '1'] ++ ',' :: [' ', '#', '\'', ',', '\'']) ++ [']']) := by
    decide +kernel
  have hrefused : (encodeInstruction "LDR" ["R0", "[R1, #',']"] none).toOption = none := by
    decide +kernel
  refine ⟨.offset htext (by decide +kernel) (by decide +kernel), by decide, by decide,
    by decide +kernel, ?_⟩
  rintro ⟨opcode, h⟩
  rw [h] at hrefused
  cases hrefused

end Thumb
