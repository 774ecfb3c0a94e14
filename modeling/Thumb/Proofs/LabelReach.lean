import Thumb.Instr.Assembly
import Thumb.Memory.Map
import Thumb.Proofs.Decoding
import Thumb.Proofs.Except
import Thumb.Proofs.RegisterChange

namespace Thumb

theorem Word.toNat_and_not_three (w : Word) : (w &&& ~~~(3 : Word)).toNat = w.toNat / 4 * 4 := by
  have hshift : w &&& ~~~(3 : Word) = w >>> 2 <<< 2 := by
    apply BitVec.eq_of_getLsbD_eq
    intro i hi
    have hall : ∀ i < 32, (3 : Word).getLsbD i = decide (i < 2) := by decide
    simp only [BitVec.getLsbD_and, BitVec.getLsbD_not, hall i hi, BitVec.getLsbD_shiftLeft,
      BitVec.getLsbD_ushiftRight, hi, decide_true, Bool.true_and]
    by_cases h2 : i < 2
    · simp [h2]
    · have hpos : 2 + (i - 2) = i := by omega
      simp [h2, hpos]
  have hw := w.isLt
  rw [hshift, BitVec.toNat_shiftLeft, BitVec.toNat_ushiftRight, Nat.shiftLeft_eq,
    Nat.shiftRight_eq_div_pow, Nat.mod_eq_of_lt]
  omega

theorem ofNat_emod (w : Nat) (i : Int) : BitVec.ofNat w (i % 2 ^ w).toNat = BitVec.ofInt w i := by
  have hpos : (0 : Int) < 2 ^ w := Int.pow_pos (by decide)
  have hnonneg := Int.emod_nonneg i (Int.ne_of_gt hpos)
  have hlt : (i % 2 ^ w).toNat < 2 ^ w := by
    rw [Int.toNat_lt hnonneg]
    exact_mod_cast Int.emod_lt_of_pos i hpos
  apply BitVec.eq_of_toNat_eq
  rw [BitVec.toNat_ofNat, BitVec.toNat_ofInt, Nat.mod_eq_of_lt hlt]
  norm_cast

def Labels.distance (labels : Labels) (t : Word) : Int :=
  t.toNat - (labels.site.toNat + 4)

def Labels.Spans (labels : Labels) (min max : Int) (t : Word) : Prop :=
  labels.distance t % 2 = 0 ∧ min ≤ labels.distance t ∧ labels.distance t ≤ max

/-- The distance to an address from the instruction's address plus four, rounded down to a multiple
of four. -/
def Labels.literalDistance (labels : Labels) (t : Word) : Int :=
  t.toNat - (labels.site.toNat + 4) / 4 * 4

theorem Labels.literalDistance_eq {labels : Labels} (hs : labels.site.toNat ≤ 0xFFFFFFFB)
    (t : Word) :
    labels.literalDistance t = t.toNat - (((labels.site + 4) &&& ~~~(3 : Word)).toNat : Int) := by
  have hsite : (labels.site + 4).toNat = labels.site.toNat + 4 := by
    rw [BitVec.toNat_add]
    apply Nat.mod_eq_of_lt
    simp only [BitVec.reduceToNat]
    omega
  rw [literalDistance, Word.toNat_and_not_three, hsite]
  norm_cast

namespace Operand

theorem boundedOffset_eq_ok {label : String} {offset q min max : Int} {scale : Nat} :
    boundedOffset label offset scale min max = .ok q ↔
      scale ≠ 0 ∧ offset % scale = 0 ∧ min ≤ offset / scale ∧ offset / scale ≤ max ∧
        offset / scale = q := by
  unfold boundedOffset
  split
  case isTrue h => simp [h]
  case isFalse h =>
    split
    case isTrue hm => simp [hm]
    case isFalse hm =>
      have hm : offset % scale = 0 := not_not.mp hm
      split
      case isTrue hr =>
        simp only [reduceCtorEq, false_iff]
        rintro ⟨_, _, hmin, hmax, _⟩
        omega
      case isFalse hr =>
        simp only [Except.ok.injEq]
        omega

variable {labels : Labels} {label : String} {t : Word}

theorem signedLabelField_eq_ok {k n : Nat} {min max : Int} (hmin : min = -(2 * 2 ^ k))
    (hmax : max = 2 * 2 ^ k - 2) (ht : labels.targets.get? (Text.trimmed label) = some t) :
    signedLabelField label (some labels) (k + 1) 2 = .ok n ↔
      labels.Spans min max t ∧ (labels.distance t / 2 % 2 ^ (k + 1)).toNat = n := by
  have hoffset : labelOffset label (some labels) false = .ok (labels.distance t) := by
    simp [labelOffset, Labels.offset?, Labels.distance, ht]
  have hpow : ((Nat.pow 2 k : Nat) : Int) = 2 ^ k := by simp
  have hbits : ((Nat.pow 2 (k + 1) : Nat) : Int) = 2 ^ (k + 1) := by simp
  unfold signedLabelField
  simp only [Labels.Spans, hoffset, bind_ok_iff, Except.ok.injEq, exists_eq_left',
    boundedOffset_eq_ok, Nat.add_sub_cancel, hpow, hbits, pure, Except.pure]
  generalize labels.distance t = offset
  generalize (2 ^ k : Int) = half at hmin hmax ⊢
  constructor
  · rintro ⟨q, ⟨_, heven, hlow, hhigh, rfl⟩, hn⟩
    refine ⟨⟨heven, ?_, ?_⟩, hn⟩ <;> omega
  · rintro ⟨⟨heven, hlow, hhigh⟩, hn⟩
    refine ⟨_, ⟨by decide, heven, ?_, ?_, rfl⟩, hn⟩ <;> omega

theorem alignedLabelField_eq_ok (hs : labels.site.toNat ≤ 0xFFFFFFFB)
    (ht : labels.targets.get? (Text.trimmed label) = some t) {n : Nat} :
    alignedLabelField label (some labels) 8 = .ok n ↔
      (t.toNat % 4 = 0 ∧ 0 ≤ labels.literalDistance t ∧ labels.literalDistance t ≤ 1020) ∧
      (labels.literalDistance t / 4).toNat = n := by
  have hdistance : labels.literalDistance t = t.toNat - (labels.site.toNat + 4) / 4 * 4 := rfl
  have hoffset : labelOffset label (some labels) true = .ok (labels.literalDistance t) := by
    simp [labelOffset, Labels.alignedOffset?, Labels.literalDistance_eq hs, ht]
  have hmax : ((Nat.pow 2 8 : Nat) : Int) - 1 = 255 := rfl
  unfold alignedLabelField
  simp only [hoffset, bind_ok_iff, Except.ok.injEq, exists_eq_left', boundedOffset_eq_ok, hmax,
    pure, Except.pure]
  constructor
  · rintro ⟨q, ⟨_, hmod, hmin, hmax, rfl⟩, hn⟩
    refine ⟨⟨?_, ?_, ?_⟩, hn⟩ <;> omega
  · rintro ⟨⟨hmod, hmin, hmax⟩, hn⟩
    refine ⟨_, ⟨by decide, ?_, ?_, ?_, rfl⟩, hn⟩ <;> omega

end Operand

namespace Bank

theorem jump_distance {k : Nat} {min max : Int} (hmin : min = -(2 * 2 ^ k))
    (hmax : max = 2 * 2 ^ k - 2) {b : Bank} {labels : Labels} {t : Word} (hpc : b.pc = labels.site)
    (h : labels.Spans min max t) :
    b.jump (BitVec.ofNat (k + 1) (labels.distance t / 2 % 2 ^ (k + 1)).toNat) = b.write .pc t := by
  obtain ⟨heven, hlow, hhigh⟩ := h
  have ht : (t.toNat : Int) = b.pc.toNat + 4 + labels.distance t := by
    rw [hpc, Labels.distance]
    omega
  generalize labels.distance t = offset at heven hlow hhigh ht ⊢
  have hextend : (BitVec.ofInt (k + 1) (offset / 2)).signExtend 32 =
      BitVec.ofInt 32 (offset / 2) := by
    rw [BitVec.signExtend, BitVec.toInt_ofInt_eq_self] <;> simp <;> omega
  have hdouble : BitVec.ofInt 32 (offset / 2) <<< 1 = BitVec.ofInt 32 offset := by
    have htwice : offset = offset / 2 * 2 := by omega
    rw [BitVec.shiftLeft_eq_mul_twoPow]
    conv_rhs => rw [htwice, BitVec.ofInt_mul]
    rfl
  have hsum : b.pc + 4 + BitVec.ofInt 32 offset = t := by
    have hself : t = BitVec.ofInt 32 t.toNat := by simp
    rw [hself, ht, BitVec.ofInt_add, BitVec.ofInt_add]
    simp
  rw [jump, ofNat_emod, hextend, hdouble]
  exact congrArg (b.write .pc) hsum

theorem literalBase_add {b : Bank} {labels : Labels} {t : Word} (hpc : b.pc = labels.site)
    (hs : labels.site.toNat ≤ 0xFFFFFFFB) (hmod : t.toNat % 4 = 0)
    (hmin : 0 ≤ labels.literalDistance t) (hmax : labels.literalDistance t ≤ 1020) :
    b.literalBase + wordOffset (BitVec.ofNat 8 (labels.literalDistance t / 4).toNat) = t := by
  have hbase : b.literalBase = (labels.site + 4) &&& ~~~(3 : Word) := by
    rw [literalBase, hpc]
  have hround := Word.toNat_and_not_three (labels.site + 4)
  have ht := t.isLt
  rw [Labels.literalDistance_eq hs] at hmin hmax ⊢
  rw [hbase]
  generalize (labels.site + 4) &&& ~~~(3 : Word) = base at hround hmin hmax ⊢
  apply BitVec.eq_of_toNat_eq
  rw [wordOffset, BitVec.toNat_add, BitVec.toNat_ofNat, BitVec.toNat_ofNat]
  omega

end Bank

/-- Loading a word from an aligned address is up to the bus. -/
theorem Exec.transfer_load_word {μ : Type} [Bus μ] {addr : Word} (h : addr.toNat % 4 = 0)
    (d : Fin 8) (m : Machine μ) :
    transfer { load := true, width := .word } addr d m =
      match Bus.read .word addr m.bus with
      | .ok value bus => .ok () ⟨m.regs.write (.low d) value, bus⟩
      | .error e bus => .error (.bus addr e) ⟨m.regs, bus⟩ := by
  obtain ⟨regs, bus⟩ := m
  have haligned : (checkAligned .word addr : Exec μ Unit) = pure () := if_pos h
  simp only [transfer, load, haligned, if_true]
  cases hread : Bus.read .word addr bus with
  | ok value bus' =>
    have hwidth : value.setWidth 32 = value := BitVec.setWidth_eq value
    simp [bind, EStateM.bind, pure, EStateM.pure, onBus, onRegs, hread, hwidth]
  | error e bus' => simp [bind, EStateM.bind, pure, EStateM.pure, onBus, hread]

namespace Form

/-- What a form does with a label: it accepts the operands exactly under a condition, and the opcode
it then gives has an outcome at the address of the instruction. -/
structure Reaches (f : Form) (operands : List String) (labels : Labels) (condition : Prop)
    (outcome : ∀ {μ : Type} [Bus μ], Machine μ → EStateM.Result Trap (Machine μ) Unit → Prop) :
    Prop where
  accepts : (∃ opcode, f.encode operands (some labels) = .ok opcode) ↔ condition
  executes : ∀ {opcode}, f.encode operands (some labels) = .ok opcode →
    ∀ {μ : Type} [Bus μ] (m : Machine μ), m.regs.pc = labels.site → outcome m (f.exec opcode m)

/-- A form that makes an instruction of one field reaches what that instruction reaches. -/
theorem Reaches.of_field (instr : Nat → Instr) {f : Form} {operands : List String}
    {labels : Labels} {condition : Prop}
    {outcome : ∀ {μ : Type} [Bus μ], Machine μ → EStateM.Result Trap (Machine μ) Unit → Prop}
    {field : Except OperandError Nat} {value : Nat} (hform : (instr value).form = f)
    (hparse : f.parse operands (some labels) = field >>= fun n => pure (instr n))
    (hfield : ∀ {n}, field = .ok n ↔ condition ∧ value = n)
    (hexec : condition → ∀ {μ : Type} [Bus μ] (m : Machine μ), m.regs.pc = labels.site →
      outcome m ((instr value).exec m)) :
    f.Reaches operands labels condition outcome := by
  have hok {opcode} : f.encode operands (some labels) = .ok opcode ↔
      condition ∧ (instr value).encode = opcode := by
    simp only [encode, hparse, bind_ok_iff, pure, Except.pure, Except.ok.injEq]
    constructor
    · rintro ⟨_, ⟨n, hn, rfl⟩, hop⟩
      obtain ⟨hc, rfl⟩ := hfield.mp hn
      exact ⟨hc, hop⟩
    · rintro ⟨hc, hop⟩
      exact ⟨_, ⟨value, hfield.mpr ⟨hc, rfl⟩, rfl⟩, hop⟩
  constructor
  · constructor
    · rintro ⟨opcode, h⟩
      exact (hok.mp h).1
    · intro hc
      exact ⟨_, hok.mpr ⟨hc, rfl⟩⟩
  · intro opcode h μ _ m hpc
    obtain ⟨hc, rfl⟩ := hok.mp h
    rw [exec, ← hform, (instr value).decode_encode]
    exact hexec hc m hpc

variable {labels : Labels} {label : String} {t : Word}

theorem branch_reaches (ht : labels.targets.get? (Text.trimmed label) = some t) :
    branch.Reaches [label] labels (labels.Spans (-2048) 2046 t)
      fun m => m.Sets [(.pc, t)] m.bus := by
  have hmin : (-2048 : Int) = -(2 * 2 ^ 10) := by norm_num
  have hmax : (2046 : Int) = 2 * 2 ^ 10 - 2 := by norm_num
  refine .of_field (fun n => .branch (.ofNat 11 n)) rfl rfl
    (Operand.signedLabelField_eq_ok hmin hmax ht) ?_
  intro h μ _ m hpc
  refine ⟨m.regs.write .pc t, ?_, (Bank.Becomes.refl m.regs).write .pc t⟩
  rw [← Bank.jump_distance hmin hmax hpc h]
  rfl

theorem branchIf_reaches (condition : Condition)
    (ht : labels.targets.get? (Text.trimmed label) = some t) :
    (branchIf condition).Reaches [label] labels (labels.Spans (-256) 254 t)
      fun m => m.Sets (if condition.holds m.regs.flags then [(.pc, t)] else []) m.bus := by
  have hmin : (-256 : Int) = -(2 * 2 ^ 7) := by norm_num
  have hmax : (254 : Int) = 2 * 2 ^ 7 - 2 := by norm_num
  refine .of_field (fun n => .branchIf condition (.ofNat 8 n)) rfl rfl
    (Operand.signedLabelField_eq_ok hmin hmax ht) ?_
  intro h μ _ m hpc
  refine ⟨if condition.holds m.regs.flags then m.regs.write .pc t else m.regs, ?_, ?_⟩
  · rw [← Bank.jump_distance hmin hmax hpc h]
    rfl
  · split
    · exact (Bank.Becomes.refl m.regs).write .pc t
    · exact .refl m.regs

theorem branchLink_reaches (ht : labels.targets.get? (Text.trimmed label) = some t) :
    branchLink.Reaches [label] labels (labels.Spans (-16777216) 16777214 t)
      fun m => m.Sets [(.pc, t), (.lr, (labels.site + 4) ||| 1)] m.bus := by
  have hmin : (-16777216 : Int) = -(2 * 2 ^ 23) := by norm_num
  have hmax : (16777214 : Int) = 2 * 2 ^ 23 - 2 := by norm_num
  refine .of_field (fun n => .branchLink (.ofNat 24 n)) rfl rfl
    (Operand.signedLabelField_eq_ok hmin hmax ht) ?_
  intro h μ _ m hpc
  have hkept : (m.regs.write .lr ((labels.site + 4) ||| 1)).pc = labels.site :=
    (m.regs.read_write_of_ne (by decide) _).trans hpc
  have hjump := Bank.jump_distance hmin hmax hkept h
  refine ⟨_, ?_, ((Bank.Becomes.refl m.regs).write .lr ((labels.site + 4) ||| 1)).write .pc t⟩
  rw [← hjump, ← hpc]
  rfl

section Literal

variable (hs : labels.site.toNat ≤ 0xFFFFFFFB)
  (ht : labels.targets.get? (Text.trimmed label) = some t) {op : String} {d : Fin 8}
  (hd : Operand.lowRegister op = .ok d)

include hs ht hd

theorem adr_reaches :
    adr.Reaches [op, label] labels
      (t.toNat % 4 = 0 ∧ 0 ≤ labels.literalDistance t ∧ labels.literalDistance t ≤ 1020)
      fun m => m.Sets [(.low d, t)] m.bus := by
  refine .of_field (fun n => .adr d (.ofNat 8 n)) rfl ?_
    (Operand.alignedLabelField_eq_ok hs ht) ?_
  · rw [parse, hd]
    rfl
  · rintro ⟨hmod, hmin, hmax⟩ μ _ m hpc
    have haddr := Bank.literalBase_add hpc hs hmod hmin hmax
    refine ⟨m.regs.write (.low d) t, ?_, (Bank.Becomes.refl m.regs).write (.low d) t⟩
    exact congrArg
      (fun v => EStateM.Result.ok () (Machine.mk (m.regs.write (.low d) v) m.bus)) haddr

theorem loadLiteral_reaches :
    loadLiteral.Reaches [op, label] labels
      (t.toNat % 4 = 0 ∧ 0 ≤ labels.literalDistance t ∧ labels.literalDistance t ≤ 1020)
      fun m result =>
        match Bus.read .word t m.bus with
        | .ok value bus => m.Sets [(.low d, value)] bus result
        | .error e bus => result = .error (.bus t e) ⟨m.regs, bus⟩ := by
  refine .of_field (fun n => .loadLiteral d (.ofNat 8 n)) rfl ?_
    (Operand.alignedLabelField_eq_ok hs ht) ?_
  · rw [parse, hd]
    rfl
  · rintro ⟨hmod, hmin, hmax⟩ μ _ m hpc
    have haddr := Bank.literalBase_add hpc hs hmod hmin hmax
    have hexec : (Instr.loadLiteral d (.ofNat 8 (labels.literalDistance t / 4).toNat)).exec m =
        Exec.transfer { load := true, width := .word } t d m :=
      congrArg (fun addr => Exec.transfer { load := true, width := .word } addr d m) haddr
    rw [hexec, Exec.transfer_load_word hmod d m]
    cases Bus.read .word t m.bus with
    | ok value bus => exact ⟨_, rfl, (Bank.Becomes.refl m.regs).write (.low d) value⟩
    | error e bus => rfl

end Literal

/-- Label instructions reach exactly their label, and are accepted exactly when they can. -/
theorem label_forms_reach (labels : Labels) (hs : labels.site.toNat ≤ 0xFFFFFFFB) (label : String)
    (t : Word) (ht : labels.targets.get? (Text.trimmed label) = some t) :
    branch.Reaches [label] labels (labels.Spans (-2048) 2046 t)
      (fun m => m.Sets [(.pc, t)] m.bus) ∧
    (∀ condition : Condition,
      (branchIf condition).Reaches [label] labels (labels.Spans (-256) 254 t)
        fun m => m.Sets (if condition.holds m.regs.flags then [(.pc, t)] else []) m.bus) ∧
    branchLink.Reaches [label] labels (labels.Spans (-16777216) 16777214 t)
      (fun m => m.Sets [(.pc, t), (.lr, (labels.site + 4) ||| 1)] m.bus) ∧
    ∀ (op : String) (d : Fin 8), Operand.lowRegister op = .ok d →
      adr.Reaches [op, label] labels
        (t.toNat % 4 = 0 ∧ 0 ≤ labels.literalDistance t ∧ labels.literalDistance t ≤ 1020)
        (fun m => m.Sets [(.low d, t)] m.bus) ∧
      loadLiteral.Reaches [op, label] labels
        (t.toNat % 4 = 0 ∧ 0 ≤ labels.literalDistance t ∧ labels.literalDistance t ≤ 1020)
        fun m result =>
          match Bus.read .word t m.bus with
          | .ok value bus => m.Sets [(.low d, value)] bus result
          | .error e bus => result = .error (.bus t e) ⟨m.regs, bus⟩ := by
  refine ⟨branch_reaches ht, fun condition => branchIf_reaches condition ht,
    branchLink_reaches ht, ?_⟩
  intro op d hd
  exact ⟨adr_reaches hs ht hd, loadLiteral_reaches hs ht hd⟩

/-- The last even site reaches the last word, by a linked branch and as a literal. -/
theorem label_forms_reach_last_word :
    let labels : Labels := ⟨0xFFFFFFFA, .ofList [("last", 0xFFFFFFFC)]⟩
    let m : Machine Memory :=
      ⟨{ regs := #v[0, 0, 0, 0, 0, 0, 0, 0x77, 0, 0, 0, 0, 0, 0x20002000, 0, 0xFFFFFFFA] },
        ⟨[.ofBytes 0xFFFFFFFC [0x44, 0x33, 0x22, 0x11]]⟩⟩
    labels.site.toNat ≤ 0xFFFFFFFB ∧ labels.targets.get? (Text.trimmed " last ") = some 0xFFFFFFFC ∧
      (∃ opcode regs, branchLink.encode [" last "] (some labels) = .ok opcode ∧
        branchLink.exec opcode m = .ok () ⟨regs, m.bus⟩ ∧ regs.read .pc = 0xFFFFFFFC ∧
        regs.read .lr = 0xFFFFFFFF ∧ regs.read (.low 7) = 0x77) ∧
      ∃ opcode regs, loadLiteral.encode ["R7", " last "] (some labels) = .ok opcode ∧
        loadLiteral.exec opcode m = .ok () ⟨regs, m.bus⟩ ∧ regs.read (.low 7) = 0x11223344 ∧
        regs.read .pc = 0xFFFFFFFA := by
  intro labels m
  have hs : labels.site.toNat ≤ 0xFFFFFFFB := by decide
  have ht : labels.targets.get? (Text.trimmed " last ") = some 0xFFFFFFFC := by decide +kernel
  have hd : Operand.lowRegister "R7" = .ok 7 := by decide +kernel
  have hpc : m.regs.pc = labels.site := rfl
  obtain ⟨_, _, hlink, hliteral⟩ := label_forms_reach labels hs " last " 0xFFFFFFFC ht
  obtain ⟨_, hload⟩ := hliteral "R7" 7 hd
  refine ⟨hs, ht, ?_, ?_⟩
  · have hspans : labels.Spans (-16777216) 16777214 0xFFFFFFFC := by
      unfold Labels.Spans
      decide
    obtain ⟨opcode, hencode⟩ := hlink.accepts.mpr hspans
    obtain ⟨regs, hexec, hregs⟩ := hlink.executes hencode m hpc
    have hlr : regs.read .lr = 0xFFFFFFFF := (hregs.read .lr).trans (by decide)
    exact ⟨opcode, regs, hencode, hexec, hregs.read .pc, hlr, hregs.read (.low 7)⟩
  · obtain ⟨opcode, hencode⟩ := hload.accepts.mpr (by decide)
    have hread : Bus.read .word 0xFFFFFFFC m.bus = .ok (0x11223344 : Word) m.bus := rfl
    have houtcome := hload.executes hencode m hpc
    rw [hread] at houtcome
    obtain ⟨regs, hexec, hregs⟩ := houtcome
    exact ⟨opcode, regs, hencode, hexec, hregs.read (.low 7), hregs.read .pc⟩

end Form

end Thumb
