import Thumb.Proofs.Arithmetic
import Thumb.Proofs.OperandValue

namespace Thumb

inductive Operation
  | adds
  | subs
  | add
  | sub
  | adcs
  | sbcs
  | rsbs
  | muls
  | ands
  | orrs
  | eors
  | bics
  | mvns
  | tst
  | cmp
  | cmn
  | movs
  | mov
  | lsls
  | lsrs
  | asrs
  | rors
  | sxtb
  | sxth
  | uxtb
  | uxth
  | rev
deriving DecidableEq, Repr

namespace Operation

def mnemonic : Operation → String
  | .adds => "ADDS"
  | .subs => "SUBS"
  | .add => "ADD"
  | .sub => "SUB"
  | .adcs => "ADCS"
  | .sbcs => "SBCS"
  | .rsbs => "RSBS"
  | .muls => "MULS"
  | .ands => "ANDS"
  | .orrs => "ORRS"
  | .eors => "EORS"
  | .bics => "BICS"
  | .mvns => "MVNS"
  | .tst => "TST"
  | .cmp => "CMP"
  | .cmn => "CMN"
  | .movs => "MOVS"
  | .mov => "MOV"
  | .lsls => "LSLS"
  | .lsrs => "LSRS"
  | .asrs => "ASRS"
  | .rors => "RORS"
  | .sxtb => "SXTB"
  | .sxth => "SXTH"
  | .uxtb => "UXTB"
  | .uxth => "UXTH"
  | .rev => "REV"

def writes : Operation → Bool
  | .tst | .cmp | .cmn => false
  | _ => true

def setsFlags : Operation → Bool
  | .add | .sub | .mov | .sxtb | .sxth | .uxtb | .uxth | .rev => false
  | _ => true

/-- The exact result of an operation on two words, the second of which may be a shift's amount. -/
def result (op : Operation) (carry : Bool) (a x : Word) (amount : Nat) : Exact :=
  match op with
  | .adds | .add | .cmn => .sum a x false
  | .subs | .sub | .cmp => .difference a x false
  | .adcs => .sum a x carry
  | .sbcs => .difference a x !carry
  | .rsbs => .difference x a false
  | .muls => .product a x
  | .ands | .tst => .ofWord (a &&& x)
  | .orrs => .ofWord (a ||| x)
  | .eors => .ofWord (a ^^^ x)
  | .bics => .ofWord (a &&& ~~~x)
  | .mvns => .complement x
  | .movs | .mov => .ofWord x
  | .lsls => .leftShift a amount
  | .lsrs => .rightShift a.toNat amount
  | .asrs => .rightShift a.toInt amount
  | .rors => .rotation a amount
  | .sxtb => .signExtension 8 x
  | .sxth => .signExtension 16 x
  | .uxtb => .zeroExtension 8 x
  | .uxth => .zeroExtension 16 x
  | .rev => .reversal x

end Operation

/-- The amount of a shift: a number as it is written, or the low byte of a register. -/
def Operand.Value.amount (b : Bank) : Value → Nat
  | .register r => (b.operand r).toNat % 256
  | .immediate i => i.toNat

def Operation.effect (op : Operation) (d : Reg) (a x : Operand.Value) (b : Bank) : Bank :=
  let e := op.result b.flags.c (a.word b) (x.word b) (x.amount b)
  let written := if op.writes then b.writeAny d e.word else b
  if op.setsFlags then written.setFlags (e.flags b.flags) else written

def Unary.operation : Unary → Operation
  | .sxth => .sxth
  | .sxtb => .sxtb
  | .uxth => .uxth
  | .uxtb => .uxtb
  | .rev => .rev

def Shift.operation : Shift → Operation
  | .lsl => .lsls
  | .lsr => .lsrs
  | .asr => .asrs

def AddSub.operation (flags : Bool) : AddSub → Operation
  | .add => if flags then .adds else .add
  | .sub => if flags then .subs else .sub

def DataOp.operation : DataOp → Operation
  | .and => .ands
  | .eor => .eors
  | .lsl => .lsls
  | .lsr => .lsrs
  | .asr => .asrs
  | .adc => .adcs
  | .sbc => .sbcs
  | .ror => .rors
  | .tst => .tst
  | .rsb => .rsbs
  | .cmp => .cmp
  | .cmn => .cmn
  | .orr => .orrs
  | .mul => .muls
  | .bic => .bics
  | .mvn => .mvns

/-- The operations that instructions do, with the immediates that their fields stand for. -/
inductive Instr.Does : Instr → Operation → Reg → Operand.Value → Operand.Value → Prop
  | moveReg (m d : Fin 8) :
    Does (.moveReg m d) .movs (.low d) (.register (.low d)) (.register (.low m))
  | moveImm (d : Fin 8) {u : Nat} (hu : u < 2 ^ 8) :
    Does (.moveImm d (.ofNat 8 u)) .movs (.low d) (.register (.low d)) (.immediate u)
  | moveHigh (m d : Reg) : Does (.moveHigh m d) .mov d (.register d) (.register m)
  | unary (op : Unary) (m d : Fin 8) :
    Does (.unary op m d) op.operation (.low d) (.register (.low d)) (.register (.low m))
  | shiftImm (op : Shift) (m d : Fin 8) {i : Int} (hmin : (if op = .lsl then 0 else 1) ≤ i)
    (hmax : i ≤ if op = .lsl then 31 else 32) :
    Does (.shiftImm op (.ofInt 5 i) m d) op.operation (.low d) (.register (.low m)) (.immediate i)
  | immThree (op : AddSub) (n d : Fin 8) {u : Nat} (hu : u < 2 ^ 3) :
    Does (.immThree op (.ofNat 3 u) n d) (op.operation true) (.low d) (.register (.low n))
      (.immediate u)
  | immEight (op : AddSub) (d : Fin 8) {u : Nat} (hu : u < 2 ^ 8) :
    Does (.immEight op d (.ofNat 8 u)) (op.operation true) (.low d) (.register (.low d))
      (.immediate u)
  | regThree (op : AddSub) (m n d : Fin 8) :
    Does (.regThree op m n d) (op.operation true) (.low d) (.register (.low n))
      (.register (.low m))
  | adjustSp (op : AddSub) {u : Nat} (hu : u < 2 ^ 7) :
    Does (.adjustSp op (.ofNat 7 u)) (op.operation false) .sp (.register .sp)
      (.immediate ((4 : Nat) * u))
  | addSp (d : Fin 8) {u : Nat} (hu : u < 2 ^ 8) :
    Does (.addSp d (.ofNat 8 u)) .add (.low d) (.register .sp) (.immediate ((4 : Nat) * u))
  | addHigh (m d : Reg) : Does (.addHigh m d) .add d (.register d) (.register m)
  | compareImm (n : Fin 8) {u : Nat} (hu : u < 2 ^ 8) :
    Does (.compareImm n (.ofNat 8 u)) .cmp (.low n) (.register (.low n)) (.immediate u)
  | compareHigh (m n : Reg) : Does (.compareHigh m n) .cmp n (.register n) (.register m)
  | data (op : DataOp) (m d : Fin 8) (hop : op ≠ .rsb) :
    Does (.data op m d) op.operation (.low d) (.register (.low d)) (.register (.low m))
  | negate (m d : Fin 8) :
    Does (.data .rsb m d) .rsbs (.low d) (.register (.low m)) (.immediate 0)
  | multiply (m d : Fin 8) :
    Does (.data .mul m d) .muls (.low d) (.register (.low m)) (.register (.low d))

section Effect

variable (b : Bank)

theorem Bank.operand_low (d : Fin 8) : b.operand (.low d) = b.read (.low d) :=
  if_neg (Reg.low_ne_pc d)

theorem Bank.writeAny_low (d : Fin 8) (v : Word) : b.writeAny (.low d) v = b.write (.low d) v := by
  rw [writeAny, if_neg (Reg.low_ne_pc d)]

theorem Unary.apply_eq (op : Unary) (carry : Bool) (a x : Word) (amount : Nat) :
    op.apply x = (op.operation.result carry a x amount).word := by
  cases op with
  | sxth => exact (Exact.word_signExtension 16 x).symm
  | sxtb => exact (Exact.word_signExtension 8 x).symm
  | uxth => exact (Exact.word_zeroExtension 16 x).symm
  | uxtb => exact (Exact.word_zeroExtension 8 x).symm
  | rev => exact (Exact.word_reversal x).symm

theorem AddSub.gives (op : AddSub) (carry : Bool) (a x : Word) (amount : Nat) :
    (op.apply a x).Gives ((op.operation true).result carry a x amount) := by
  cases op with
  | add => exact Alu.add_gives a x
  | sub => exact Alu.sub_gives a x

theorem Shift.gives (op : Shift) (carry : Bool) (a x : Word) {i : Int}
    (hmin : (if op = .lsl then 0 else 1) ≤ i) (hmax : i ≤ if op = .lsl then 31 else 32) :
    (op.apply a (.ofInt 5 i)).Gives (op.operation.result carry a x i.toNat) := by
  -- A field of zero stands for a shift right by 32.
  have hright (hmin : 1 ≤ i) (hmax : i ≤ 32) :
      (if BitVec.ofInt 5 i = 0 then 32 else (BitVec.ofInt 5 i).toNat) = i.toNat := by
    have hzero : (0 : BitVec 5).toNat = 0 := rfl
    simp only [← BitVec.toNat_inj, BitVec.toNat_ofInt, hzero]
    split_ifs <;> omega
  cases op with
  | lsl =>
    have hmin : 0 ≤ i := hmin
    have hmax : i ≤ 31 := hmax
    have hamount : (BitVec.ofInt 5 i).toNat = i.toNat := by
      rw [BitVec.toNat_ofInt]
      omega
    rw [apply, hamount]
    exact Alu.lsl_gives a i.toNat
  | lsr =>
    simp only [apply, hright hmin hmax]
    exact Alu.lsr_gives a i.toNat
  | asr =>
    simp only [apply, hright hmin hmax]
    exact Alu.asr_gives a i.toNat

theorem DataOp.apply_eq (op : DataOp) (hop : op ≠ .rsb) (flags : Flags) (a x : Word) :
    let e := op.operation.result flags.c a x (x.toNat % 256)
    op.apply flags a x = (if op.operation.writes then some e.word else none, e.flags flags) := by
  have hlogical {v : Word} {e : Exact} (h : v = e.word) (hc : e.carry = none)
      (hv : e.overflow = none) :
      (some v, (Alu.nz v).setNz flags) = (some e.word, e.flags flags) := by
    rw [Alu.setNz_nz h hc hv, h]
  have hshifted {s : Alu.Shifted} {e : Exact} (h : s.Gives e) :
      (some s.value, s.setFlags flags) = (some e.word, e.flags flags) := by
    rw [h.value, h.flags]
  have hfull {r : Alu.Result} {e : Exact} (h : r.Gives e) :
      (some r.value, r.setNzcv flags) = (some e.word, e.flags flags) := by
    rw [h.value, h.flags]
  cases op with
  | rsb => exact (hop rfl).elim
  | and => exact hlogical (Exact.word_ofWord _).symm rfl rfl
  | eor => exact hlogical (Exact.word_ofWord _).symm rfl rfl
  | orr => exact hlogical (Exact.word_ofWord _).symm rfl rfl
  | bic => exact hlogical (Exact.word_ofWord _).symm rfl rfl
  | mul => exact hlogical (Exact.word_product a x).symm rfl rfl
  | mvn => exact hlogical (Exact.word_complement x).symm rfl rfl
  | lsl => exact hshifted (Alu.lsl_gives a _)
  | lsr => exact hshifted (Alu.lsr_gives a _)
  | asr => exact hshifted (Alu.asr_gives a _)
  | ror => exact hshifted (Alu.ror_gives a _)
  | adc => exact hfull (Alu.adc_gives a x flags.c)
  | sbc => exact hfull (Alu.sbc_gives a x flags.c)
  | tst => exact congrArg (none, ·) (Alu.setNz_nz (Exact.word_ofWord _).symm rfl rfl flags)
  | cmp => exact congrArg (none, ·) ((Alu.sub_gives a x).flags flags)
  | cmn => exact congrArg (none, ·) ((Alu.add_gives a x).flags flags)

namespace Operand.Value

variable {b}

theorem word_register (r : Reg) : (register r).word b = b.operand r :=
  rfl

theorem word_low (d : Fin 8) : (register (.low d)).word b = b.read (.low d) :=
  b.operand_low d

theorem word_field {bits u : Nat} (hbits : bits ≤ 32) (hu : u < 2 ^ bits) :
    (immediate u).word b = (BitVec.ofNat bits u).setWidth 32 := by
  rw [word, BitVec.setWidth_ofNat_of_le_of_lt hbits hu, BitVec.ofInt_natCast]

theorem word_scaled {bits u : Nat} (hu : u < 2 ^ bits) :
    (immediate ((4 : Nat) * u)).word b = wordOffset (.ofNat bits u) :=
  (Operand.ofNat_field hu 4).symm

end Operand.Value

namespace Operation

variable {op : Operation} (d : Reg) {a x : Operand.Value} {v w : Word}

theorem effect_low (hwrites : op.writes = true) (hflags : op.setsFlags = true) (d : Fin 8) :
    op.effect (.low d) a x b =
      let e := op.result b.flags.c (a.word b) (x.word b) (x.amount b)
      (b.write (.low d) e.word).setFlags (e.flags b.flags) := by
  simp only [effect, hwrites, hflags, if_true, Bank.writeAny_low]

theorem effect_plain (hwrites : op.writes = true) (hflags : op.setsFlags = false) :
    op.effect d a x b =
      b.writeAny d (op.result b.flags.c (a.word b) (x.word b) (x.amount b)).word := by
  simp only [effect, hwrites, hflags, if_true]
  rfl

theorem effect_compare (hwrites : op.writes = false) (hflags : op.setsFlags = true) :
    op.effect d a x b =
      b.setFlags ((op.result b.flags.c (a.word b) (x.word b) (x.amount b)).flags b.flags) := by
  simp only [effect, hwrites, hflags, if_true]
  rfl

variable {b}

theorem effect_movs (hx : x.word b = v) (d : Fin 8) :
    effect .movs (.low d) a x b = (b.write (.low d) v).setFlags ((Alu.nz v).setNz b.flags) := by
  have hword := Exact.word_ofWord v
  rw [effect_low b rfl rfl, result, hx, Alu.setNz_nz hword.symm rfl rfl]
  dsimp only
  rw [hword]

theorem effect_addSub (ha : a.word b = v) (hx : x.word b = w) (op : AddSub) (d : Fin 8) :
    (op.operation true).effect (.low d) a x b =
      (b.write (.low d) (op.apply v w).value).setFlags ((op.apply v w).setNzcv b.flags) := by
  have hgives := op.gives b.flags.c v w (x.amount b)
  rw [effect_low b (by cases op <;> rfl) (by cases op <;> rfl), ha, hx, hgives.value,
    hgives.flags]

theorem effect_cmp (ha : a.word b = v) (hx : x.word b = w) :
    effect .cmp d a x b = b.setFlags ((Alu.sub v w).setNzcv b.flags) := by
  rw [effect_compare b d rfl rfl, result, ha, hx, (Alu.sub_gives v w).flags]

end Operation

open Operation Operand.Value in
theorem Instr.Does.effect {i : Instr} {op : Operation} {d : Reg} {a x : Operand.Value}
    (h : i.Does op d a x) : i.effect b = op.effect d a x b := by
  cases h with
  | moveReg m d => exact (effect_movs (word_low m) d).symm
  | moveImm d hu => exact (effect_movs (word_field (by decide) hu) d).symm
  | moveHigh m d =>
    rw [effect_plain b _ rfl rfl, result, Exact.word_ofWord]
    rfl
  | unary op m d =>
    rw [effect_plain b _ (by cases op <;> rfl) (by cases op <;> rfl), ← op.apply_eq,
      Bank.writeAny_low, word_low]
    rfl
  | @shiftImm op m d i hmin hmax =>
    have hgives := op.gives b.flags.c (b.read (.low m)) (BitVec.ofInt 32 i) hmin hmax
    rw [effect_low b (by cases op <;> rfl) (by cases op <;> rfl), word_low]
    dsimp only [word, amount]
    rw [← hgives.value, ← hgives.flags]
    rfl
  | immThree op n d hu => exact (effect_addSub (word_low n) (word_field (by decide) hu) op d).symm
  | immEight op d hu => exact (effect_addSub (word_low d) (word_field (by decide) hu) op d).symm
  | regThree op m n d => exact (effect_addSub (word_low n) (word_low m) op d).symm
  | adjustSp op hu =>
    rw [effect_plain b _ (by cases op <;> rfl) (by cases op <;> rfl), word_scaled hu]
    cases op with
    | add => exact congrArg (b.write .sp) (Exact.word_sum b.sp _).symm
    | sub => exact congrArg (b.write .sp) (Exact.word_difference b.sp _).symm
  | addSp d hu =>
    rw [effect_plain b _ rfl rfl, result, Exact.word_sum, Bank.writeAny_low, word_scaled hu]
    rfl
  | addHigh m d =>
    rw [effect_plain b _ rfl rfl, result, Exact.word_sum]
    rfl
  | compareImm n hu => exact (effect_cmp _ (word_low n) (word_field (by decide) hu)).symm
  | compareHigh m n => exact (effect_cmp _ (word_register _) (word_register m)).symm
  | data op m d hop =>
    have hflags : op.operation.setsFlags = true := by cases op <;> rfl
    have hamount : (register (.low m)).amount b = (b.read (.low m)).toNat % 256 := by
      rw [amount, Bank.operand_low]
    dsimp only [Instr.effect]
    rw [op.apply_eq hop]
    cases hwrites : op.operation.writes with
    | true =>
      rw [effect_low b hwrites hflags, word_low, word_low, hamount]
      rfl
    | false =>
      rw [effect_compare b _ hwrites hflags, word_low, word_low, hamount]
      rfl
  | negate m d =>
    have hgives := Alu.sub_gives 0 (b.read (.low m))
    rw [effect_low b rfl rfl, result, word_low]
    dsimp only [Instr.effect, DataOp.apply]
    rw [hgives.value, hgives.flags]
    rfl
  | multiply m d =>
    dsimp only [Instr.effect]
    rw [DataOp.apply_eq .mul (by decide), effect_low b rfl rfl, result, word_low, word_low,
      Exact.product_comm]
    rfl

end Effect

end Thumb
