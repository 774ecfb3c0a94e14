import Thumb.Proofs.OperandText
import Thumb.Register.Bank

namespace Thumb

namespace Text

theorem trim_prefix (cs : List Char) : trim cs <+: trimStart cs :=
  List.rdropWhile_prefix isBlank (trimStart cs)

theorem trim_trim (cs : List Char) : trim (trim cs) = trim cs := by
  have hstart : trimStart (trim cs) = trim cs := by
    cases h : trim cs with
    | nil => rfl
    | cons c rest =>
      obtain ⟨after, hafter⟩ := trim_prefix cs
      have hhead : (trimStart cs).head? = some c := by
        rw [← hafter, h]
        rfl
      have hblank := List.head?_dropWhile_not isBlank cs
      rw [← trimStart, hhead] at hblank
      exact List.dropWhile_cons_of_neg (by simp [hblank])
  rw [trim, hstart]
  exact List.rdropWhile_idempotent isBlank (trimStart cs)

end Text

theorem Reg.ofChars?_trim (cs : List Char) : ofChars? (Text.trim cs) = ofChars? cs := by
  rw [ofChars?, Text.trim_trim, ofChars?]

theorem Reg.parse?_name (r : Reg) : parse? r.name = some r := by
  obtain ⟨n⟩ := r
  revert n
  decide

namespace Operand

theorem immediate_eq_ok {op : String} {i : Int} :
    immediate op = .ok i ↔
      ∃ body, Text.trim op.toList = '#' :: body ∧ number? (String.ofList body) = some i := by
  unfold immediate
  split
  case h_1 body hbody =>
    rw [hbody]
    cases hnumber : number? (String.ofList body) with
    | some j => simp [hnumber]
    | none => simp [hnumber]
  case h_2 hno =>
    constructor
    · exact nofun
    · rintro ⟨body, hbody, _⟩
      exact (hno body hbody).elim

theorem immediate_of_trim {op op' : String} (h : Text.trim op.toList = Text.trim op'.toList)
    {i : Int} (hi : immediate op = .ok i) : immediate op' = .ok i := by
  rw [immediate_eq_ok] at hi ⊢
  rwa [← h]

theorem isImmediate_of_immediate {op : String} {i : Int} (h : immediate op = .ok i) :
    isImmediate op = true := by
  obtain ⟨body, hbody, _⟩ := immediate_eq_ok.mp h
  obtain ⟨after, hafter⟩ := Text.trim_prefix op.toList
  rw [isImmediate, ← hafter, hbody]
  rfl

theorem isImmediate_of_register {op : String} {r : Reg} (h : Reg.parse? op = some r) :
    isImmediate op = false := by
  rw [Bool.eq_false_iff]
  intro himm
  have hhead : '#' ∈ Text.trimStart op.toList := List.mem_of_head? (beq_iff_eq.mp himm)
  exact Reg.not_mem_of_ofChars? h (by decide) ((List.dropWhile_sublist _).subset hhead)

theorem scaledImmediate_eq_ok {op : String} {bits scale u : Nat} (hbits : bits ≤ 32)
    (hscale : 0 < scale) :
    scaledImmediate op bits scale = .ok u ↔
      u < 2 ^ bits ∧ immediate op = .ok (scale * u : Int) := by
  have hpow : 2 ^ bits ≤ 2 ^ 32 := Nat.pow_le_pow_right (by decide) hbits
  have hpos : 0 < (scale : Int) := by omega
  rw [scaledImmediate, bind_ok_iff]
  constructor
  · rintro ⟨i, hi, h⟩
    rw [if_neg hscale.ne'] at h
    split at h
    case isTrue => cases h
    case isFalse haligned =>
      dsimp only [pure, Except.pure, bind, Except.bind] at h
      split at h
      case isTrue => cases h
      case isFalse hrange =>
        cases h
        obtain ⟨q, rfl⟩ : (scale : Int) ∣ i := Int.dvd_of_emod_eq_zero (not_not.mp haligned)
        rw [not_or, not_lt, not_lt, mul_comm _ (scale : Int)] at hrange
        have hmin : 0 ≤ q := le_of_mul_le_mul_left (by simpa using hrange.1) hpos
        have hmax : q ≤ Nat.pow 2 bits - 1 := le_of_mul_le_mul_left hrange.2 hpos
        have hq : q < (2 ^ bits : Nat) := Int.lt_of_le_sub_one hmax
        rw [Int.mul_ediv_cancel_left q hpos.ne', Nat.mod_eq_of_lt (by omega)]
        exact ⟨by omega, by rw [hi, Int.toNat_of_nonneg hmin]⟩
  · rintro ⟨hu, hi⟩
    refine ⟨_, hi, ?_⟩
    have hmax : (scale * u : Int) ≤ ((Nat.pow 2 bits : Nat) - 1) * scale := by
      rw [mul_comm]
      exact mul_le_mul_of_nonneg_right (Int.le_sub_one_of_lt (Int.ofNat_lt.mpr hu)) hpos.le
    have hmin : 0 ≤ (scale * u : Int) := Int.mul_nonneg hpos.le (Int.natCast_nonneg u)
    have hfield : u % 0x100000000 = u := Nat.mod_eq_of_lt (hu.trans_le hpow)
    have hrange : ¬((scale * u : Int) < 0 ∨
        ((Nat.pow 2 bits : Nat) - 1) * scale < (scale * u : Int)) := by
      omega
    rw [if_neg hscale.ne', Int.mul_emod_right, Int.mul_ediv_cancel_left _ hpos.ne',
      Int.toNat_natCast, hfield]
    dsimp only
    rw [if_neg (not_not.mpr rfl), if_neg hrange]
    rfl

theorem ofNat_field {bits u : Nat} (hu : u < 2 ^ bits) (scale : Nat) :
    BitVec.ofNat 32 (scale * (BitVec.ofNat bits u).toNat) = BitVec.ofInt 32 (scale * u : Int) := by
  rw [BitVec.toNat_ofNat, Nat.mod_eq_of_lt hu, ← Nat.cast_mul, BitVec.ofInt_natCast]

inductive Value
  | register (r : Reg)
  | immediate (i : Int)
deriving DecidableEq, Repr

def value? (op : String) : Option Value :=
  match Reg.parse? op with
  | some r => some (.register r)
  | none => (immediate op).toOption.map .immediate

theorem value?_eq_register {op : String} {r : Reg} :
    value? op = some (.register r) ↔ Reg.parse? op = some r := by
  unfold value?
  cases Reg.parse? op with
  | some r' => simp
  | none => simp

theorem value?_eq_immediate {op : String} {i : Int} :
    value? op = some (.immediate i) ↔ immediate op = .ok i := by
  unfold value?
  cases hr : Reg.parse? op with
  | some r =>
    constructor
    · exact nofun
    · intro hi
      have himm := isImmediate_of_immediate hi
      rw [isImmediate_of_register hr] at himm
      cases himm
  | none =>
    cases immediate op with
    | ok j => simp [Except.toOption]
    | error e => simp [Except.toOption]

/-- The word that a value has; the program counter reads four bytes ahead. -/
def Value.word (b : Bank) : Value → Word
  | .register r => b.operand r
  | .immediate i => BitVec.ofInt 32 i

/-- The texts `[Rn]`, `[Rn, #imm]` and `[Rn, Rm]`, with what is added to the base register. -/
inductive MemoryText (op : String) (n : Reg) : Value → Prop
  | base {rn : List Char} (text : Text.trim op.toList = '[' :: (rn ++ [']']))
    (base : Reg.ofChars? rn = some n) : MemoryText op n (.immediate 0)
  | offset {rn cs : List Char} {x : Value}
    (text : Text.trim op.toList = '[' :: ((rn ++ ',' :: cs) ++ [']']))
    (base : Reg.ofChars? rn = some n) (offset : value? (String.ofList cs) = some x) :
    MemoryText op n x

/-- The offsets that stand for a value. -/
inductive Offset.Adds : Offset → Value → Prop
  | none : Adds .none (.immediate 0)
  | immediate {text : String} {i : Int} (h : Operand.immediate text = .ok i) :
    Adds (.immediate text) (.immediate i)
  | register (r : Reg) : Adds (.register r) (.register r)

theorem address_eq_ok {op : String} {a : Address} : address op = .ok a ↔ address? op = some a := by
  unfold address
  cases address? op with
  | some a' => simp
  | none => simp

theorem Address.scaledOffset_eq_ok {a : Address} {i : Int} {bits scale u : Nat}
    (h : a.offset.Adds (.immediate i)) (hbits : bits ≤ 32) (hscale : 0 < scale) :
    a.scaledOffset bits scale = .ok u ↔ u < 2 ^ bits ∧ i = scale * u := by
  obtain ⟨base, offset⟩ := a
  cases h with
  | none =>
    simp only [scaledOffset, Except.ok.injEq]
    constructor
    · rintro rfl
      simp
    · rintro ⟨_, hzero⟩
      have hu := mul_eq_zero.mp hzero.symm
      omega
  | immediate h =>
    rw [scaledOffset, scaledImmediate_eq_ok hbits hscale, h, Except.ok.injEq]

theorem between?_append (first last : Char) (cs : List Char) :
    between? first last (first :: (cs ++ [last])) = some cs := by
  simp [between?]

theorem eq_of_between? {first last : Char} {cs inner : List Char}
    (h : between? first last cs = some inner) : cs = first :: (inner ++ [last]) := by
  unfold between? at h
  split at h
  · cases h
  case h_2 d rest =>
    split at h
    case isFalse => cases h
    case isTrue hends =>
      cases h
      rw [hends.1, List.dropLast_append_getLast? last hends.2]

theorem offset?_trim {cs : List Char} {x : Value} (h : value? (String.ofList cs) = some x) :
    ∃ offset, offset? (Text.trim cs) = some offset ∧ offset.Adds x := by
  have htrim : Text.trim (String.ofList cs).toList =
      Text.trim (String.ofList (Text.trim cs)).toList := by
    rw [String.toList_ofList, String.toList_ofList, Text.trim_trim]
  cases x with
  | register r =>
    have hr : Reg.parse? (String.ofList (Text.trim cs)) = some r := by
      rw [value?_eq_register, Reg.parse?, String.toList_ofList] at h
      rw [Reg.parse?, String.toList_ofList, Reg.ofChars?_trim, h]
    refine ⟨.register r, ?_, .register r⟩
    rw [offset?, isImmediate_of_register hr]
    rw [Reg.parse?, String.toList_ofList] at hr
    simp [hr]
  | immediate i =>
    have hi := immediate_of_trim htrim (value?_eq_immediate.mp h)
    exact ⟨_, if_pos (isImmediate_of_immediate hi), .immediate hi⟩

namespace MemoryText

variable {op : String} {n : Reg} {x : Value}

theorem count_comma {rn cs : List Char}
    (text : Text.trim op.toList = '[' :: ((rn ++ ',' :: cs) ++ [']']))
    (base : Reg.ofChars? rn = some n) : op.toList.count ',' = cs.count ',' + 1 := by
  have hcomma := Reg.not_mem_of_ofChars? base (c := ',') (by decide)
  rw [← Text.count_trim (by decide), text]
  simp [List.count_append, List.count_eq_zero.mpr hcomma]

theorem address? (h : MemoryText op n x) (hone : op.toList.count ',' ≤ 1) :
    ∃ offset, address? op = some ⟨n, offset⟩ ∧ offset.Adds x := by
  cases h with
  | base text base =>
    refine ⟨.none, ?_, .none⟩
    have hcomma := Reg.not_mem_of_ofChars? base (c := ',') (by decide)
    rw [Operand.address?, text, between?_append]
    simp [List.splitOn_eq_singleton hcomma, Reg.ofChars?_trim, base]
  | @offset rn cs _ text base offset =>
    obtain ⟨added, hadded, hadds⟩ := offset?_trim offset
    refine ⟨added, ?_, hadds⟩
    have hcomma := Reg.not_mem_of_ofChars? base (c := ',') (by decide)
    have hnone : ',' ∉ cs := by
      rw [← List.count_eq_zero]
      rw [count_comma text base] at hone
      omega
    rw [Operand.address?, text, between?_append]
    simp [List.splitOn_append_cons_self_of_not_mem hcomma, List.splitOn_eq_singleton hnone,
      Reg.ofChars?_trim, base, hadded]

/-- Brackets are cut at every comma, also where one is quoted. -/
theorem address?_eq_none (h : MemoryText op n x) (hmany : ¬op.toList.count ',' ≤ 1) :
    Operand.address? op = none := by
  cases h with
  | @base rn text base =>
    have hcomma := Reg.not_mem_of_ofChars? base (c := ',') (by decide)
    rw [← Text.count_trim (by decide), text] at hmany
    simp [List.count_append, List.count_eq_zero.mpr hcomma] at hmany
  | @offset rn cs _ text base offset =>
    have hcomma := Reg.not_mem_of_ofChars? base (c := ',') (by decide)
    have hmem : ',' ∈ cs := by
      rw [← List.count_pos_iff]
      rw [count_comma text base] at hmany
      omega
    obtain ⟨before, after, rfl, hbefore⟩ := List.eq_append_cons_of_mem hmem
    obtain ⟨piece, pieces, hpieces⟩ := List.exists_cons_of_ne_nil (List.splitOn_ne_nil ',' after)
    rw [Operand.address?, text, between?_append]
    simp [List.splitOn_append_cons_self_of_not_mem hcomma,
      List.splitOn_append_cons_self_of_not_mem hbefore, hpieces]

theorem isLabel (h : MemoryText op n x) : isLabel op = false := by
  cases h with
  | base text _ =>
    rw [Operand.isLabel, text]
    rfl
  | offset text _ _ =>
    rw [Operand.isLabel, text]
    rfl

end MemoryText

end Operand

end Thumb
