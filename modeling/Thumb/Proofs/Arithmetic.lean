import Mathlib
import Thumb.Instr.Exec

namespace Thumb

/-- An exact result, with the carry and the overflow that it gives, if any. -/
structure Exact where
  value : Int
  carry : Option Bool := none
  overflow : Option Bool := none
deriving DecidableEq, Repr

namespace Exact

def word (e : Exact) : Word :=
  BitVec.ofInt 32 e.value

/-- The flags after a result: those that it does not give stay. -/
def flags (e : Exact) (f : Flags) : Flags :=
  { f with
    n := 2 ^ 31 ≤ e.value % 2 ^ 32
    z := e.value % 2 ^ 32 = 0
    c := e.carry.getD f.c
    v := e.overflow.getD f.v }

def overflows (i : Int) : Bool :=
  i < -2 ^ 31 || 2 ^ 31 ≤ i

/-- A sum, which carries as one of numbers without sign and overflows as one of numbers with
sign. -/
def sum (a b : Word) (carry : Bool) : Exact where
  value := a.toNat + b.toNat + carry.toNat
  carry := some (2 ^ 32 ≤ a.toNat + b.toNat + carry.toNat)
  overflow := some (overflows (a.toInt + b.toInt + carry.toNat))

/-- A difference; carry means that nothing is borrowed. -/
def difference (a b : Word) (borrow : Bool) : Exact where
  value := a.toNat - b.toNat - borrow.toNat
  carry := some (0 ≤ (a.toNat - b.toNat - borrow.toNat : Int))
  overflow := some (overflows (a.toInt - b.toInt - borrow.toNat))

def product (a b : Word) : Exact where
  value := a.toNat * b.toNat

def ofWord (a : Word) : Exact where
  value := a.toNat

def complement (a : Word) : Exact where
  value := 2 ^ 32 - 1 - a.toNat

def zeroExtension (bits : Nat) (a : Word) : Exact where
  value := a.toNat % 2 ^ bits

def signExtension (bits : Nat) (a : Word) : Exact where
  value := Int.bmod a.toNat (2 ^ bits)

def reversal (a : Word) : Exact where
  value := a.toNat % 2 ^ 8 * 2 ^ 24 + a.toNat / 2 ^ 8 % 2 ^ 8 * 2 ^ 16 +
    a.toNat / 2 ^ 16 % 2 ^ 8 * 2 ^ 8 + a.toNat / 2 ^ 24

/-- The product with a power of two, and the last bit beyond the word. -/
def leftShift (a : Word) (n : Nat) : Exact where
  value := a.toNat * 2 ^ n
  carry := if n = 0 then none else some (a.toNat * 2 ^ n / 2 ^ 32 % 2 = 1)

/-- The quotient by a power of two, rounded down, and the last bit below it. -/
def rightShift (a : Int) (n : Nat) : Exact where
  value := a / 2 ^ n
  carry := if n = 0 then none else some (a / 2 ^ (n - 1) % 2 = 1)

/-- The low bits before the others, and the last bit that came around. -/
def rotation (a : Word) (n : Nat) : Exact where
  value := a.toNat / 2 ^ (n % 32) + a.toNat % 2 ^ (n % 32) * 2 ^ (32 - n % 32)
  carry := if n = 0 then none else some (a.toNat / 2 ^ ((n - 1) % 32) % 2 = 1)

end Exact

theorem Exact.eq_word {e : Exact} {v : Word} (h : (v.toNat : Int) = e.value % 2 ^ 32) :
    v = e.word := by
  apply BitVec.eq_of_toNat_eq
  rw [word, BitVec.toNat_ofInt]
  omega

/-- The sign and the zero of an exact result are those of the word that holds it. -/
theorem Exact.flags_of_word {e : Exact} {v : Word} (h : v = e.word) (f : Flags) :
    e.flags f =
      { f with n := v.msb, z := v == 0, c := e.carry.getD f.c, v := e.overflow.getD f.v } := by
  have hn : v.msb = decide (2 ^ 31 ≤ e.value % 2 ^ 32) := by
    rw [h, word, BitVec.msb_eq_decide, BitVec.toNat_ofInt, decide_eq_decide]
    omega
  have hz : (v == 0) = decide (e.value % 2 ^ 32 = 0) := by
    have hzero : (0 : Word).toNat = 0 := rfl
    rw [Bool.eq_iff_iff, beq_iff_eq, decide_eq_true_eq, h, word, ← BitVec.toNat_inj,
      BitVec.toNat_ofInt, hzero]
    omega
  rw [flags, hn, hz]

namespace Alu

structure Result.Gives (r : Result) (e : Exact) : Prop where
  value : r.value = e.word
  flags (f : Flags) : r.setNzcv f = e.flags f

theorem setNz_nz {v : Word} {e : Exact} (h : v = e.word) (hc : e.carry = none)
    (hv : e.overflow = none) (f : Flags) : (nz v).setNz f = e.flags f := by
  rw [Exact.flags_of_word h, hc, hv]
  rfl

theorem Result.Gives.of_flags {r : Result} {e : Exact} {c v : Bool} (hvalue : r.value = e.word)
    (hn : r.n = r.value.msb) (hz : r.z = (r.value == 0)) (hc : e.carry = some c) (hc' : r.c = c)
    (hv : e.overflow = some v) (hv' : r.v = v) : r.Gives e := by
  refine ⟨hvalue, ?_⟩
  intro f
  rw [Exact.flags_of_word hvalue, Result.setNzcv, hn, hz, hc, hc', hv, hv']
  rfl

theorem Result.Gives.unique {r r' : Result} {e : Exact} (h : r.Gives e) (h' : r'.Gives e) :
    r = r' := by
  have hflags := (h.flags {}).trans (h'.flags {}).symm
  simp only [Result.setNzcv, Flags.mk.injEq] at hflags
  obtain ⟨hn, hz, hc, hv, _⟩ := hflags
  have hvalue := h.value.trans h'.value.symm
  cases r
  cases r'
  simp_all

theorem overflow_sum {a b v : Word} {c : Nat} (hc : c ≤ 1)
    (hv : v.toNat = (a.toNat + b.toNat + c) % 2 ^ 32) :
    (a.msb == b.msb && v.msb != a.msb) = Exact.overflows (a.toInt + b.toInt + c) := by
  have ha := a.isLt
  have hb := b.isLt
  rw [Bool.eq_iff_iff]
  simp only [BitVec.msb_eq_decide, hv, BitVec.toInt_eq_toNat_cond, Exact.overflows,
    Bool.and_eq_true, Bool.or_eq_true, beq_iff_eq, bne_iff_ne, ne_eq, decide_eq_decide,
    decide_eq_true_eq]
  split_ifs <;> omega

theorem overflow_difference {a b v : Word} {c : Nat} (hc : c ≤ 1)
    (hv : (v.toNat : Int) = (a.toNat - b.toNat - c) % 2 ^ 32) :
    (a.msb != b.msb && v.msb != a.msb) = Exact.overflows (a.toInt - b.toInt - c) := by
  have ha := a.isLt
  have hb := b.isLt
  rw [Bool.eq_iff_iff]
  simp only [BitVec.msb_eq_decide, BitVec.toInt_eq_toNat_cond, Exact.overflows,
    Bool.and_eq_true, Bool.or_eq_true, bne_iff_ne, ne_eq, decide_eq_decide, decide_eq_true_eq]
  split_ifs <;> omega

theorem adc_gives (a b : Word) (carry : Bool) : (adc a b carry).Gives (.sum a b carry) := by
  have hvalue : (adc a b carry).value = (Exact.sum a b carry).word := by
    rw [Exact.word, Exact.sum, ← Nat.cast_add, ← Nat.cast_add, BitVec.ofInt_natCast]
    rfl
  exact .of_flags hvalue rfl rfl rfl rfl rfl
    (overflow_sum carry.toNat_le (BitVec.toNat_ofNat ..))

theorem add_gives (a b : Word) : (add a b).Gives (.sum a b false) :=
  adc_gives a b false

theorem sbc_gives (a b : Word) (carry : Bool) :
    (sbc a b carry).Gives (.difference a b !carry) := by
  have ha := a.isLt
  have hb := b.isLt
  have hle := carry.toNat_le
  have hborrow : (!carry).toNat = 1 - carry.toNat := by
    cases carry <;> rfl
  have hvalue : ((sbc a b carry).value.toNat : Int) =
      (a.toNat - b.toNat - (!carry).toNat) % 2 ^ 32 := by
    simp only [sbc, nz, BitVec.toNat_ofNat, BitVec.toNat_not, hborrow]
    omega
  have hcarry : (sbc a b carry).c =
      decide (0 ≤ (a.toNat - b.toNat - (!carry).toNat : Int)) := by
    simp only [sbc, BitVec.toNat_not, hborrow, decide_eq_decide]
    omega
  exact .of_flags (Exact.eq_word hvalue) rfl rfl rfl hcarry rfl
    (overflow_difference (!carry).toNat_le hvalue)

theorem sub_gives (a b : Word) : (sub a b).Gives (.difference a b false) := by
  have ha := a.isLt
  have hb := b.isLt
  have hzero : (0 : Word).toNat = 0 := rfl
  have hvalue : ((sub a b).value.toNat : Int) = (a.toNat - b.toNat - (0 : Nat)) % 2 ^ 32 := by
    simp only [sub, add, adc, nz, BitVec.toNat_ofNat, BitVec.toNat_neg, Bool.toNat_false]
    omega
  have hcarry : (sub a b).c = decide (0 ≤ (a.toNat - b.toNat - (0 : Nat) : Int)) := by
    rw [Bool.eq_iff_iff]
    simp only [sub, add, adc, BitVec.toNat_neg, Bool.toNat_false, Bool.or_eq_true,
      decide_eq_true_eq, beq_iff_eq, ← BitVec.toNat_inj, hzero]
    omega
  exact .of_flags (Exact.eq_word hvalue) rfl rfl rfl hcarry rfl
    (overflow_difference (by decide) hvalue)

theorem sub_eq_sbc (a b : Word) : sub a b = sbc a b true :=
  (sub_gives a b).unique (sbc_gives a b true)

theorem sbc_eq_adc (a b : Word) (carry : Bool) : sbc a b carry = adc a (~~~b) carry := by
  have hsign : (a.msb == (~~~b).msb) = (a.msb != b.msb) := by
    rw [BitVec.msb_not]
    cases a.msb <;> cases b.msb <;> rfl
  rw [sbc, adc, hsign]

structure Shifted.Gives (s : Shifted) (e : Exact) : Prop where
  value : s.value = e.word
  flags (f : Flags) : s.setFlags f = e.flags f

theorem Shifted.Gives.of_carry {s : Shifted} {e : Exact} (hvalue : s.value = e.word)
    (hcarry : s.carry = e.carry) (hoverflow : e.overflow = none) : s.Gives e := by
  refine ⟨hvalue, ?_⟩
  intro f
  rw [Exact.flags_of_word hvalue, Shifted.setFlags, hcarry, hoverflow]
  rfl

theorem lsl_gives (a : Word) (n : Nat) : (lsl a n).Gives (.leftShift a n) := by
  have hvalue : a <<< n = (Exact.leftShift a n).word := by
    apply Exact.eq_word
    rw [BitVec.toNat_shiftLeft, Nat.shiftLeft_eq]
    push_cast
    rfl
  have hcarry (h : n ≠ 0) : (Exact.leftShift a n).carry =
      some (decide (a.toNat * 2 ^ n / 2 ^ 32 % 2 = 1)) := if_neg h
  unfold lsl
  split_ifs with hzero hle
  · subst hzero
    exact .of_carry (by simpa using hvalue) rfl rfl
  · have hpow : 2 ^ 32 = 2 ^ (32 - n) * 2 ^ n := by
      rw [← pow_add, Nat.sub_add_cancel hle]
    refine .of_carry hvalue ?_ rfl
    rw [hcarry hzero, BitVec.getLsbD, Nat.testBit_eq_decide_div_mod_eq, hpow,
      Nat.mul_div_mul_right _ _ (Nat.two_pow_pos n)]
  · have hpow : 2 ^ n = 2 ^ (n - 33) * 2 * 2 ^ 32 := by
      rw [← pow_succ, ← pow_add]
      congr 1
      omega
    rw [BitVec.shiftLeft_eq_zero (by omega)] at hvalue
    refine .of_carry hvalue ?_ rfl
    rw [hcarry hzero, hpow, ← mul_assoc, Nat.mul_div_cancel _ (Nat.two_pow_pos 32), ← mul_assoc,
      Nat.mul_mod_left]
    rfl

theorem lsr_gives (a : Word) (n : Nat) : (lsr a n).Gives (.rightShift a.toNat n) := by
  have hvalue : a >>> n = (Exact.rightShift a.toNat n).word := by
    rw [Exact.word, Exact.rightShift]
    norm_cast
    rw [BitVec.ofInt_natCast, ← Nat.shiftRight_eq_div_pow, ← BitVec.toNat_ushiftRight,
      BitVec.ofNat_toNat, BitVec.setWidth_eq]
  have hcarry (h : n ≠ 0) : (Exact.rightShift a.toNat n).carry = some (a.getLsbD (n - 1)) := by
    rw [Exact.rightShift, if_neg h, BitVec.getLsbD, Nat.testBit_eq_decide_div_mod_eq]
    norm_cast
  unfold lsr
  split_ifs with hzero hle
  · subst hzero
    exact .of_carry (by simpa using hvalue) rfl rfl
  · exact .of_carry hvalue (hcarry hzero).symm rfl
  · rw [BitVec.ushiftRight_eq_zero (by omega)] at hvalue
    rw [BitVec.getLsbD_of_ge _ _ (by omega)] at hcarry
    exact .of_carry hvalue (hcarry hzero).symm rfl

/-- Dividing a number with sign by at least its greatest power of two leaves the sign. -/
theorem toInt_ediv_of_le (a : Word) {n : Nat} (h : 31 ≤ n) :
    a.toInt / 2 ^ n = if a.msb then -1 else 0 := by
  have hpow : (2 : Int) ^ 31 ≤ 2 ^ n := pow_le_pow_right₀ (by decide) h
  have hmin := a.le_toInt
  have hmax := a.toInt_lt
  rw [BitVec.msb_eq_toInt]
  split_ifs with hneg
  · rw [decide_eq_true_eq] at hneg
    exact Int.ediv_eq_neg_one_of_neg_of_le hneg (by omega)
  · rw [decide_eq_true_eq] at hneg
    exact Int.ediv_eq_zero_of_lt (by omega) (by omega)

theorem toInt_ediv_emod_two (a : Word) {n : Nat} (h : n ≤ 31) :
    decide (a.toInt / 2 ^ n % 2 = 1) = a.getLsbD n := by
  have hnat : a.getLsbD n = decide ((a.toNat : Int) / 2 ^ n % 2 = 1) := by
    rw [BitVec.getLsbD, Nat.testBit_eq_decide_div_mod_eq]
    norm_cast
  rw [hnat, BitVec.toInt_eq_toNat_cond]
  split_ifs with hsign
  · rfl
  · have hpow : ((2 ^ 32 : Nat) : Int) = 2 * 2 ^ (31 - n) * 2 ^ n := by
      rw [mul_assoc, ← pow_add, Nat.sub_add_cancel h]
      rfl
    rw [hpow, Int.sub_mul_ediv_right _ _ (by positivity), decide_eq_decide]
    omega

theorem asr_gives (a : Word) (n : Nat) : (asr a n).Gives (.rightShift a.toInt n) := by
  have hvalue (n : Nat) : a.sshiftRight n = (Exact.rightShift a.toInt n).word := by
    rw [Exact.word, BitVec.sshiftRight, Int.shiftRight_eq_div_pow]
    push_cast
    rfl
  have hcarry (h : n ≠ 0) : (Exact.rightShift a.toInt n).carry =
      some (decide (a.toInt / 2 ^ (n - 1) % 2 = 1)) := if_neg h
  unfold asr
  split_ifs with hzero hle
  · subst hzero
    exact .of_carry (by simpa using hvalue 0) rfl rfl
  · refine .of_carry (hvalue n) ?_ rfl
    rw [hcarry hzero, toInt_ediv_emod_two a (by omega)]
  · -- Beyond the word only the sign is left, as after 31 places.
    refine .of_carry ((hvalue 31).trans ?_) ?_ rfl
    · simp only [Exact.word, Exact.rightShift]
      rw [toInt_ediv_of_le a (le_refl 31), toInt_ediv_of_le a (by omega)]
    · rw [hcarry hzero, toInt_ediv_of_le a (by omega)]
      cases a.msb <;> rfl

theorem toNat_rotateRight (a : Word) {k : Nat} (h : k < 32) :
    (a.rotateRight k).toNat = a.toNat / 2 ^ k + a.toNat % 2 ^ k * 2 ^ (32 - k) := by
  have hpow : 2 ^ 32 = 2 ^ k * 2 ^ (32 - k) := by
    rw [← pow_add, Nat.add_sub_cancel' h.le]
  have hdiv : a.toNat / 2 ^ k < 2 ^ (32 - k) := Nat.div_lt_of_lt_mul (hpow ▸ a.isLt)
  rw [BitVec.rotateRight_def, Nat.mod_eq_of_lt h, BitVec.toNat_or, BitVec.toNat_ushiftRight,
    BitVec.toNat_shiftLeft, Nat.shiftRight_eq_div_pow, Nat.shiftLeft_eq, hpow,
    Nat.mul_mod_mul_right, Nat.lor_comm, mul_comm, ← Nat.two_pow_add_eq_or_of_lt hdiv, add_comm]

theorem ror_gives (a : Word) (n : Nat) : (ror a n).Gives (.rotation a n) := by
  have hlt := Nat.mod_lt n (show 0 < 32 by decide)
  have hvalue : a.rotateRight (n % 32) = (Exact.rotation a n).word := by
    have hword := (a.rotateRight (n % 32)).isLt
    apply Exact.eq_word
    rw [toNat_rotateRight a hlt] at hword ⊢
    exact (Int.emod_eq_of_lt (Int.natCast_nonneg _) (by exact_mod_cast hword)).symm
  have hcarry (h : n ≠ 0) : (Exact.rotation a n).carry = some (a.rotateRight (n % 32)).msb := by
    rw [Exact.rotation, if_neg h, ← Nat.testBit_eq_decide_div_mod_eq, ← BitVec.getLsbD,
      BitVec.msb_eq_getLsbD_last, BitVec.getLsbD_rotateRight_of_lt hlt]
    -- The last bit that came around is now the first, also after whole turns.
    by_cases hk : n % 32 = 0
    · have hlast : (n - 1) % 32 = 31 := by omega
      simp [hk, hlast]
    · have hlast : (n - 1) % 32 = 31 - (32 - n % 32) := by omega
      have hge : ¬31 < 32 - n % 32 := by omega
      simp [hlast, hge]
  unfold ror
  split_ifs with hzero
  · subst hzero
    refine .of_carry (Exact.eq_word ?_) rfl rfl
    have ha := a.isLt
    simp only [Exact.rotation, Nat.zero_mod, pow_zero, Int.ediv_one, Int.emod_one, zero_mul,
      add_zero]
    omega
  · exact .of_carry hvalue (hcarry hzero).symm rfl

end Alu

namespace Exact

theorem word_ofWord (v : Word) : (ofWord v).word = v := by
  rw [word, ofWord, BitVec.ofInt_natCast, BitVec.ofNat_toNat, BitVec.setWidth_eq]

theorem word_sum (a b : Word) : (sum a b false).word = a + b := by
  symm
  apply eq_word
  simp only [BitVec.toNat_add, sum, Bool.toNat_false]
  omega

theorem word_difference (a b : Word) : (difference a b false).word = a - b := by
  have hb := b.isLt
  symm
  apply eq_word
  simp only [BitVec.toNat_sub, difference, Bool.toNat_false]
  omega

theorem word_product (a b : Word) : (product a b).word = a * b := by
  symm
  apply eq_word
  rw [BitVec.toNat_mul]
  push_cast
  rfl

theorem product_comm (a b : Word) : product a b = product b a := by
  rw [product, product, mul_comm]

theorem word_complement (a : Word) : (complement a).word = ~~~a := by
  have ha := a.isLt
  symm
  apply eq_word
  simp only [BitVec.toNat_not, complement]
  omega

theorem word_zeroExtension (bits : Nat) (a : Word) :
    (zeroExtension bits a).word = (a.setWidth bits).setWidth 32 := by
  symm
  apply eq_word
  rw [BitVec.toNat_setWidth, BitVec.toNat_setWidth]
  push_cast
  rfl

theorem word_signExtension (bits : Nat) (a : Word) :
    (signExtension bits a).word = (a.setWidth bits).signExtend 32 := by
  rw [BitVec.signExtend, BitVec.toInt_setWidth]
  rfl

theorem word_reversal (a : Word) :
    (reversal a).word = Width.word.ofBytes (Width.word.toBytes a).reverse := by
  have hbytes : Width.word.ofBytes (Width.word.toBytes a).reverse =
      BitVec.ofNat 32 (ofLittleEndian [.ofNat 8 (a.toNat / 256 / 256 / 256),
        .ofNat 8 (a.toNat / 256 / 256), .ofNat 8 (a.toNat / 256), .ofNat 8 a.toNat]) := rfl
  have htop : a.toNat / 16777216 % 256 = a.toNat / 16777216 :=
    Nat.mod_eq_of_lt (Nat.div_lt_of_lt_mul a.isLt)
  simp only [Nat.div_div_eq_div_mul] at hbytes
  refine (hbytes.trans (eq_word ?_)).symm
  norm_num [ofLittleEndian, reversal, htop]
  congr 1
  ring

end Exact

end Thumb
