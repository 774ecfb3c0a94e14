import Mathlib
import Thumb.Word

namespace Thumb

theorem length_littleEndian (count n : Nat) : (littleEndian count n).length = count := by
  induction count generalizing n with
  | zero => rfl
  | succ count ih => rw [littleEndian, List.length_cons, ih]

theorem ofLittleEndian_lt (bytes : List Byte) : ofLittleEndian bytes < 256 ^ bytes.length := by
  induction bytes with
  | nil => decide
  | cons b bs ih =>
    have hb := b.isLt
    rw [ofLittleEndian, List.length_cons, pow_succ]
    omega

theorem littleEndian_mod (count n : Nat) :
    littleEndian count (n % 256 ^ count) = littleEndian count n := by
  induction count generalizing n with
  | zero => rfl
  | succ count ih =>
    have hbyte : BitVec.ofNat 8 (n % (256 * 256 ^ count)) = BitVec.ofNat 8 n :=
      BitVec.eq_of_toNat_eq (Nat.mod_mul_right_mod n 256 _)
    rw [littleEndian, littleEndian, pow_succ', Nat.mod_mul_right_div_self, ih, hbyte]

theorem ofLittleEndian_littleEndian (count n : Nat) :
    ofLittleEndian (littleEndian count n) = n % 256 ^ count := by
  induction count generalizing n with
  | zero =>
    rw [Nat.pow_zero, Nat.mod_one]
    rfl
  | succ count ih =>
    have hsplit : n % 256 ^ (count + 1) = n % 256 + 256 * (n / 256 % 256 ^ count) := by
      rw [Nat.pow_succ', Nat.mod_mul]
    rw [littleEndian, ofLittleEndian, ih, BitVec.toNat_ofNat, hsplit]

theorem littleEndian_ofLittleEndian (bytes : List Byte) :
    littleEndian bytes.length (ofLittleEndian bytes) = bytes := by
  induction bytes with
  | nil => rfl
  | cons b bs ih =>
    have hb := b.isLt
    have hfirst : BitVec.ofNat 8 (b.toNat + 256 * ofLittleEndian bs) = b := by
      apply BitVec.eq_of_toNat_eq
      rw [BitVec.toNat_ofNat]
      omega
    have hrest : (b.toNat + 256 * ofLittleEndian bs) / 256 = ofLittleEndian bs := by omega
    rw [List.length_cons, ofLittleEndian, littleEndian, hfirst, hrest, ih]

theorem getElem?_littleEndian {count i : Nat} (hi : i < count) (n : Nat) :
    (littleEndian count n)[i]? = some (BitVec.ofNat 8 (n / 256 ^ i)) := by
  induction count generalizing n i with
  | zero => cases hi
  | succ count ih =>
    cases i with
    | zero => rw [littleEndian, List.getElem?_cons_zero, Nat.pow_zero, Nat.div_one]
    | succ i =>
      rw [littleEndian, List.getElem?_cons_succ, ih (Nat.lt_of_succ_lt_succ hi), Nat.pow_succ',
        Nat.div_div_eq_div_mul]

namespace Width

variable (w : Width)

theorem pow_bytes : 256 ^ w.bytes = 2 ^ w.bits := by
  cases w <;> rfl

theorem length_toBytes (v : BitVec w.bits) : (w.toBytes v).length = w.bytes :=
  length_littleEndian _ _

theorem ofBytes_toBytes (v : BitVec w.bits) : w.ofBytes (w.toBytes v) = v := by
  rw [ofBytes, toBytes, ofLittleEndian_littleEndian, pow_bytes, Nat.mod_eq_of_lt v.isLt,
    BitVec.ofNat_toNat, BitVec.setWidth_eq]

theorem toBytes_ofBytes {bytes : List Byte} (h : bytes.length = w.bytes) :
    w.toBytes (w.ofBytes bytes) = bytes := by
  have hlt : ofLittleEndian bytes < 2 ^ w.bits := by
    rw [← w.pow_bytes, ← h]
    exact ofLittleEndian_lt bytes
  rw [toBytes, ofBytes, BitVec.toNat_ofNat, Nat.mod_eq_of_lt hlt, ← h, littleEndian_ofLittleEndian]

theorem getElem?_toBytes {i : Nat} (hi : i < w.bytes) (v : BitVec w.bits) :
    (w.toBytes v)[i]? = some (v.extractLsb' (8 * i) 8) := by
  rw [toBytes, getElem?_littleEndian hi, BitVec.extractLsb', Nat.shiftRight_eq_div_pow, Nat.pow_mul]

theorem toBytes_eq_map (v : BitVec w.bits) :
    w.toBytes v = (List.range w.bytes).map fun i => v.extractLsb' (8 * i) 8 := by
  apply List.ext_getElem?
  intro i
  by_cases hi : i < w.bytes
  · rw [w.getElem?_toBytes hi, List.getElem?_map, List.getElem?_range hi]
    rfl
  · rw [List.getElem?_eq_none, List.getElem?_eq_none]
    · rw [List.length_map, List.length_range]
      exact Nat.le_of_not_lt hi
    · rw [length_toBytes]
      exact Nat.le_of_not_lt hi

end Width

end Thumb
