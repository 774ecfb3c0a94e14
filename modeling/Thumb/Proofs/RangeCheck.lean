import Mathlib
import Thumb.Number

namespace Thumb

namespace Decimal.Binary64

/-- The mantissa may be longer than the number, but by no more than the exponent says. -/
theorem toInt?_normal (negative : Bool) (n e : Nat) :
    (normal negative n e).toInt? =
      some (if negative then -((n * 2 ^ e : Nat) : Int) else ((n * 2 ^ e : Nat) : Int)) := by
  unfold normal
  extract_lets room
  rw [toInt?]
  by_cases hle : room ≤ e
  · have hexponent : (e - room : Int) = ((e - room : Nat) : Int) := (Int.ofNat_sub hle).symm
    have hvalue : n * 2 ^ room * 2 ^ (e - room) = n * 2 ^ e := by
      rw [Nat.mul_assoc, ← Nat.pow_add, Nat.add_sub_cancel' hle]
    rw [hexponent, if_pos (Int.natCast_nonneg _), Int.toNat_natCast]
    simp only [Nat.pow_eq, hvalue, Option.map_some]
  · have hexponent : (-(e - room : Int)).toNat = room - e := by omega
    have hvalue : n * 2 ^ room = n * 2 ^ e * 2 ^ (room - e) := by
      rw [Nat.mul_assoc, ← Nat.pow_add, Nat.add_sub_cancel' (by omega)]
    rw [if_neg (by omega), hexponent]
    simp only [Nat.pow_eq, hvalue, Nat.mul_mod_left, if_true, Option.map_some,
      Nat.mul_div_cancel _ (Nat.two_pow_pos _)]

theorem isInteger_ofInt (i : Int) : (ofInt i).isInteger = true := by
  have hnormal (negative : Bool) (n e : Nat) : (normal negative n e).isInteger = true := by
    rw [isInteger, toInt?_normal, Option.isSome_some]
  unfold ofInt
  extract_lets n k m
  split
  · rfl
  · split
    · exact hnormal _ _ (k + 1)
    · exact hnormal _ _ k

end Decimal.Binary64

theorem Number.integral_integer (i : Int) :
    (integer i).integral = if fits128 i then .ok i else .error (.notInteger (.ofInt i)) := by
  have hrounded : (integer i).toBinary64.isInteger = true := Decimal.Binary64.isInteger_ofInt i
  rw [integral, hrounded, toInt?, Option.filter]
  cases fits128 i with
  | true => rfl
  | false => rfl

def Number.refusal (i : Int) (bits : Nat) (interpretation : Interpretation) : ValueError :=
  if -2 ^ 127 ≤ i ∧ i < 2 ^ 127 then .outOfRange (.ofInt i) bits interpretation
  else .notInteger (.ofInt i)

theorem Number.fits128_iff {i : Int} : fits128 i = true ↔ -2 ^ 127 ≤ i ∧ i < 2 ^ 127 := by
  simp [fits128]

namespace Width

variable (w : Width) (i : Int)

theorem bits_pos : 0 < w.bits := by
  cases w <;> decide

theorem fits128_of_range {low high : Int} (hlow : -2 ^ 32 ≤ low) (hhigh : high ≤ 2 ^ 32)
    (h : low ≤ i ∧ i < high) : Number.fits128 i = true := by
  rw [Number.fits128_iff]
  omega

theorem check_integer {low high : Int} (hlow : -2 ^ 32 ≤ low) (hhigh : high ≤ 2 ^ 32)
    (interpretation : Interpretation) :
    ((Number.integer i).integral >>= fun i =>
      if low ≤ i ∧ i < high then .ok (BitVec.ofInt w.bits i)
      else .error (.outOfRange (.ofInt i) w.bits interpretation)) =
    if low ≤ i ∧ i < high then .ok (BitVec.ofInt w.bits i)
    else .error (Number.refusal i w.bits interpretation) := by
  rw [Number.integral_integer]
  by_cases hrange : low ≤ i ∧ i < high
  · rw [if_pos (fits128_of_range i hlow hhigh hrange), if_pos hrange]
    exact if_pos hrange
  · rw [if_neg hrange, Number.refusal]
    by_cases hfits : Number.fits128 i = true
    · rw [if_pos hfits, if_pos (Number.fits128_iff.mp hfits)]
      exact if_neg hrange
    · rw [if_neg hfits, if_neg (mt Number.fits128_iff.mpr hfits)]
      rfl

theorem ofUnsigned_integer :
    w.ofUnsigned (.integer i) =
      if 0 ≤ i ∧ i < 2 ^ w.bits then .ok (BitVec.ofInt w.bits i)
      else .error (Number.refusal i w.bits .unsigned) := by
  have hhigh : (2 ^ w.bits : Int) ≤ 2 ^ 32 := by cases w <;> decide
  rw [← w.check_integer i (by decide) hhigh]
  simp only [ofUnsigned, Nat.pow_eq, Int.natCast_pow, Int.cast_ofNat_Int]
  rfl

theorem ofSigned_integer :
    w.ofSigned (.integer i) =
      if -2 ^ (w.bits - 1) ≤ i ∧ i < 2 ^ (w.bits - 1) then .ok (BitVec.ofInt w.bits i)
      else .error (Number.refusal i w.bits .signed) := by
  have hlow : -2 ^ 32 ≤ (-2 ^ (w.bits - 1) : Int) := by cases w <;> decide
  have hhigh : (2 ^ (w.bits - 1) : Int) ≤ 2 ^ 32 := by cases w <;> decide
  rw [← w.check_integer i hlow hhigh]
  simp only [ofSigned, Nat.pow_eq, Int.natCast_pow, Int.cast_ofNat_Int]
  rfl

variable {i}

theorem toNat_ofInt_of_range (h : 0 ≤ i ∧ i < 2 ^ w.bits) :
    ((BitVec.ofInt w.bits i).toNat : Int) = i := by
  rw [BitVec.toNat_ofInt, Int.natCast_pow, Int.cast_ofNat_Int, Int.emod_eq_of_lt h.1 h.2,
    Int.toNat_of_nonneg h.1]

theorem toInt_ofInt_of_range (h : -2 ^ (w.bits - 1) ≤ i ∧ i < 2 ^ (w.bits - 1)) :
    (BitVec.ofInt w.bits i).toInt = i := by
  have hbits : (2 ^ w.bits : Int) = 2 * 2 ^ (w.bits - 1) := by
    rw [← pow_succ', Nat.sub_add_cancel w.bits_pos]
  rw [BitVec.toInt_ofInt]
  apply Int.bmod_eq_of_le_mul_two <;> push_cast <;> omega

/-- An integer makes a value of a width exactly if it is in the range of the reading, and that value
is read back as it. Any other integer is out of range, but is taken for no integer if it has more
than 128 bits with its sign. -/
theorem integer_construction (x : Int) :
    ((∃ v, w.ofUnsigned (.integer x) = .ok v ∧ (v.toNat : Int) = x) ↔
      0 ≤ x ∧ x ≤ 2 ^ w.bits - 1) ∧
    ((∃ v, w.ofSigned (.integer x) = .ok v ∧ v.toInt = x) ↔
      -2 ^ (w.bits - 1) ≤ x ∧ x ≤ 2 ^ (w.bits - 1) - 1) ∧
    (¬(0 ≤ x ∧ x ≤ 2 ^ w.bits - 1) →
      w.ofUnsigned (.integer x) = .error (Number.refusal x w.bits .unsigned)) ∧
    (¬(-2 ^ (w.bits - 1) ≤ x ∧ x ≤ 2 ^ (w.bits - 1) - 1) →
      w.ofSigned (.integer x) = .error (Number.refusal x w.bits .signed)) := by
  rw [ofUnsigned_integer, ofSigned_integer, Int.le_sub_one_iff, Int.le_sub_one_iff]
  refine ⟨⟨?_, ?_⟩, ⟨?_, ?_⟩, fun h => if_neg h, fun h => if_neg h⟩
  · rintro ⟨v, hv, _⟩
    by_contra h
    rw [if_neg h] at hv
    cases hv
  · intro h
    exact ⟨_, if_pos h, w.toNat_ofInt_of_range h⟩
  · rintro ⟨v, hv, _⟩
    by_contra h
    rw [if_neg h] at hv
    cases hv
  · intro h
    exact ⟨_, if_pos h, w.toInt_ofInt_of_range h⟩

/-- The least integer that has no 128 bits with its sign is refused as if it had a fraction. -/
theorem integer_construction_large :
    Width.byte.ofUnsigned (.integer (2 ^ 127)) = .error (.notInteger (.finite false (2 ^ 52) 75)) ∧
    Width.byte.ofSigned (.integer (2 ^ 127)) = .error (.notInteger (.finite false (2 ^ 52) 75)) ∧
    Decimal.Binary64.toInt? (.finite false (2 ^ 52) 75) = some (2 ^ 127) := by
  decide

end Width

end Thumb
