import Mathlib
import Thumb.Alu

namespace Thumb.Alu

inductive Shifter
  | lsl
  | lsr
  | asr
  | ror
deriving DecidableEq, Repr

namespace Shifter

def shift : Shifter → Word → Nat → Shifted
  | .lsl => Alu.lsl
  | .lsr => Alu.lsr
  | .asr => Alu.asr
  | .ror => Alu.ror

/-- One more place, after which only the bit that went out last is kept. -/
def next (s : Shifter) (done : Shifted) : Shifted :=
  s.shift done.value 1

/-- What is left of a word, without a limit to the places. -/
def moved : Shifter → Word → Nat → Word
  | .lsl, v, n => v <<< n
  | .lsr, v, n => v >>> n
  | .asr, v, n => v.sshiftRight n
  | .ror, v, n => v.rotateRight n

/-- The bit that the next place moves out. -/
def lastBit : Shifter → Word → Bool
  | .lsl, v => v.msb
  | _, v => v.getLsbD 0

theorem getLsbD_rotateRight (v : Word) (n : Nat) {i : Nat} (hi : i < 32) :
    (v.rotateRight n).getLsbD i = v.getLsbD ((n + i) % 32) := by
  rw [BitVec.getLsbD_rotateRight]
  by_cases h : i < 32 - n % 32
  · have hpos : n % 32 + i = (n + i) % 32 := by omega
    simp [h, hpos]
  · have hpos : i - (32 - n % 32) = (n + i) % 32 := by omega
    simp [h, hi, hpos]

theorem moved_succ (s : Shifter) (v : Word) (n : Nat) :
    s.moved v (n + 1) = s.moved (s.moved v n) 1 := by
  cases s with
  | lsl => exact BitVec.shiftLeft_add v n 1
  | lsr => exact BitVec.shiftRight_add v n 1
  | asr => exact BitVec.sshiftRight_add
  | ror =>
    apply BitVec.eq_of_getLsbD_eq
    intro i hi
    have hlt : (1 + i) % 32 < 32 := Nat.mod_lt _ (by decide)
    show (v.rotateRight (n + 1)).getLsbD i = ((v.rotateRight n).rotateRight 1).getLsbD i
    rw [getLsbD_rotateRight _ _ hi, getLsbD_rotateRight _ _ hi, getLsbD_rotateRight _ _ hlt,
      Nat.add_mod_mod, Nat.add_assoc]

theorem shift_zero (s : Shifter) (v : Word) : s.shift v 0 = ⟨v, none⟩ := by
  cases s <;> rfl

theorem lsl_succ (v : Word) (n : Nat) :
    Alu.lsl v (n + 1) = ⟨v <<< (n + 1), some (v <<< n).msb⟩ := by
  rw [Alu.lsl, if_neg n.succ_ne_zero, BitVec.msb_shiftLeft, BitVec.getMsbD]
  split
  case isTrue hle =>
    have hlt : n < 32 := hle
    have hpos : 32 - (n + 1) = 32 - 1 - n := by omega
    rw [decide_eq_true hlt, Bool.true_and, hpos]
  case isFalse hgt =>
    have hge : ¬n < 32 := by omega
    rw [decide_eq_false hge, Bool.false_and, BitVec.shiftLeft_eq_zero (by omega)]
    rfl

theorem lsr_succ (v : Word) (n : Nat) :
    Alu.lsr v (n + 1) = ⟨v >>> (n + 1), some ((v >>> n).getLsbD 0)⟩ := by
  have hbit : (v >>> n).getLsbD 0 = v.getLsbD n := BitVec.getLsbD_ushiftRight ..
  rw [Alu.lsr, if_neg n.succ_ne_zero, Nat.add_sub_cancel, hbit]
  split
  case isTrue => rfl
  case isFalse hgt =>
    rw [BitVec.getLsbD_of_ge v n (by omega), BitVec.ushiftRight_eq_zero (by omega)]
    rfl

/-- From the last place of the word on, only copies of the sign are left. -/
theorem getLsbD_sshiftRight_of_le (v : Word) {n i : Nat} (hn : 31 ≤ n) (hi : i < 32) :
    (v.sshiftRight n).getLsbD i = v.msb := by
  rw [BitVec.getLsbD_sshiftRight, decide_eq_false (Nat.not_le.mpr hi), Bool.not_false,
    Bool.true_and]
  split
  case isTrue hlt =>
    have hpos : n + i = 32 - 1 := by omega
    rw [BitVec.msb_eq_getLsbD_last, hpos]
  case isFalse => rfl

theorem asr_succ (v : Word) (n : Nat) :
    Alu.asr v (n + 1) = ⟨v.sshiftRight (n + 1), some ((v.sshiftRight n).getLsbD 0)⟩ := by
  rw [Alu.asr, if_neg n.succ_ne_zero, Nat.add_sub_cancel]
  split
  case isTrue hle =>
    have hbit : (v.sshiftRight n).getLsbD 0 = v.getLsbD n := by
      rw [BitVec.getLsbD_sshiftRight]
      exact if_pos (by omega)
    rw [hbit]
  case isFalse hgt =>
    have hsign : v.sshiftRight 31 = v.sshiftRight (n + 1) := by
      apply BitVec.eq_of_getLsbD_eq
      intro i hi
      rw [getLsbD_sshiftRight_of_le v le_rfl hi, getLsbD_sshiftRight_of_le v (by omega) hi]
    rw [hsign, getLsbD_sshiftRight_of_le v (by omega) (by decide)]

theorem ror_succ (v : Word) (n : Nat) :
    Alu.ror v (n + 1) = ⟨v.rotateRight (n + 1), some ((v.rotateRight n).getLsbD 0)⟩ := by
  have hbit : (v.rotateRight (n + 1)).msb = (v.rotateRight n).getLsbD 0 := by
    have hpos : (n + 1 + (32 - 1)) % 32 = (n + 0) % 32 := by omega
    rw [BitVec.msb_eq_getLsbD_last, getLsbD_rotateRight _ _ (by decide),
      getLsbD_rotateRight _ _ (by decide), hpos]
  rw [Alu.ror, if_neg n.succ_ne_zero, BitVec.rotateRight_mod_eq_rotateRight, ← hbit]

/-- The carry of a shift is the bit that its last place moves out. -/
theorem shift_eq_moved (s : Shifter) (v : Word) (n : Nat) :
    s.shift v (n + 1) = ⟨s.moved v (n + 1), some (s.lastBit (s.moved v n))⟩ := by
  cases s with
  | lsl => exact lsl_succ v n
  | lsr => exact lsr_succ v n
  | asr => exact asr_succ v n
  | ror => exact ror_succ v n

theorem moved_zero (s : Shifter) (v : Word) : s.moved v 0 = v := by
  cases s with
  | lsl => exact BitVec.shiftLeft_zero v
  | lsr => exact BitVec.ushiftRight_zero v
  | asr => exact BitVec.sshiftRight_zero
  | ror =>
    apply BitVec.eq_of_getLsbD_eq
    intro i hi
    rw [moved, getLsbD_rotateRight _ _ hi, Nat.zero_add, Nat.mod_eq_of_lt hi]

theorem value_shift (s : Shifter) (v : Word) (n : Nat) : (s.shift v n).value = s.moved v n := by
  cases n with
  | zero => rw [shift_zero, moved_zero]
  | succ n => rw [shift_eq_moved]

theorem shift_succ (s : Shifter) (v : Word) (n : Nat) :
    s.shift v (n + 1) = s.next (s.shift v n) := by
  rw [next, value_shift, shift_eq_moved, s.shift_eq_moved _ 0, moved_succ, moved_zero]

theorem shift_eq_iterate (s : Shifter) (v : Word) (n : Nat) :
    s.shift v n = s.next^[n] ⟨v, none⟩ := by
  induction n with
  | zero => exact s.shift_zero v
  | succ n ih => rw [shift_succ, ih, Function.iterate_succ_apply']

/-- Shifting by any number of places is shifting by one place so many times, for the value and for
the carry, which is that of the last time. Shifting by no place leaves the value and has no carry,
so it leaves the carry flag; no shift writes the overflow flag. -/
theorem shift_by_single_places (s : Shifter) (v : Word) :
    (∀ n, s.shift v n = s.next^[n] ⟨v, none⟩) ∧
    (∀ n, (s.shift v n).carry = none ↔ n = 0) ∧
    s.shift v 0 = ⟨v, none⟩ ∧
    (∀ f, (s.shift v 0).setFlags f = { f with n := v.msb, z := v == 0 }) ∧
    ∀ n f, ((s.shift v n).setFlags f).v = f.v := by
  refine ⟨s.shift_eq_iterate v, ?_, s.shift_zero v, ?_, fun _ _ => rfl⟩
  · intro n
    cases n with
    | zero => rw [shift_zero, eq_self_iff_true, eq_self_iff_true]
    | succ n =>
      rw [shift_eq_moved]
      exact iff_of_false nofun n.succ_ne_zero
  · intro f
    rw [shift_zero]
    rfl

end Shifter

end Thumb.Alu
