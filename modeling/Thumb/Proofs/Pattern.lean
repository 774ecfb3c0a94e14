import Mathlib
import Thumb.Pattern

namespace Thumb

namespace Pattern

theorem getLsbD_withBit (v : Halfword) {i : Nat} (hi : i < 16) (b : Bool) (j : Nat) :
    (withBit v i b).getLsbD j = if j = i then b else v.getLsbD j := by
  unfold withBit
  by_cases h : j = i
  · subst h
    cases b <;> simp [hi]
  · have h' : ¬i = j := fun e => h e.symm
    cases b with
    | false =>
      simp only [Bool.false_eq_true, if_false, BitVec.getLsbD_and, BitVec.getLsbD_not,
        BitVec.getLsbD_twoPow, h, h', decide_false, Bool.and_false, Bool.not_false, Bool.and_true]
      by_cases hj : j < 16
      · simp [hj]
      · simp [BitVec.getLsbD_of_ge v j (by omega)]
    | true => simp [BitVec.getLsbD_twoPow, h, h']

theorem getLsbD_scatter_of_not_mem (v : Halfword) {is : List Nat} (hb : ∀ i ∈ is, i < 16)
    (n : Nat) {j : Nat} (hj : j ∉ is) : (scatter v is n).getLsbD j = v.getLsbD j := by
  induction is generalizing n with
  | nil => rfl
  | cons i is ih =>
    obtain ⟨hi, hb⟩ := List.forall_mem_cons.mp hb
    have hne : j ≠ i := fun e => hj (e ▸ .head _)
    rw [scatter, getLsbD_withBit _ hi, if_neg hne]
    exact ih hb _ fun h => hj (.tail _ h)

theorem gather_congr {v w : Halfword} {is : List Nat}
    (h : ∀ i ∈ is, v.getLsbD i = w.getLsbD i) : gather v is = gather w is := by
  induction is with
  | nil => rfl
  | cons i is ih =>
    obtain ⟨hi, his⟩ := List.forall_mem_cons.mp h
    rw [gather, gather, hi, ih his]

theorem gather_scatter (v : Halfword) {is : List Nat} (hd : is.Nodup) (hb : ∀ i ∈ is, i < 16)
    (n : Nat) : gather (scatter v is n) is = n % 2 ^ is.length := by
  induction is generalizing n with
  | nil => simp [gather, Nat.mod_one]
  | cons i is ih =>
    obtain ⟨hni, hd⟩ := List.nodup_cons.mp hd
    obtain ⟨hi, hb⟩ := List.forall_mem_cons.mp hb
    -- Writing the bit at `i` does not disturb the bits that the rest of the list names.
    have hrest : gather (scatter v (i :: is) n) is = n / 2 % 2 ^ is.length := by
      rw [← ih hd hb]
      apply gather_congr
      intro j hj
      have hne : j ≠ i := fun e => hni (e ▸ hj)
      rw [scatter, getLsbD_withBit _ hi, if_neg hne]
    have hbit : (scatter v (i :: is) n).getLsbD i = (n % 2 == 1) := by
      rw [scatter, getLsbD_withBit _ hi, if_pos rfl]
    have hlow : (n % 2 == 1).toNat = n % 2 := by
      rcases Nat.mod_two_eq_zero_or_one n with h | h <;> simp [h]
    rw [gather, hrest, hbit, hlow, List.length_cons, Nat.pow_succ, Nat.mul_comm (2 ^ is.length) 2,
      Nat.mod_mul]

theorem gather_lt (v : Halfword) (is : List Nat) : gather v is < 2 ^ is.length := by
  induction is with
  | nil => exact Nat.one_pos
  | cons i is ih =>
    have hbit := (v.getLsbD i).toNat_lt
    rw [gather, List.length_cons, Nat.pow_succ]
    omega

theorem getLsbD_scatter_gather (v w : Halfword) {is : List Nat} (hb : ∀ i ∈ is, i < 16) {j : Nat}
    (hj : j ∈ is) : (scatter v is (gather w is)).getLsbD j = w.getLsbD j := by
  induction is with
  | nil => cases hj
  | cons i is ih =>
    obtain ⟨hi, hb⟩ := List.forall_mem_cons.mp hb
    have hrest : ((w.getLsbD i).toNat + 2 * gather w is) / 2 = gather w is := by
      have hbit := (w.getLsbD i).toNat_lt
      omega
    have hlow : (((w.getLsbD i).toNat + 2 * gather w is) % 2 == 1) = w.getLsbD i := by
      rw [Nat.add_mul_mod_self_left]
      cases w.getLsbD i <;> rfl
    rw [gather, scatter, getLsbD_withBit _ hi, hrest, hlow]
    split
    case isTrue h => rw [h]
    case isFalse h => exact ih hb ((List.mem_cons.mp hj).resolve_left h)

theorem mem_free {p : Pattern} {i : Nat} : i ∈ p.free ↔ i < 16 ∧ p.fixed.getLsbD i = false := by
  simp [free]

theorem nodup_free (p : Pattern) : p.free.Nodup :=
  List.nodup_range.filter _

theorem lt_of_mem_free {p : Pattern} : ∀ i ∈ p.free, i < 16 :=
  fun _ h => (mem_free.mp h).1

theorem extract_deposit (p : Pattern) (v : Halfword) (n : Nat) :
    p.extract (p.deposit v n) = n % 2 ^ p.free.length :=
  gather_scatter v p.nodup_free lt_of_mem_free n

theorem getLsbD_deposit (p : Pattern) (v : Halfword) (n : Nat) {i : Nat}
    (h : p.fixed.getLsbD i = true) : (p.deposit v n).getLsbD i = v.getLsbD i := by
  apply getLsbD_scatter_of_not_mem v lt_of_mem_free
  intro hi
  rw [(mem_free.mp hi).2] at h
  cases h

theorem accepts_iff {p : Pattern} {v : Halfword} :
    p.accepts v = true ↔ ∀ i < 16, (v.getLsbD i && p.fixed.getLsbD i) = p.ones.getLsbD i := by
  rw [accepts, beq_iff_eq]
  constructor
  · intro h i _
    rw [← h, BitVec.getLsbD_and]
  · intro h
    apply BitVec.eq_of_getLsbD_eq
    intro i hi
    rw [BitVec.getLsbD_and, h i hi]

theorem accepts_deposit {p : Pattern} {v : Halfword} (h : p.accepts v = true) (n : Nat) :
    p.accepts (p.deposit v n) = true := by
  rw [accepts_iff] at h ⊢
  intro i hi
  rw [← h i hi]
  cases hf : p.fixed.getLsbD i with
  | false => rw [Bool.and_false, Bool.and_false]
  | true => rw [p.getLsbD_deposit v n hf]

/-- A halfword that a pattern accepts has nothing but the base and the free bits. -/
theorem deposit_extract {p : Pattern} {v : Halfword} (h : p.accepts v = true) :
    p.deposit p.base (p.extract v) = v := by
  rw [accepts_iff] at h
  apply BitVec.eq_of_getLsbD_eq
  intro i hi
  cases hf : p.fixed.getLsbD i with
  | false => exact getLsbD_scatter_gather _ _ lt_of_mem_free (mem_free.mpr ⟨hi, hf⟩)
  | true =>
    rw [p.getLsbD_deposit _ _ hf, base, ← h i hi, hf, Bool.and_true]

/-- Some bit is fixed in both patterns, to different values. -/
def Apart (p q : Pattern) : Prop :=
  p.fixed &&& q.fixed &&& (p.ones ^^^ q.ones) ≠ 0

instance (p q : Pattern) : Decidable (p.Apart q) :=
  inferInstanceAs (Decidable (_ ≠ _))

theorem Apart.not_accepts {p q : Pattern} (h : p.Apart q) {v : Halfword}
    (hp : p.accepts v = true) : q.accepts v = false := by
  apply Bool.eq_false_iff.mpr
  intro hq
  rw [accepts_iff] at hp hq
  apply h
  apply BitVec.eq_of_getLsbD_eq
  intro i hi
  rw [BitVec.getLsbD_and, BitVec.getLsbD_and, BitVec.getLsbD_xor, ← hp i hi, ← hq i hi]
  cases v.getLsbD i <;> cases p.fixed.getLsbD i <;> cases q.fixed.getLsbD i <;> simp

end Pattern

abbrev Fit (values widths : List Nat) : Prop :=
  List.Forall₂ (fun value width => value < 2 ^ width) values widths

theorem foldl_pack (fields : List (Nat × Nat)) (n : Nat) :
    fields.foldl (fun n (value, width) => n * Nat.pow 2 width + value % Nat.pow 2 width) n =
      n * 2 ^ (fields.map (·.2)).sum + pack fields := by
  induction fields generalizing n with
  | nil => simp [pack]
  | cons field fields ih =>
    obtain ⟨value, width⟩ := field
    simp only [pack, List.foldl_cons, Nat.pow_eq, List.map_cons, List.sum_cons] at ih ⊢
    rw [ih, ih (0 * 2 ^ width + value % 2 ^ width), Nat.pow_add, Nat.add_mul, Nat.zero_mul,
      Nat.zero_add, Nat.mul_assoc, Nat.add_assoc]

theorem pack_cons (value width : Nat) (fields : List (Nat × Nat)) :
    pack ((value, width) :: fields) =
      value % 2 ^ width * 2 ^ (fields.map (·.2)).sum + pack fields := by
  rw [pack, List.foldl_cons, foldl_pack]
  simp only [Nat.zero_mul, Nat.zero_add, Nat.pow_eq]

theorem pack_lt (fields : List (Nat × Nat)) : pack fields < 2 ^ (fields.map (·.2)).sum := by
  induction fields with
  | nil => decide
  | cons field fields ih =>
    obtain ⟨value, width⟩ := field
    have hv : value % 2 ^ width + 1 ≤ 2 ^ width := Nat.mod_lt _ (Nat.two_pow_pos _)
    have hm := Nat.mul_le_mul_right (2 ^ (fields.map (·.2)).sum) hv
    rw [Nat.add_mul, Nat.one_mul] at hm
    rw [pack_cons, List.map_cons, List.sum_cons, Nat.pow_add]
    exact Nat.lt_of_lt_of_le (Nat.add_lt_add_left ih _) hm

theorem split_cons (width : Nat) (widths : List Nat) (n : Nat) :
    split (width :: widths) n = n / 2 ^ widths.sum % 2 ^ width :: split widths n := rfl

theorem split_add_mul (widths : List Nat) (n k : Nat) :
    split widths (k * 2 ^ widths.sum + n) = split widths n := by
  induction widths generalizing n k with
  | nil => rfl
  | cons width widths ih =>
    have hpow : k * 2 ^ (width :: widths).sum = k * 2 ^ width * 2 ^ widths.sum := by
      rw [List.sum_cons, Nat.pow_add, Nat.mul_assoc]
    rw [split_cons, split_cons, hpow, ih, Nat.add_comm,
      Nat.add_mul_div_right _ _ (Nat.two_pow_pos _), Nat.add_mul_mod_self_right]

theorem map_snd_zip_of_fit {values widths : List Nat} (h : Fit values widths) :
    (values.zip widths).map (·.2) = widths := by
  rw [List.map_snd_zip]
  exact Nat.le_of_eq h.length_eq.symm

theorem map_mod_zip_of_fit {values widths : List Nat} (h : Fit values widths) :
    (values.zip widths).map (fun field => field.1 % 2 ^ field.2) = values :=
  calc
    _ = (values.zip widths).map (·.1) := by
      apply List.map_congr_left
      intro field hfield
      exact Nat.mod_eq_of_lt (List.forall₂_zip h hfield)
    _ = values := List.map_fst_zip (Nat.le_of_eq h.length_eq)

/-- Cutting what was joined gives the fields back, each as far as its width goes. -/
theorem split_pack_fields (fields : List (Nat × Nat)) :
    split (fields.map (·.2)) (pack fields) = fields.map fun field => field.1 % 2 ^ field.2 := by
  induction fields with
  | nil => rfl
  | cons field fields ih =>
    obtain ⟨value, width⟩ := field
    have hhead : (value % 2 ^ width * 2 ^ (fields.map (·.2)).sum + pack fields) /
        2 ^ (fields.map (·.2)).sum = value % 2 ^ width := by
      rw [Nat.mul_comm, Nat.mul_add_div (Nat.two_pow_pos _), Nat.div_eq_of_lt (pack_lt fields),
        Nat.add_zero]
    rw [List.map_cons, List.map_cons, pack_cons, split_cons, split_add_mul, hhead, Nat.mod_mod, ih]

theorem fit_split (widths : List Nat) (n : Nat) : Fit (split widths n) widths := by
  induction widths with
  | nil => exact .nil
  | cons width widths ih => exact .cons (Nat.mod_lt _ (Nat.two_pow_pos _)) ih

theorem pack_split (widths : List Nat) (n : Nat) :
    pack ((split widths n).zip widths) = n % 2 ^ widths.sum := by
  induction widths with
  | nil => exact (Nat.mod_one n).symm
  | cons width widths ih =>
    rw [split_cons, List.zip_cons_cons, pack_cons, map_snd_zip_of_fit (fit_split widths n), ih,
      Nat.mod_mod, List.sum_cons, Nat.pow_add, Nat.mul_comm (2 ^ width), Nat.mod_mul, Nat.add_comm,
      Nat.mul_comm]

namespace Pattern

variable (p : Pattern)

theorem split_extract_encode {fields : List (Nat × Nat)}
    (h : (fields.map (·.2)).sum = p.free.length) :
    split (fields.map (·.2)) (p.extract (p.encode fields)) =
      fields.map fun field => field.1 % 2 ^ field.2 := by
  have hlt := pack_lt fields
  rw [h] at hlt
  rw [encode, extract_deposit, Nat.mod_eq_of_lt hlt, split_pack_fields]

theorem encode_split_extract {widths : List Nat} (h : widths.sum = p.free.length) {v : Halfword}
    (hv : p.accepts v = true) : p.encode ((split widths (p.extract v)).zip widths) = v := by
  have hlt : p.extract v < 2 ^ widths.sum := by
    rw [h]
    exact gather_lt v p.free
  rw [encode, pack_split, Nat.mod_eq_of_lt hlt, deposit_extract hv]

end Pattern

end Thumb
