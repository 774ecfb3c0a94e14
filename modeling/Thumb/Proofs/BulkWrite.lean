import Thumb.Proofs.ByteMap

namespace Thumb

namespace Region

variable {r : Region} {addr : Word} {bytes : List Byte}

/-- A region that has the address so many bytes after another one, with wrapping. -/
def Maps (r : Region) (addr : Word) (i : Nat) : Prop :=
  r.contains (addr + BitVec.ofNat 32 i) 1 = true

/-- What writing bytes has to leave: the bytes in their places and every other byte as it was, or
everything as it was if the region is read-only. -/
structure Overwritten (r : Region) (addr : Word) (bytes : List Byte) (r' : Region) : Prop where
  layout : r'.clear = r.clear
  byte : ∀ a, r'.byte? a =
    if r.readOnly then r.byte? a else (byteFrom addr.toNat bytes a).or (r.byte? a)

theorem toNat_add_of_holds (hr : r.base.toNat + r.size < 2 ^ 32) {i : Nat}
    (h : r.Holds addr.toNat i) : (addr + BitVec.ofNat 32 i).toNat = addr.toNat + i := by
  obtain ⟨hlow, hhigh⟩ := h
  rw [BitVec.toNat_add, BitVec.toNat_ofNat, Nat.add_mod_mod]
  apply Nat.mod_eq_of_lt
  omega

theorem add_one_add_ofNat (addr : Word) (i : Nat) :
    addr + 1 + BitVec.ofNat 32 i = addr + BitVec.ofNat 32 (i + 1) := by
  rw [BitVec.add_assoc, Nat.add_comm i, BitVec.ofNat_add]
  rfl

theorem maps_zero_iff : r.Maps addr 0 ↔ r.Holds addr.toNat 1 := by
  rw [Maps, BitVec.add_zero, contains_iff_holds]

theorem maps_add_one_iff (i : Nat) : r.Maps (addr + 1) i ↔ r.Maps addr (i + 1) := by
  rw [Maps, Maps, add_one_add_ofNat]

/-- The addresses of a range are there one by one if and only if the range is there. They do not
wrap, for the region ends before the last address. -/
theorem forall_maps_iff (hr : r.base.toNat + r.size < 2 ^ 32) {n : Nat} (hn : 0 < n) :
    (∀ i < n, r.Maps addr i) ↔ r.Holds addr.toNat n := by
  constructor
  · intro h
    induction n, hn using Nat.le_induction with
    | base => exact maps_zero_iff.mp (h 0 Nat.one_pos)
    | succ n hn ih =>
      have hrange := ih fun i hi => h i (Nat.lt_succ_of_lt hi)
      have hlast := contains_iff_holds.mp (h n (Nat.lt_succ_self n))
      rw [toNat_add_of_holds hr hrange] at hlast
      exact ⟨hrange.1, hlast.2⟩
  · intro h i hi
    have hi' : r.Holds addr.toNat i := ⟨h.1, by have := h.2; omega⟩
    rw [Maps, contains_iff_holds, toNat_add_of_holds hr hi']
    exact h.byte hi

theorem store_nil (r : Region) (addr : Word) : r.store addr [] = r := by
  unfold store
  split
  · rfl
  · rfl

theorem store_cons (hr : r.base.toNat + r.size < 2 ^ 32) (h : r.Holds addr.toNat 1) (b : Byte)
    (bs : List Byte) : (r.store addr [b]).store (addr + 1) bs = r.store addr (b :: bs) := by
  have hnext : (addr + 1).toNat = addr.toNat + 1 := toNat_add_of_holds hr h
  have hoffset : (addr + 1).toNat - r.base.toNat = addr.toNat - r.base.toNat + 1 := by
    have hlow := h.1
    omega
  cases hprotected : r.readOnly with
  | true => simp only [store, hprotected, if_true]
  | false => simp only [store, program, hprotected, offset, hoffset, overwrite, if_false,
      Bool.false_eq_true]

theorem overwritten_store (h : bytes = [] ∨ r.Holds addr.toNat bytes.length) :
    r.Overwritten addr bytes (r.store addr bytes) := by
  refine ⟨r.clear_store addr bytes, ?_⟩
  intro a
  rcases h with rfl | h
  · rw [store_nil, byteFrom_nil, Option.none_or, ite_self]
  · unfold store
    split
    · rfl
    · exact byte?_program h a

end Region

namespace Bytewise

variable {r : Region} {addr : Word} {b : Byte} {bs : List Byte}

theorem toBytes_byte (b : BitVec Width.byte.bits) : Width.byte.toBytes b = [b] :=
  (Width.byte.toBytes_eq_map b).trans (congrArg ([·]) BitVec.extractLsb'_eq_self)

theorem write_eq_ok (h : r.contains addr 1 = true) :
    (Bus.write .byte addr b : EStateM BusError Bytewise Unit) ⟨r⟩ =
      .ok () ⟨r.store addr [b]⟩ := by
  have hstored : r.store addr (Width.byte.toBytes b) = r.store addr [b] :=
    congrArg (r.store addr) (toBytes_byte b)
  have hwrite : Region.write .byte addr b r = .ok () (r.store addr [b]) :=
    (if_pos h).trans (congrArg (EStateM.Result.ok ()) hstored)
  show lift (Region.write .byte addr b) ⟨r⟩ = _
  rw [lift, hwrite]

theorem write_eq_error (h : ¬r.contains addr 1 = true) :
    (Bus.write .byte addr b : EStateM BusError Bytewise Unit) ⟨r⟩ =
      .error (.unmapped addr) ⟨r⟩ := by
  have hwrite : Region.write .byte addr b r = .error (.unmapped addr) r := if_neg h
  show lift (Region.write .byte addr b) ⟨r⟩ = _
  rw [lift, hwrite]

theorem writeBytes_cons :
    (Bus.writeBytes addr (b :: bs) : EStateM BusError Bytewise Unit) =
      (Bus.write .byte addr b >>= fun _ => Bus.writeBytes (addr + 1) bs) :=
  rfl

theorem writeBytes_cases (hr : r.base.toNat + r.size < 2 ^ 32) (addr : Word)
    (bytes : List Byte) :
    (∀ i < bytes.length, r.Maps addr i) ∧
      Bus.writeBytes addr bytes (⟨r⟩ : Bytewise) = .ok () ⟨r.store addr bytes⟩ ∨
    ∃ k < bytes.length, (∀ i < k, r.Maps addr i) ∧ ¬r.Maps addr k ∧
      Bus.writeBytes addr bytes (⟨r⟩ : Bytewise) =
        .error (.unmapped (addr + BitVec.ofNat 32 k)) ⟨r.store addr (bytes.take k)⟩ := by
  induction bytes generalizing r addr with
  | nil =>
    left
    rw [Region.store_nil]
    exact ⟨fun i hi => absurd hi (Nat.not_lt_zero i), rfl⟩
  | cons b bs ih =>
    rw [writeBytes_cons]
    by_cases hfirst : r.contains addr 1 = true
    · have hholds := Region.contains_iff_holds.mp hfirst
      -- A write moves no region, so the rest of the bytes meets the same addresses.
      obtain ⟨hbase, hsize, _⟩ := Region.of_clear_eq (r.clear_store addr [b])
      have hmaps (i : Nat) : (r.store addr [b]).Maps (addr + 1) i ↔ r.Maps addr (i + 1) := by
        rw [Region.maps_add_one_iff, Region.Maps, Region.contains, hbase, hsize]
        rfl
      have hbefore {n : Nat} (h : ∀ i < n, (r.store addr [b]).Maps (addr + 1) i) :
          ∀ i < n + 1, r.Maps addr i := by
        intro i hi
        cases i with
        | zero => exact Region.maps_zero_iff.mpr hholds
        | succ i => exact (hmaps i).mp (h i (Nat.lt_of_succ_lt_succ hi))
      simp only [bind, EStateM.bind, write_eq_ok hfirst]
      have hr' : (r.store addr [b]).base.toNat + (r.store addr [b]).size < 2 ^ 32 := by
        rwa [hbase, hsize]
      rcases ih hr' (addr + 1) with ⟨hall, hresult⟩ | ⟨k, hk, hall, hnone, hresult⟩
      · left
        rw [hresult, Region.store_cons hr hholds]
        exact ⟨hbefore hall, rfl⟩
      · right
        refine ⟨k + 1, Nat.succ_lt_succ hk, hbefore hall, mt (hmaps k).mpr hnone, ?_⟩
        rw [hresult, Region.store_cons hr hholds, List.take_succ_cons, Region.add_one_add_ofNat]
    · right
      refine ⟨0, Nat.succ_pos _, fun i hi => absurd hi (Nat.not_lt_zero i), ?_, ?_⟩
      · rwa [Region.maps_zero_iff, ← Region.contains_iff_holds]
      · simp only [bind, EStateM.bind, write_eq_error hfirst]
        rw [List.take_zero, Region.store_nil, BitVec.add_zero]

end Bytewise

namespace Region

theorem writeBytes_eq (addr : Word) (bytes : List Byte) (r : Region) :
    Bus.writeBytes addr bytes r =
      if r.contains addr bytes.length then .ok () (r.store addr bytes)
      else .error (.unmapped addr) r :=
  rfl

/-- Writing bytes at once and one by one succeed for the same ranges, with the same region after
them. For any other range the first changes nothing, and the second leaves the bytes that come
before the first address that is not there. -/
theorem bulk_write_refines (r : Region) (addr : Word) (bytes : List Byte)
    (hr : r.base.toNat + r.size < 2 ^ 32) (hbytes : bytes ≠ []) :
    (∃ r', Bus.writeBytes addr bytes r = .ok () r' ∧
      Bus.writeBytes addr bytes (⟨r⟩ : Bytewise) = .ok () ⟨r'⟩ ∧
      r.Holds addr.toNat bytes.length ∧ r.Overwritten addr bytes r') ∨
    ∃ r' k, Bus.writeBytes addr bytes r = .error (.unmapped addr) r ∧
      Bus.writeBytes addr bytes (⟨r⟩ : Bytewise) =
        .error (.unmapped (addr + BitVec.ofNat 32 k)) ⟨r'⟩ ∧
      k < bytes.length ∧ (∀ i < k, r.Maps addr i) ∧ ¬r.Maps addr k ∧
      r.Overwritten addr (bytes.take k) r' := by
  have hpos := List.length_pos_iff.mpr hbytes
  rw [writeBytes_eq]
  rcases Bytewise.writeBytes_cases hr addr bytes with ⟨hall, heach⟩ | ⟨k, hk, hall, hnone, heach⟩
  · have hholds := (forall_maps_iff hr hpos).mp hall
    left
    rw [if_pos (contains_iff_holds.mpr hholds)]
    exact ⟨_, rfl, heach, hholds, overwritten_store (.inr hholds)⟩
  · have hout : ¬r.contains addr bytes.length = true := by
      rw [contains_iff_holds, ← forall_maps_iff hr hpos]
      exact fun h => hnone (h k hk)
    right
    rw [if_neg hout]
    refine ⟨_, k, rfl, heach, hk, hall, hnone, overwritten_store ?_⟩
    rcases Nat.eq_zero_or_pos k with rfl | hkpos
    · exact .inl rfl
    · rw [List.length_take_of_le hk.le]
      exact .inr ((forall_maps_iff hr hkpos).mp hall)

/-- Three bytes of which the last is beyond the end of the region. -/
theorem bulk_write_refines_end :
    let r := zeros 0x20000000 4 false
    r.base.toNat + r.size < 2 ^ 32 ∧
    Bus.writeBytes 0x20000002 [1, 2, 3] r = .error (.unmapped 0x20000002) r ∧
    ∃ r', Bus.writeBytes 0x20000002 [1, 2, 3] (⟨r⟩ : Bytewise) =
        .error (.unmapped 0x20000004) ⟨r'⟩ ∧
      r'.byte? 0x20000001 = some 0 ∧ r'.byte? 0x20000002 = some 1 ∧
      r'.byte? 0x20000003 = some 2 := by
  intro r
  have hr : r.base.toNat + r.size < 2 ^ 32 := by decide
  refine ⟨hr, ?_⟩
  rcases bulk_write_refines r 0x20000002 [1, 2, 3] hr (by decide) with
    ⟨_, _, _, hholds, _⟩ | ⟨r', k, hbulk, heach, hk, hall, hnone, hwritten⟩
  · exact absurd hholds (by decide)
  · have hmaps : ∀ i < 2, r.Maps 0x20000002 i := by unfold Maps; decide
    have hend : ¬r.Maps 0x20000002 2 := by unfold Maps; decide
    obtain rfl : k = 2 := by
      rcases Nat.lt_trichotomy k 2 with hlt | heq | hgt
      · exact absurd (hmaps k hlt) hnone
      · exact heq
      · exact absurd (hall 2 hgt) hend
    refine ⟨hbulk, r', heach, ?_⟩
    rw [hwritten.byte, hwritten.byte, hwritten.byte]
    exact ⟨rfl, rfl, rfl⟩

end Region

end Thumb
