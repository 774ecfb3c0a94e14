import Thumb.Executable.Link
import Thumb.Machine.Board
import Thumb.Proofs.LittleEndian

namespace Thumb

namespace Region

variable {r : Region}

theorem contains_iff {addr : Word} {length : Nat} :
    r.contains addr length = true ↔
      r.base.toNat ≤ addr.toNat ∧ addr.toNat - r.base.toNat + length ≤ r.size := by
  simp [contains]

theorem fetch_eq_take_drop {base addr : Word} {size length q : Nat} {bytes : List Byte}
    (h : r.fetch base size = bytes) (haddr : r.offset addr = r.offset base + q)
    (hle : q + length ≤ size) : r.fetch addr length = (bytes.drop q).take length := by
  subst h
  apply List.ext_getElem
  · simp only [fetch, List.length_map, List.length_range', List.length_take, List.length_drop]
    omega
  · intro i _ _
    simp only [fetch, List.getElem_map, List.getElem_range', List.getElem_take, List.getElem_drop,
      haddr, Nat.one_mul, Nat.add_assoc]

theorem fetch_program (r : Region) (addr : Word) (bytes : List Byte) :
    (r.program addr bytes).fetch addr bytes.length = bytes := by
  apply List.ext_getElem
  · rw [fetch, List.length_map, List.length_range']
  · intro i _ hi
    have hin : r.offset addr ≤ r.offset addr + i ∧
        r.offset addr + i < r.offset addr + bytes.length := by omega
    simp only [fetch, List.getElem_map, List.getElem_range', Nat.one_mul]
    show (overwrite r.written (r.offset addr) bytes).getD (r.offset addr + i) 0 = bytes[i]
    rw [getD_overwrite, if_pos hin, Nat.add_sub_cancel_left, List.getD_eq_getElem _ _ hi]

end Region

namespace Memory

variable {flash : Region} {rest : List Region} {addr : Word}

theorem read_first {w : Width} {v : BitVec w.bits} (hin : flash.contains addr w.bytes = true)
    (hv : flash.fetch addr w.bytes = w.toBytes v) :
    read w addr ⟨flash :: rest⟩ = .ok v ⟨flash :: rest⟩ := by
  have hfind : find? ⟨flash :: rest⟩ addr w.bytes = some flash := List.find?_cons_of_pos hin
  rw [read, hfind]
  simp only [hv, w.ofBytes_toBytes]

theorem load_first {bytes : List Byte} {m : Memory}
    (h : (Bus.load addr bytes : EStateM BusError Memory Unit) ⟨flash :: rest⟩ = .ok () m) :
    (flash.contains addr bytes.length = true ∧ m = ⟨flash.program addr bytes :: rest⟩) ∨
    (flash.contains addr bytes.length = false ∧ rest.any (·.contains addr bytes.length) = true ∧
      ∃ rest', m = ⟨flash :: rest'⟩) := by
  change alter addr bytes.length (·.program addr bytes) ⟨flash :: rest⟩ = .ok () m at h
  unfold alter at h
  split at h
  case isFalse => cases h
  case isTrue hany =>
    cases h
    cases hin : flash.contains addr bytes.length with
    | true =>
      refine .inl ⟨rfl, ?_⟩
      rw [alterFirst, if_pos hin]
    | false =>
      rw [List.any_cons, hin, Bool.false_or] at hany
      refine .inr ⟨rfl, hany, alterFirst addr bytes.length (·.program addr bytes) rest, ?_⟩
      rw [alterFirst, hin]
      rfl

end Memory

namespace Executable

variable {μ : Type} [Bus μ] {x : Executable} {m m' : μ}

theorem segmentBytes_ok {g : Segment} {bytes : List Byte} (h : x.segmentBytes g = .ok bytes) :
    g.offset + g.size ≤ x.content.length ∧ bytes = (x.content.drop g.offset).take g.size := by
  unfold segmentBytes slice at h
  split at h
  case isTrue hle =>
    cases h
    exact ⟨hle, rfl⟩
  case isFalse => cases h

theorem loadSegment_cases {g : Segment} (h : x.loadSegment g m = .ok () m') :
    ∃ bytes, x.segmentBytes g = .ok bytes ∧ bytes.length = g.size ∧
      Bus.load g.address bytes m = .ok () m' := by
  unfold loadSegment at h
  split at h
  case h_1 => cases h
  case h_2 bytes hbytes =>
    have hlen : bytes.length = g.size := by
      obtain ⟨hle, rfl⟩ := segmentBytes_ok hbytes
      rw [List.length_take, List.length_drop]
      omega
    split at h
    case h_1 hload =>
      cases h
      exact ⟨bytes, hbytes, hlen, hload⟩
    case h_2 => cases h

theorem loadAll_cons {g : Segment} {gs : List Segment} (h : x.loadAll (g :: gs) m = .ok () m') :
    ∃ m₁, x.loadSegment g m = .ok () m₁ ∧ x.loadAll gs m₁ = .ok () m' := by
  simp only [loadAll, bind, EStateM.bind] at h
  split at h
  case h_1 u m₁ hfirst => exact ⟨m₁, hfirst, h⟩
  case h_2 => cases h

end Executable

namespace Board

/-- A board whose first region is the flash that is configured by default, and has every segment
that lies in it. -/
def HoldsImage (x : Executable) (b : Board) : Prop :=
  ∃ flash rest, b.memory.regions = flash :: rest ∧
    flash.base = ({} : Config).flashOrigin ∧ flash.size = ({} : Config).flashSize ∧
    ∀ g ∈ x.segments, flash.contains g.address g.size = true →
      x.segmentBytes g = .ok (flash.fetch g.address g.size)

theorem loadAll_data {x : Executable} {flash : Region} {rest : List Region} {gs : List Segment}
    {m : Memory} (hout : ∀ g ∈ gs, flash.contains g.address g.size = false)
    (h : x.loadAll gs (⟨flash :: rest⟩ : Memory) = .ok () m) : ∃ rest', m = ⟨flash :: rest'⟩ := by
  induction gs generalizing rest with
  | nil =>
    cases h
    exact ⟨rest, rfl⟩
  | cons g gs ih =>
    obtain ⟨hg, hgs⟩ := List.forall_mem_cons.mp hout
    obtain ⟨m₁, hfirst, h⟩ := Executable.loadAll_cons h
    obtain ⟨bytes, _, hlen, hbus⟩ := Executable.loadSegment_cases hfirst
    rcases Memory.load_first hbus with ⟨hin, _⟩ | ⟨_, _, rest', rfl⟩
    · rw [hlen, hg] at hin
      cases hin
    · exact ih hgs h

theorem not_contains_ram {flash : Region} (hbase : flash.base = ({} : Config).flashOrigin)
    (hsize : flash.size = ({} : Config).flashSize) (n : Nat) :
    flash.contains AddressMap.ramOrigin n = false := by
  rw [Bool.eq_false_iff, Ne, Region.contains_iff, hbase, hsize]
  rintro ⟨_, hle⟩
  have hfar : ({} : Config).flashSize <
      AddressMap.ramOrigin.toNat - ({} : Config).flashOrigin.toNat := by
    decide
  omega

/-- The segments of a linked executable go into flash and behind it. -/
theorem loadAll_segments {x : Executable} {flash : Region} {rest : List Region} {m : Memory}
    {codeSize size : Nat} (hbase : flash.base = ({} : Config).flashOrigin)
    (hsize : flash.size = ({} : Config).flashSize)
    (hrest : ∀ n, rest.any (·.contains AddressMap.flashOrigin n) = false)
    (h : x.loadAll (Object.segments codeSize size) (⟨flash :: rest⟩ : Memory) = .ok () m) :
    codeSize ≤ ({} : Config).flashSize ∧
    ∃ flash' rest', m = ⟨flash' :: rest'⟩ ∧
      flash'.base = ({} : Config).flashOrigin ∧ flash'.size = ({} : Config).flashSize ∧
      ∀ g ∈ Object.segments codeSize size, flash'.contains g.address g.size = true →
        x.segmentBytes g = .ok (flash'.fetch g.address g.size) := by
  obtain ⟨m₁, hcode, hdata⟩ := Executable.loadAll_cons h
  obtain ⟨bytes, hbytes, hlen, hbus⟩ := Executable.loadSegment_cases hcode
  rcases Memory.load_first hbus with ⟨hin, rfl⟩ | ⟨_, hram, _⟩
  swap
  · rw [hrest] at hram
    cases hram
  have hdata' : ∀ g ∈ (if codeSize < size then
      [(⟨codeSize, size - codeSize, AddressMap.ramOrigin⟩ : Segment)] else []),
      (flash.program AddressMap.flashOrigin bytes).contains g.address g.size = false := by
    intro g hg
    split at hg
    · cases List.mem_singleton.mp hg
      exact not_contains_ram hbase hsize _
    · cases hg
  obtain ⟨rest', rfl⟩ := loadAll_data hdata' hdata
  refine ⟨?_, _, rest', rfl, hbase, hsize, ?_⟩
  · have hfits := (Region.contains_iff.mp hin).2
    rw [hlen, hsize] at hfits
    exact (Nat.le_add_left _ _).trans hfits
  · intro g hg hin
    rcases List.mem_cons.mp hg with rfl | hg
    · rw [hbytes, ← hlen]
      exact congrArg Except.ok (flash.fetch_program _ bytes).symm
    · rw [hdata' g hg] at hin
      cases hin

theorem load_holdsImage {x : Executable} {codeSize size : Nat} {b : Board}
    (hsegments : x.segments = Object.segments codeSize size)
    (hload : load x (ofConfig {}) = .ok () b) :
    b.HoldsImage x ∧ codeSize ≤ ({} : Config).flashSize := by
  unfold load reset program at hload
  rw [if_neg nofun] at hload
  dsimp only at hload
  split at hload
  case h_2 => cases hload
  case h_3 => cases hload
  case h_1 m hm =>
    cases hload
    rw [Executable.load, hsegments] at hm
    obtain ⟨hsize, flash, rest, rfl, hbase, hflash, hholds⟩ :=
      loadAll_segments rfl rfl (fun _ => rfl) hm
    rw [← hsegments] at hholds
    exact ⟨⟨flash, rest, rfl, hbase, hflash, hholds⟩, hsize⟩

theorem HoldsImage.code {x : Executable} {codeSize size : Nat} {b : Board} (hb : b.HoldsImage x)
    (hsegments : x.segments = Object.segments codeSize size)
    (hfits : codeSize ≤ ({} : Config).flashSize) :
    ∃ flash rest, b.memory = ⟨flash :: rest⟩ ∧ ∀ offset length, offset + length ≤ codeSize →
      flash.contains (BitVec.ofNat 32 (0x08000000 + offset)) length = true ∧
      flash.fetch (BitVec.ofNat 32 (0x08000000 + offset)) length =
        (x.content.drop offset).take length := by
  obtain ⟨flash, rest, hregions, hbase, hsize, hholds⟩ := hb
  refine ⟨flash, rest, congrArg Memory.mk hregions, ?_⟩
  intro offset length hle
  have horigin : AddressMap.flashOrigin.toNat = 0x08000000 := rfl
  have hdefault : ({} : Config).flashSize = 0x10000 := rfl
  have haddr : (BitVec.ofNat 32 (0x08000000 + offset)).toNat = 0x08000000 + offset := by
    rw [BitVec.toNat_ofNat]
    omega
  have hbase : flash.base.toNat = 0x08000000 := by rw [hbase, ← horigin]
  have hwhole : flash.contains AddressMap.flashOrigin codeSize = true := by
    rw [Region.contains_iff, hbase, horigin, hsize]
    omega
  have hcode : flash.fetch AddressMap.flashOrigin codeSize = x.content.take codeSize := by
    have h := hholds ⟨0, codeSize, AddressMap.flashOrigin⟩ (hsegments ▸ .head _) hwhole
    exact (Executable.segmentBytes_ok h).2
  constructor
  · rw [Region.contains_iff, hbase, haddr, hsize]
    omega
  · have hoffset : flash.offset (BitVec.ofNat 32 (0x08000000 + offset)) =
        flash.offset AddressMap.flashOrigin + offset := by
      rw [Region.offset, Region.offset, hbase, haddr, horigin]
      omega
    rw [Region.fetch_eq_take_drop hcode hoffset hle, List.drop_take, List.take_take,
      Nat.min_eq_left (by omega)]

end Board

end Thumb
