import Thumb.Proofs.AssembledStep
import Thumb.Proofs.ByteMap
import Thumb.Proofs.DataImage

namespace Thumb

namespace Memory

variable {m : Memory}

theorem isSome_byte? {a : Nat} : (m.byte? a).isSome ↔ m.Inside a 1 := by
  rw [byte?, List.isSome_findSome?, List.any_eq_true]
  simp only [Region.isSome_byte?]
  rfl

theorem inside_of_byte? {a : Nat} {v : Byte} (h : m.byte? a = some v) : m.Inside a 1 :=
  isSome_byte?.mp (Option.isSome_of_eq_some h)

theorem read_byte (hm : m.Disjoint) {addr : Word} {v : Byte} (h : m.byte? addr.toNat = some v) :
    Memory.read .byte addr m = .ok v m := by
  obtain ⟨u, hread, hbyte⟩ := Access.read_inside (w := .byte) hm (inside_of_byte? h)
  have hfirst : m.byte? addr.toNat = some (BitVec.extractLsb' 0 8 u) := hbyte 0 Nat.zero_lt_one
  have hwhole : BitVec.extractLsb' 0 8 u = u := BitVec.extractLsb'_eq_self
  cases h.symm.trans (hfirst.trans (congrArg some hwhole))
  exact hread

theorem read_byte_unmapped {addr : Word} (h : ¬m.Inside addr.toNat 1) :
    Memory.read .byte addr m = .error (.unmapped addr) m :=
  Access.perform_outside (c := .read .byte addr) h

end Memory

namespace Segment

def Holds (g : Segment) (a length : Nat) : Prop :=
  g.address.toNat ≤ a ∧ a + length ≤ g.address.toNat + g.size

instance (g : Segment) (a length : Nat) : Decidable (g.Holds a length) :=
  inferInstanceAs (Decidable (_ ∧ _))

theorem contains_iff_holds {g : Segment} {addr : Word} :
    g.contains addr = true ↔ g.Holds addr.toNat 1 := by
  rw [contains, Bool.and_eq_true, decide_eq_true_eq, decide_eq_true_eq, Holds]
  omega

theorem Holds.byte {g : Segment} {a length i : Nat} (h : g.Holds a length) (hi : i < length) :
    g.Holds (a + i) 1 := by
  obtain ⟨hlow, hhigh⟩ := h
  constructor <;> omega

end Segment

namespace Executable

variable {x : Executable} {m m₁ m' : Memory} {g : Segment} {gs : List Segment}

/-- What loading segments leaves in memory, if no two of them meet. -/
structure Fills (x : Executable) (gs : List Segment) (m m' : Memory) : Prop where
  within : ∀ g ∈ gs, g.offset + g.size ≤ x.content.length
  inside : ∀ g ∈ gs, m.Inside g.address.toNat g.size
  layout : m'.clear = m.clear
  byte : ∀ g ∈ gs, ∀ a, g.Holds a 1 → m'.byte? a = x.content[g.offset + (a - g.address.toNat)]?
  rest : ∀ a, (∀ g ∈ gs, ¬g.Holds a 1) → m'.byte? a = m.byte? a

theorem Fills.nil (x : Executable) (m : Memory) : x.Fills [] m m where
  within := List.forall_mem_nil _
  inside := List.forall_mem_nil _
  layout := rfl
  byte := List.forall_mem_nil _
  rest _ _ := rfl

theorem fills_of_loadSegment (hm : m.Disjoint) (h : x.loadSegment g m = .ok () m') :
    x.Fills [g] m m' := by
  obtain ⟨bytes, hbytes, hlen, hload⟩ := loadSegment_cases h
  obtain ⟨hwithin, rfl⟩ := segmentBytes_ok hbytes
  have hinside : m.Inside g.address.toNat ((x.content.drop g.offset).take g.size).length := by
    by_contra hout
    cases hload.symm.trans (Memory.alter_of_not_inside hout)
  obtain ⟨m₂, hok, hlayout, hbyte⟩ := Memory.byte?_load hm hinside
  cases hload.symm.trans hok
  constructor
  case within => exact List.forall_mem_singleton.mpr hwithin
  case inside => exact List.forall_mem_singleton.mpr (hlen ▸ hinside)
  case layout => exact hlayout
  case byte =>
    refine List.forall_mem_singleton.mpr ?_
    intro a ha
    obtain ⟨hlow, hhigh⟩ := ha
    have hlt : a - g.address.toNat < g.size := by omega
    rw [hbyte, byteFrom, if_pos hlow, List.getElem?_take_of_lt hlt, List.getElem?_drop,
      List.getElem?_eq_getElem (by omega), Option.some_or]
  case rest =>
    intro a ha
    have hnone : byteFrom g.address.toNat ((x.content.drop g.offset).take g.size) a = none := by
      rw [← Option.not_isSome_iff_eq_none, byteFrom_isSome, hlen]
      exact ha g (List.mem_singleton_self g)
    rw [hbyte, hnone, Option.none_or]

theorem Fills.cons (hfirst : x.Fills [g] m m₁) (hrest : x.Fills gs m₁ m')
    (hapart : ∀ g' ∈ gs, g.address.toNat + g.size ≤ g'.address.toNat) :
    x.Fills (g :: gs) m m' where
  within := List.forall_mem_cons.mpr ⟨hfirst.within g (List.mem_singleton_self g), hrest.within⟩
  inside := by
    refine List.forall_mem_cons.mpr ⟨hfirst.inside g (List.mem_singleton_self g), ?_⟩
    intro g' hg'
    have hinside := hrest.inside g' hg'
    rwa [← Memory.inside_clear, hfirst.layout, Memory.inside_clear] at hinside
  layout := hrest.layout.trans hfirst.layout
  byte := by
    refine List.forall_mem_cons.mpr ⟨?_, hrest.byte⟩
    intro a ha
    -- What is loaded later does not come back to this segment.
    have hlater : ∀ g' ∈ gs, ¬g'.Holds a 1 := by
      intro g' hg' ha'
      have hle := hapart g' hg'
      obtain ⟨_, hhigh⟩ := ha
      obtain ⟨hlow, _⟩ := ha'
      omega
    rw [hrest.rest a hlater]
    exact hfirst.byte g (List.mem_singleton_self g) a ha
  rest := by
    intro a ha
    obtain ⟨hg, hgs⟩ := List.forall_mem_cons.mp ha
    rw [hrest.rest a hgs, hfirst.rest a (List.forall_mem_singleton.mpr hg)]

theorem fills_of_loadAll (hm : m.Disjoint)
    (hapart : gs.Pairwise fun g g' => g.address.toNat + g.size ≤ g'.address.toNat)
    (h : x.loadAll gs m = .ok () m') : x.Fills gs m m' := by
  induction gs generalizing m with
  | nil =>
    cases h
    exact .nil x _
  | cons g gs ih =>
    obtain ⟨hg, hgs⟩ := List.pairwise_cons.mp hapart
    obtain ⟨m₁, hfirst, hrest⟩ := loadAll_cons h
    have hfills := fills_of_loadSegment hm hfirst
    have hm₁ : m₁.Disjoint := by
      rwa [← Memory.disjoint_clear, hfills.layout, Memory.disjoint_clear]
    exact hfills.cons (ih hm₁ hgs hrest) hg

theorem bytesAt_eq_none {addr : Word} {length : Nat}
    (h : ∀ g ∈ x.segments, ¬g.Holds addr.toNat length) : x.bytesAt addr length = .ok none := by
  unfold bytesAt
  split
  case h_1 => rfl
  case h_2 g hfind =>
    have hcontains := List.find?_some hfind
    obtain ⟨hlow, _⟩ := Segment.contains_iff_holds.mp hcontains
    have hg := h g (List.mem_of_find?_eq_some hfind)
    apply if_pos
    unfold Segment.Holds at hg
    omega

end Executable

def Config.Maps (c : Config) (addr : Word) : Prop :=
  (c.flashOrigin.toNat ≤ addr.toNat ∧ addr.toNat < c.flashOrigin.toNat + c.flashSize) ∨
    (c.ramOrigin.toNat ≤ addr.toNat ∧ addr.toNat < c.ramOrigin.toNat + c.ramSize)

/-- Memory that shows what an executable has, and nothing else. -/
structure Executable.ShownBy (x : Executable) (c : Config) (m : Memory) : Prop where
  byte (addr : Word) : (∃ g ∈ x.segments, g.Holds addr.toNat 1) →
    ∃ v : Byte, x.bytesAt addr 1 = .ok (some [v]) ∧ Memory.read .byte addr m = .ok v m
  zero (addr : Word) : c.Maps addr → (∀ g ∈ x.segments, ¬g.Holds addr.toNat 1) →
    Memory.read .byte addr m = .ok 0 m
  unmapped (addr : Word) : ¬c.Maps addr → Memory.read .byte addr m = .error (.unmapped addr) m
  found_iff (addr : Word) (length : Nat) : 0 < length →
    ((∃ bytes, x.bytesAt addr length = .ok (some bytes)) ↔
      ∃ g ∈ x.segments, g.Holds addr.toNat length)
  /-- The executable is never asked for bytes that it does not have. -/
  answers (addr : Word) (length : Nat) : 0 < length → ∃ bytes?, x.bytesAt addr length = .ok bytes?
  bytes (addr : Word) (length : Nat) (bytes : List Byte) : 0 < length →
    x.bytesAt addr length = .ok (some bytes) →
      bytes.length = length ∧
      ∀ (i : Nat) (v : Byte), bytes[i]? = some v →
        Memory.read .byte (addr + BitVec.ofNat 32 i) m = .ok v m

namespace Memory

theorem inside_ofConfig {c : Config} {addr : Word} :
    (Memory.ofConfig c).Inside addr.toNat 1 ↔ c.Maps addr := by
  simp only [Inside, ofConfig, List.mem_cons, List.not_mem_nil, or_false, exists_eq_or_imp,
    exists_eq_left]
  rfl

theorem byte?_ofConfig {c : Config} {addr : Word} (h : c.Maps addr) :
    (Memory.ofConfig c).byte? addr.toNat = some 0 := by
  obtain ⟨v, hv⟩ := Option.isSome_iff_exists.mp (isSome_byte?.mpr (inside_ofConfig.mpr h))
  have hclear := byte?_clear (.ofConfig c) addr.toNat
  rw [hv] at hclear
  exact hclear

end Memory

namespace Executable

variable {x : Executable} {c : Config} {m : Memory}

theorem Fills.bytes
    (hapart : x.segments.Pairwise fun g g' => g.address.toNat + g.size ≤ g'.address.toNat)
    (h : x.Fills x.segments (.ofConfig c) m) {g : Segment} (hg : g ∈ x.segments) {addr : Word}
    {length : Nat} (hpos : 0 < length) (ha : g.Holds addr.toNat length) :
    ∃ bytes, x.bytesAt addr length = .ok (some bytes) ∧ bytes.length = length ∧
      ∀ i < length, m.byte? (addr.toNat + i) = bytes[i]? := by
  have hwithin := h.within g hg
  obtain ⟨hlow, hhigh⟩ := ha
  have hstart : addr.toNat = g.address.toNat + (addr.toNat - g.address.toNat) := by omega
  refine ⟨_, bytesAt_of_segment hapart hg hwithin hstart hpos (by omega), ?_, ?_⟩
  · rw [List.length_take, List.length_drop]
    omega
  · intro i hi
    have hoffset : addr.toNat + i - g.address.toNat = addr.toNat - g.address.toNat + i := by omega
    rw [h.byte g hg _ (Segment.Holds.byte ⟨hlow, hhigh⟩ hi), hoffset,
      List.getElem?_take_of_lt hi, List.getElem?_drop, Nat.add_assoc]

theorem Fills.shownBy (hdisjoint : (Memory.ofConfig c).Disjoint)
    (hend : ∀ r ∈ (Memory.ofConfig c).regions, r.base.toNat + r.size ≤ 2 ^ 32)
    (hapart : x.segments.Pairwise fun g g' => g.address.toNat + g.size ≤ g'.address.toNat)
    (h : x.Fills x.segments (.ofConfig c) m) : x.ShownBy c m := by
  have hm : m.Disjoint := by
    rwa [← Memory.disjoint_clear, h.layout, Memory.disjoint_clear]
  have hmaps {addr : Word} : m.Inside addr.toNat 1 ↔ c.Maps addr := by
    rw [← Memory.inside_clear, h.layout, Memory.inside_clear, Memory.inside_ofConfig]
  have hfound {addr : Word} {length : Nat} (hpos : 0 < length) :
      (∃ bytes, x.bytesAt addr length = .ok (some bytes)) ↔
        ∃ g ∈ x.segments, g.Holds addr.toNat length := by
    constructor
    · intro hsome
      by_contra hnone
      push Not at hnone
      obtain ⟨bytes, hbytes⟩ := hsome
      cases hbytes.symm.trans (bytesAt_eq_none hnone)
    · rintro ⟨g, hg, ha⟩
      obtain ⟨bytes, hbytes, _⟩ := h.bytes hapart hg hpos ha
      exact ⟨bytes, hbytes⟩
  constructor
  case byte =>
    rintro addr ⟨g, hg, ha⟩
    obtain ⟨bytes, hbytes, hlength, hbyte⟩ := h.bytes hapart hg Nat.zero_lt_one ha
    obtain ⟨v, rfl⟩ := List.length_eq_one_iff.mp hlength
    exact ⟨v, hbytes, Memory.read_byte hm (hbyte 0 Nat.zero_lt_one)⟩
  case zero =>
    intro addr hmap hout
    exact Memory.read_byte hm ((h.rest addr.toNat hout).trans (Memory.byte?_ofConfig hmap))
  case unmapped =>
    intro addr hmap
    exact Memory.read_byte_unmapped (mt hmaps.mp hmap)
  case found_iff => exact fun addr length hpos => hfound hpos
  case answers =>
    intro addr length hpos
    by_cases hin : ∃ g ∈ x.segments, g.Holds addr.toNat length
    · obtain ⟨bytes, hbytes⟩ := (hfound hpos).mpr hin
      exact ⟨some bytes, hbytes⟩
    · push Not at hin
      exact ⟨none, bytesAt_eq_none hin⟩
  case bytes =>
    intro addr length bytes hpos hbytes
    obtain ⟨g, hg, ha⟩ := (hfound hpos).mp ⟨bytes, hbytes⟩
    obtain ⟨bytes', hbytes', hlength, hbyte⟩ := h.bytes hapart hg hpos ha
    cases hbytes.symm.trans hbytes'
    refine ⟨hlength, ?_⟩
    intro i v hv
    have hi : i < length := hlength ▸ (List.getElem?_eq_some_iff.mp hv).1
    -- The segment lies in a region, so the sum does not go around.
    obtain ⟨r, hr, _, hhigh⟩ := h.inside g hg
    have hlast := hend r hr
    have hsum : (addr + BitVec.ofNat 32 i).toNat = addr.toNat + i := by
      obtain ⟨_, hg⟩ := ha
      rw [BitVec.toNat_add, BitVec.toNat_ofNat]
      omega
    have hshown : m.byte? (addr + BitVec.ofNat 32 i).toNat = some v := by
      rw [hsum, hbyte i hi, hv]
    exact Memory.read_byte hm hshown

end Executable

namespace Board

theorem default_disjoint : (Memory.ofConfig {}).Disjoint := by
  refine List.pairwise_pair.mpr ?_
  rintro a ⟨⟨_, hflash⟩, ⟨hram, _⟩⟩
  have hgap : ({} : Config).flashOrigin.toNat + ({} : Config).flashSize ≤
      ({} : Config).ramOrigin.toNat := by
    decide
  exact absurd ((hflash.trans hgap).trans hram) (Nat.not_succ_le_self a)

theorem default_end : ∀ r ∈ (Memory.ofConfig {}).regions, r.base.toNat + r.size ≤ 2 ^ 32 := by
  decide

/-- For every text that is assembled and loaded, memory shows the executable and nothing else, and
loading it again after any calls gives the board as it was loaded. -/
theorem load_shows_image (source : String) (x : Executable) (loaded : Board)
    (hx : assemble source = .ok x) (hload : load x (ofConfig {}) = .ok () loaded) :
    x.ShownBy {} loaded.memory ∧
      ∀ calls : List Call, load x (loaded.after calls) = .ok () loaded := by
  obtain ⟨_, _, o, bytes, _, _, _, himage⟩ := load_flashImage hx hload
  have hnew : (ofConfig {}).cpu.activity ≠ .running := by
    intro h
    cases h
  obtain ⟨hcpu, _, hmemory⟩ := load_cases hnew hload
  have hsmall : o.codeSize < 0x18000000 := himage.fits.trans_lt (by decide)
  have hapart := Object.segments_apart o.linkedSize hsmall
  rw [← himage.segments] at hapart
  have hfills := Executable.fills_of_loadAll (Memory.disjoint_clear.mpr default_disjoint) hapart
    hmemory
  refine ⟨hfills.shownBy default_disjoint default_end hapart, ?_⟩
  intro calls
  have hidle : loaded.cpu.activity ≠ .running := hcpu ▸ hnew
  exact load_of_sameLayout hnew (after_activity calls hidle)
    ((sameLayout_of_load hload).trans (after_sameLayout calls loaded)) hload

/-- Code and data, with another executable loaded in between. -/
theorem load_shows_image_data :
    let source := " AREA text, CODE\n MOVS R0, #1\n AREA vars, DATA\n DCB 7, 9\n"
    ∃ x loaded, assemble source = .ok x ∧ load x (ofConfig {}) = .ok () loaded ∧
      Memory.read .byte 0x20000001 loaded.memory = .ok 9 loaded.memory ∧
      Memory.read .byte 0x0800000C loaded.memory = .ok 0 loaded.memory ∧
      ¬(∃ bytes, x.bytesAt 0x0800000B 2 = .ok (some bytes)) ∧
      load x (loaded.after [.runToEnd, .load {}, .step]) = .ok () loaded := by
  intro source
  have hx : (assemble source).toOption.map (fun x => (x.segments, x.bytesAt 0x20000001 1)) =
      some ([⟨0, 12, 0x08000000⟩, ⟨12, 4, 0x20000000⟩], .ok (some [9])) := by
    decide
  have hload : (assemble source).toOption.any (fun x => match load x (ofConfig {}) with
      | .ok _ _ => true
      | .error _ _ => false) = true := by
    decide +kernel
  cases hassemble : assemble source with
  | error e =>
    rw [hassemble] at hx
    cases hx
  | ok x =>
    rw [hassemble] at hx hload
    obtain ⟨hsegments, hbytes⟩ := Prod.mk.inj (Option.some.inj hx)
    rw [Except.toOption, Option.any_some] at hload
    split at hload
    case h_2 => cases hload
    case h_1 u loaded hloaded =>
      obtain ⟨hshown, hagain⟩ := load_shows_image source x loaded hassemble hloaded
      refine ⟨x, loaded, rfl, hloaded, ?_, ?_, ?_, hagain _⟩
      · obtain ⟨v, hv, hread⟩ := hshown.byte 0x20000001 (by rw [hsegments]; decide)
        cases hbytes.symm.trans hv
        exact hread
      · exact hshown.zero 0x0800000C (.inl (by decide)) (by rw [hsegments]; decide)
      · rw [hshown.found_iff 0x0800000B 2 Nat.two_pos, hsegments]
        decide

end Board

end Thumb
