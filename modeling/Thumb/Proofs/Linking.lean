import Thumb.Proofs.Relocation

namespace Thumb

namespace Object

variable {o : Object} {areas : List Area}

def lines (o : Object) : Table Word Nat :=
  .ofList (o.marks.map fun m => (BitVec.ofNat 32 (o.addressOf m.index + m.offset), m.line))

theorem Laid.lineTable {l : Layout} (hl : o.Laid l) (h : o.WellFormed areas) :
    Object.lineTable l o.marks = .ok o.lines := by
  rw [Object.lineTable, foldlM_of_ok (g := fun (lines : Table Word Nat) m =>
    lines.insert (BitVec.ofNat 32 (o.addressOf m.index + m.offset)) m.line)]
  · rw [lines, Table.ofList, List.foldl_map]
  · intro m hm lines
    obtain ⟨s, hs, _⟩ := h.mark m hm
    rw [Layout.addressAt, (hl.place m.index s hs).1, BitVec.ofNat_add]
    rfl

/-- Linking gives an executable, unless an operand does not resolve or the content is too large. -/
theorem link_cases (h : o.WellFormed areas) :
    (∃ bytes, o.Relocated o.body o.relocations bytes ∧
      o.link = .ok {
        segments := segments o.codeSize o.linkedSize
        content := o.image bytes
        lines := o.lines
        symbols := o.values.filterKeys isProgramSymbol }) ∨
    ∃ e, o.link = .error e ∧
      (e.isUnresolved = true ∧ (∃ r ∈ o.relocations, ∀ new, ¬o.Resolves r new) ∨
        ∃ name, e = .sectionOverflow name ∧ 0xE0000000 ≤ o.linkedSize) := by
  unfold link
  cases hcode : o.placeCode with
  | error e =>
    rcases placeCode_cases h with ⟨code, hcode', _⟩ | ⟨name, hcode', hsize⟩
    · rw [hcode] at hcode'
      cases hcode'
    · rw [hcode] at hcode'
      cases hcode'
      refine .inr ⟨_, rfl, .inr ⟨name, rfl, ?_⟩⟩
      rw [linkedSize]
      omega
  | ok code =>
    obtain ⟨hcontent, hdata⟩ := placeData_cases h hcode
    rcases hdata with ⟨l, hdata, hl⟩ | ⟨name, hdata, hsize⟩
    · have hcodeSize : code.content.length = o.codeSize := by
        rw [hcontent, length_codeImage h.sized_body]
      have hsize : l.content.length = o.linkedSize := by
        rw [hl.content, length_image h.sized_body]
      simp only [bind, Except.bind, hdata, hl.symbolValues h, hl.content, hl.lineTable h, hcodeSize]
      rw [← hl.content, hsize, hl.content]
      rcases foldlM_relocate h hl (fun _ hr => hr) h.disjoint h.sized_body with
        ⟨bytes, hfold, hrelocated⟩ | ⟨e, hfold, he⟩
      · rw [hfold]
        exact .inl ⟨bytes, hrelocated, rfl⟩
      · rw [hfold]
        exact .inr ⟨e, rfl, .inl he⟩
    · simp only [bind, Except.bind, hdata]
      exact .inr ⟨_, rfl, .inr ⟨name, rfl, hsize⟩⟩

variable {bytes : Nat → List Byte} {k : Nat} {s : Section} {x : Executable}

theorem link_eq_ok (h : o.WellFormed areas) (hx : o.link = .ok x) :
    ∃ bytes, o.Relocated o.body o.relocations bytes ∧ x = {
      segments := segments o.codeSize o.linkedSize
      content := o.image bytes
      lines := o.lines
      symbols := o.values.filterKeys isProgramSymbol } := by
  rcases link_cases h with ⟨bytes, hrelocated, hlink⟩ | ⟨e, hlink, _⟩
  · rw [hx] at hlink
    exact ⟨bytes, hrelocated, Except.ok.inj hlink⟩
  · rw [hx] at hlink
    cases hlink

theorem length_of_link (h : o.WellFormed areas) (hx : o.link = .ok x) :
    x.content.length = o.linkedSize := by
  obtain ⟨bytes, hrelocated, rfl⟩ := link_eq_ok h hx
  exact length_image hrelocated.sized

theorem link_eq_error (h : o.WellFormed areas) {e : AssemblyError} (he : o.link = .error e) :
    e.isUnresolved = true ∨ ∃ name, e = .sectionOverflow name ∧ 0xE0000000 ≤ o.linkedSize := by
  rcases link_cases h with ⟨bytes, _, hlink⟩ | ⟨e', hlink, hcause⟩
  · rw [he] at hlink
    cases hlink
  · rw [he] at hlink
    cases hlink
    exact hcause.imp_left And.left

theorem exists_link (h : o.WellFormed areas) (hsize : o.linkedSize < 0xE0000000)
    (hresolves : ∀ r ∈ o.relocations, ∃ new, o.Resolves r new) : ∃ x, o.link = .ok x := by
  rcases link_cases h with ⟨bytes, _, hlink⟩ | ⟨e, _, ⟨_, r, hr, hnone⟩ | ⟨name, _, hlarge⟩⟩
  · exact ⟨_, hlink⟩
  · obtain ⟨new, hnew⟩ := hresolves r hr
    exact absurd hnew (hnone new)
  · omega

theorem take_drop_image (h : o.Sized bytes) (hs : o.sections[k]? = some s) :
    ((o.image bytes).drop (o.fileOffset k)).take s.size = bytes k := by
  obtain ⟨front, back, hlen, himage⟩ := image_around h hs
  rw [himage bytes (fun _ _ => rfl), List.append_assoc, List.drop_left' hlen, ← h k s hs,
    SectionKind.block, List.append_assoc, List.append_assoc, List.take_left]

theorem take_drop_image_add (h : o.Sized bytes) (hs : o.sections[k]? = some s)
    {offset length : Nat} (hle : offset + length ≤ s.size) :
    ((o.image bytes).drop (o.fileOffset k + offset)).take length =
      ((bytes k).drop offset).take length := by
  rw [← take_drop_image h hs, List.drop_take, List.take_take, List.drop_drop,
    Nat.min_eq_left (by omega)]

theorem addressOf_code (hs : o.sections[k]? = some s) (hkind : s.kind = .code) :
    o.addressOf k = 0x08000000 + o.fileOffset k := by
  rw [addressOf_eq hs, fileOffset_eq hs, hkind, SectionKind.base, start, ← Nat.add_assoc]

/-- A section ends before the later ones of its kind begin. -/
theorem extentBefore_add_le_of_lt (hs : o.sections[k]? = some s) {k' : Nat} (h : k < k') :
    o.extentBefore s.kind k + s.kind.extent s.size ≤ o.extentBefore s.kind k' := by
  have hnext : o.extentBefore s.kind (k + 1) =
      o.extentBefore s.kind k + s.kind.extent s.size := by
    unfold extentBefore
    rw [List.take_add_one, hs, Option.toList_some, List.filter_append,
      List.filter_cons_of_pos (by simp), List.map_append, List.sum_append]
    rfl
  rw [← hnext]
  apply List.Sublist.sum_le_sum
  · exact ((List.take_sublist_take_left h).filter _).map _
  · exact fun _ _ => Nat.zero_le _

theorem extentBefore_add_le (hs : o.sections[k]? = some s) :
    o.extentBefore s.kind k + s.kind.extent s.size ≤ o.extentBefore s.kind o.sections.length :=
  extentBefore_add_le_of_lt hs (List.getElem?_eq_some_iff.mp hs).1

theorem fileOffset_add_le_code (hs : o.sections[k]? = some s) (hkind : s.kind = .code) :
    o.fileOffset k + s.size ≤ o.codeSize := by
  have hne : o.sectionsOf .code ≠ [] := List.ne_nil_of_mem (mem_sectionsOf.mpr ⟨hs, hkind⟩)
  have hextent := extentBefore_add_le hs
  have hsize := s.kind.le_extent s.size
  rw [hkind] at hextent hsize
  rw [fileOffset_eq hs, hkind, start, codeSize, if_neg hne]
  omega

theorem fileOffset_add_le (hs : o.sections[k]? = some s) :
    o.fileOffset k + s.size ≤ o.linkedSize := by
  cases hkind : s.kind with
  | code =>
    have hcode := fileOffset_add_le_code hs hkind
    rw [linkedSize]
    omega
  | data =>
    have hextent := extentBefore_add_le hs
    have hsize := s.kind.le_extent s.size
    rw [hkind] at hextent hsize
    rw [fileOffset_eq hs, hkind, start, linkedSize]
    omega

theorem addressOf_le (hs : o.sections[k]? = some s) :
    o.addressOf k ≤ 0x20000000 + o.fileOffset k := by
  rw [addressOf_eq hs, fileOffset_eq hs]
  cases s.kind with
  | code =>
    rw [SectionKind.base, start]
    omega
  | data =>
    rw [SectionKind.base, start]
    omega

/-- The object of a program is well formed. So linking fails only because of an operand or for
content that is too large, finds the place of every section and all of its bytes, and gives every
relocation as many bytes as were set aside for it. -/
theorem ofProgram_links (p : Program) (o : Object) (ho : ofProgram p = .ok o) :
    o.WellFormed p.areas ∧
    (∀ e, o.link = .error e →
      e.isUnresolved = true ∨ ∃ name, e = .sectionOverflow name ∧ 0x18000000 ≤ o.linkedSize) ∧
    (∀ x, o.link = .ok x → x.content.length = o.linkedSize) ∧
    (∀ code l, o.placeCode = .ok code → o.placeData code = .ok l →
      l.content.length = o.linkedSize ∧
      ∀ k s, o.sections[k]? = some s → ∃ place, l.place k = .ok place ∧
        place.offset + s.size ≤ l.content.length ∧
        (o.linkedSize < 0x18000000 → place.address.toNat + s.size < 0x100000000)) ∧
    ∀ r ∈ o.relocations, ∀ values targets site new,
      resolve values targets site r = .ok new → new.length = r.length := by
  have h := ofProgram_wellFormed ho
  refine ⟨h, ?_, ?_, ?_, ?_⟩
  · intro e he
    refine (link_eq_error h he).imp_right ?_
    rintro ⟨name, rfl, hsize⟩
    exact ⟨name, rfl, by omega⟩
  · intro x hx
    obtain ⟨bytes, hrelocated, rfl⟩ := link_eq_ok h hx
    exact length_image hrelocated.sized
  · intro code l hcode hdata
    obtain ⟨_, ⟨l', hdata', hl⟩ | ⟨name, hdata', _⟩⟩ := placeData_cases h hcode
    · rw [hdata] at hdata'
      cases hdata'
      have hlen : l.content.length = o.linkedSize := by
        rw [hl.content, length_image h.sized_body]
      refine ⟨hlen, ?_⟩
      intro k s hs
      obtain ⟨hplace, hlt⟩ := hl.place k s hs
      have hend := fileOffset_add_le hs
      have haddress := addressOf_le hs
      refine ⟨_, hplace, hlen ▸ hend, ?_⟩
      intro hsize
      rw [BitVec.toNat_ofNat, Nat.mod_eq_of_lt hlt]
      omega
    · rw [hdata] at hdata'
      cases hdata'
  · intro r hr values targets site new hnew
    exact length_of_resolve (h.relocation r hr).1 hnew

/-- Code with a literal and a branch, and a datum, all of which refer to a label. -/
theorem ofProgram_links_literal :
    let p : Program := {
      areas := [
        { name := "text", kind := .code, readOnly := true, records := [
          { label := some "a", mnemonic := "LDR", operands := ["R1", "=a"], line := 1 },
          { label := none, mnemonic := "B", operands := ["a"], line := 2 }] },
        { name := "vars", kind := .data, readOnly := false, records := [
          { label := none, mnemonic := "DCD", operands := ["a"], line := 4 }] }] }
    ∃ o, ofProgram p = .ok o ∧ o.relocations.length = 4 ∧ o.WellFormed p.areas ∧
      o.link ≠ .error .outsideContent := by
  intro p
  have hp : (ofProgram p).toOption.map (·.relocations.length) = some 4 := by decide +kernel
  cases ho : ofProgram p with
  | error e =>
    rw [ho] at hp
    cases hp
  | ok o =>
    rw [ho] at hp
    obtain ⟨hform, herror, _⟩ := ofProgram_links p o ho
    refine ⟨o, rfl, Option.some.inj hp, hform, ?_⟩
    intro hlink
    rcases herror _ hlink with h | ⟨_, h, _⟩ <;> cases h

/-- The executable that linking has to give, with the given bytes in its sections. -/
structure LinkedLayout (o : Object) (bytes : Nat → List Byte) (x : Executable) : Prop where
  content : x.content = o.image bytes
  /-- There is a segment of code, and one of data unless that is empty. -/
  segments : x.segments =
    { offset := 0, size := (o.codeImage bytes).length, address := 0x08000000 } ::
      if o.blocks .data bytes = [] then []
      else [{
        offset := (o.codeImage bytes).length
        size := (o.blocks .data bytes).length
        address := 0x20000000 }]
  /-- Segments follow each other in the content and do not meet in memory. -/
  apart : x.segments.Pairwise fun g g' =>
    g.offset + g.size = g'.offset ∧ g.address.toNat + g.size ≤ g'.address.toNat
  tiled : (x.segments.map (·.size)).sum = x.content.length
  /-- The bytes of a section are where its address says. -/
  placed : ∀ k s, o.sections[k]? = some s →
    (x.content.drop (o.fileOffset k)).take s.size = bytes k ∧
    (0 < s.size → ∃ g ∈ x.segments, g.offset ≤ o.fileOffset k ∧
      o.fileOffset k + s.size ≤ g.offset + g.size ∧
      o.addressOf k = g.address.toNat + (o.fileOffset k - g.offset))
  /-- Bytes that no relocation covers are those of the object. -/
  kept : ∀ k original, o.sectionBytes k = .ok original → (bytes k).length = original.length ∧
    ∀ position, (∀ r ∈ o.relocations, ¬r.Covers k position) →
      (bytes k)[position]? = original[position]?
  relocated : ∀ r ∈ o.relocations, o.Resolves r (((bytes r.index).drop r.offset).take r.length)

theorem segments_add (codeSize dataSize : Nat) :
    segments codeSize (codeSize + dataSize) =
      { offset := 0, size := codeSize, address := 0x08000000 } ::
        if dataSize = 0 then []
        else [{ offset := codeSize, size := dataSize, address := 0x20000000 }] := by
  unfold segments
  by_cases h : dataSize = 0
  · rw [if_neg (by omega), if_pos h]
    rfl
  · rw [if_pos (by omega), if_neg h, Nat.add_sub_cancel_left]
    rfl

theorem exists_segment (hs : o.sections[k]? = some s) (hpos : 0 < s.size) :
    ∃ g ∈ segments o.codeSize o.linkedSize, g.offset ≤ o.fileOffset k ∧
      o.fileOffset k + s.size ≤ g.offset + g.size ∧
      o.addressOf k = g.address.toNat + (o.fileOffset k - g.offset) := by
  have hend := fileOffset_add_le hs
  rw [linkedSize] at hend
  rw [linkedSize, segments_add]
  cases hkind : s.kind with
  | code =>
    refine ⟨_, .head _, Nat.zero_le _, ?_, ?_⟩
    · rw [Nat.zero_add]
      exact fileOffset_add_le_code hs hkind
    · rw [addressOf_code hs hkind]
      rfl
  | data =>
    have hoffset := fileOffset_eq hs
    rw [hkind, start] at hoffset
    have hne : o.extentBefore .data o.sections.length ≠ 0 := by omega
    rw [if_neg hne]
    refine ⟨_, .tail _ (.head _), ?_, hend, ?_⟩
    · rw [hoffset]
      exact Nat.le_add_right _ _
    · rw [addressOf_eq hs, hkind, hoffset, Nat.add_sub_cancel_left]
      rfl

/-- Linking gives the specified layout. -/
theorem link_layout (p : Program) (o : Object) (x : Executable) (ho : ofProgram p = .ok o)
    (hx : o.link = .ok x) (hsize : x.content.length < 0x18000000) :
    ∃ bytes, o.LinkedLayout bytes x := by
  have h := ofProgram_wellFormed ho
  obtain ⟨bytes, hrelocated, rfl⟩ := link_eq_ok h hx
  have hcode := length_codeImage hrelocated.sized
  have hdata := length_blocks hrelocated.sized .data
  have hlinked := length_image hrelocated.sized
  refine ⟨bytes, ?_⟩
  constructor
  case content => rfl
  case segments =>
    rw [linkedSize, segments_add, hcode, ← hdata]
    simp only [List.length_eq_zero_iff]
  case apart =>
    rw [hlinked, linkedSize] at hsize
    rw [linkedSize, segments_add]
    split
    · exact List.pairwise_singleton _ _
    · refine List.pairwise_pair.mpr ⟨Nat.zero_add _, ?_⟩
      show 0x08000000 + o.codeSize ≤ 0x20000000
      omega
  case tiled =>
    rw [hlinked, linkedSize, segments_add]
    split
    case isTrue hzero =>
      rw [hzero]
      rfl
    case isFalse => rfl
  case placed =>
    intro k s hs
    exact ⟨take_drop_image hrelocated.sized hs, exists_segment hs⟩
  case kept =>
    intro k original horiginal
    unfold sectionBytes at horiginal
    split at horiginal
    case h_1 s hs =>
      rw [(h.bytesOf_body hs).1] at horiginal
      cases horiginal
      refine ⟨?_, hrelocated.outside k⟩
      rw [hrelocated.sized k s hs, h.sized_body k s hs]
    case h_2 => cases horiginal
  case relocated =>
    intro r hr
    obtain ⟨new, hnew, rfl⟩ := hrelocated.inside r hr
    exact hnew

/-- Two sections of code and two of data, with labels of other sections. -/
theorem link_layout_sections :
    let p : Program := {
      areas := [
        { name := "bytes", kind := .data, readOnly := false, records := [
          { label := some "v", mnemonic := "DCB", operands := ["7"], line := 1 }] },
        { name := "text", kind := .code, readOnly := true, records := [
          { label := some "a", mnemonic := "DCB", operands := ["1"], line := 3 },
          { label := none, mnemonic := "B", operands := ["b"], line := 4 },
          { label := some "b", mnemonic := "NOP", operands := [], line := 5 }] },
        { name := "more", kind := .code, readOnly := true, records := [
          { label := none, mnemonic := "LDR", operands := ["R1", "=v"], line := 7 }] },
        { name := "words", kind := .data, readOnly := false, records := [
          { label := none, mnemonic := "DCD", operands := ["a"], line := 9 },
          { label := none, mnemonic := "DCB", operands := ["9"], line := 10 }] }] }
    ∃ o x, ofProgram p = .ok o ∧ o.link = .ok x ∧ x.content.length = 40 ∧
      o.relocations.length = 4 ∧ ∃ bytes, o.LinkedLayout bytes x := by
  intro p
  have hp : (do
      let o ← (ofProgram p).toOption
      let x ← o.link.toOption
      return (x.content.length, o.relocations.length)) = some (40, 4) := by
    decide +kernel
  cases ho : ofProgram p with
  | error e =>
    rw [ho] at hp
    cases hp
  | ok o =>
    simp only [ho, Except.toOption, bind, Option.bind_some] at hp
    cases hx : o.link with
    | error e =>
      rw [hx] at hp
      cases hp
    | ok x =>
      simp only [hx, Option.bind_some, pure, Option.some.injEq, Prod.mk.injEq] at hp
      obtain ⟨hsize, hcount⟩ := hp
      have hlayout := link_layout p o x ho hx (by omega)
      exact ⟨o, x, rfl, hx, hsize, hcount, hlayout⟩

end Object

end Thumb
