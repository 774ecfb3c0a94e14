import Thumb.Executable.Link
import Thumb.Proofs.ObjectForm
import Thumb.Proofs.Table

namespace Thumb

theorem dvd_add_padding {alignment : Nat} (h : 0 < alignment) (n : Nat) :
    alignment ∣ n + padding alignment n := by
  apply Nat.dvd_of_mod_eq_zero
  have hlt := Nat.mod_lt n h
  have hsum : n % alignment + (alignment - n % alignment) = alignment := by omega
  rw [padding, Nat.add_mod_mod, Nat.add_mod, Nat.add_mod_mod, hsum, Nat.mod_self]

theorem padding_add_of_mod {n : Nat} (h : n % 4 = 0) (m : Nat) :
    padding 4 (n + m) = padding 4 m := by
  unfold padding
  omega

namespace SectionKind

/-- What stands behind the sections of a kind. -/
def trailer : SectionKind → List Byte
  | .code => [0xFF, 0xFF]
  | .data => []

def base : SectionKind → Nat
  | .code => 0x08000008
  | .data => 0x20000000

/-- The bytes of a section with its trailer, and with zeros up to a multiple of four. -/
def block (kind : SectionKind) (bytes : List Byte) : List Byte :=
  bytes ++ kind.trailer ++ List.replicate (padding 4 (bytes.length + kind.trailer.length)) 0

def extent (kind : SectionKind) (size : Nat) : Nat :=
  size + kind.trailer.length + padding 4 (size + kind.trailer.length)

theorem length_block (kind : SectionKind) (bytes : List Byte) :
    (kind.block bytes).length = kind.extent bytes.length := by
  simp only [block, extent, List.length_append, List.length_replicate]

theorem extent_mod (kind : SectionKind) (size : Nat) : kind.extent size % 4 = 0 :=
  Nat.mod_eq_zero_of_dvd (dvd_add_padding (by decide) _)

theorem le_extent (kind : SectionKind) (size : Nat) : size ≤ kind.extent size := by
  unfold extent
  omega

end SectionKind

namespace Object

def body (o : Object) (k : Nat) : List Byte :=
  match o.sections[k]? with
  | some s => (o.content.drop s.offset).take s.size
  | none => []

/-- How many bytes the sections of a kind take that come before an index. -/
def extentBefore (o : Object) (kind : SectionKind) (k : Nat) : Nat :=
  (((o.sections.take k).filter (·.kind = kind)).map fun s => kind.extent s.size).sum

/-- How many bytes the vector table and the code take, with an end marker also if there is no
code. -/
def codeSize (o : Object) : Nat :=
  8 + if o.sectionsOf .code = [] then 4 else o.extentBefore .code o.sections.length

def linkedSize (o : Object) : Nat :=
  o.codeSize + o.extentBefore .data o.sections.length

/-- The address of a section. -/
def addressOf (o : Object) (k : Nat) : Nat :=
  match o.sections[k]? with
  | some s => s.kind.base + o.extentBefore s.kind k
  | none => 0

def start (o : Object) : SectionKind → Nat
  | .code => 8
  | .data => o.codeSize

/-- Where in the linked content a section is. -/
def fileOffset (o : Object) (k : Nat) : Nat :=
  match o.sections[k]? with
  | some s => o.start s.kind + o.extentBefore s.kind k
  | none => 0

def blocks (o : Object) (kind : SectionKind) (bytes : Nat → List Byte) : List Byte :=
  (o.sectionsOf kind).flatMap fun entry => kind.block (bytes entry.2)

def codeImage (o : Object) (bytes : Nat → List Byte) : List Byte :=
  Width.word.toBytes 0x20002000 ++ Width.word.toBytes 0x08000008 ++
    if o.sectionsOf .code = [] then [0xFF, 0xFF, 0, 0] else o.blocks .code bytes

/-- The linked content, with the given bytes in its sections. -/
def image (o : Object) (bytes : Nat → List Byte) : List Byte :=
  o.codeImage bytes ++ o.blocks .data bytes

theorem mem_sectionsOf {o : Object} {kind : SectionKind} {s : Section} {k : Nat} :
    (s, k) ∈ o.sectionsOf kind ↔ o.sections[k]? = some s ∧ s.kind = kind := by
  simp [sectionsOf, List.mem_zipIdx_iff_getElem?]

theorem not_mem_sectionsOf {o : Object} {kind : SectionKind} {s : Section} {k : Nat}
    (hs : o.sections[k]? = some s) (hkind : s.kind ≠ kind) :
    k ∉ (o.sectionsOf kind).map (·.2) := by
  intro hmap
  obtain ⟨⟨s', k'⟩, hmem, rfl⟩ := List.mem_map.mp hmap
  obtain ⟨hs', hkind'⟩ := mem_sectionsOf.mp hmem
  rw [hs] at hs'
  cases hs'
  exact hkind hkind'

theorem nodup_sectionsOf (o : Object) (kind : SectionKind) :
    ((o.sectionsOf kind).map (·.2)).Nodup := by
  have hsub := (List.filter_sublist (l := o.sections.zipIdx) (p := (·.1.kind = kind))).map (·.2)
  refine hsub.nodup ?_
  rw [List.zipIdx_map_snd]
  exact List.nodup_range'

def totalExtent (kind : SectionKind) (entries : List (Section × Nat)) : Nat :=
  (entries.map fun entry => kind.extent entry.1.size).sum

theorem totalExtent_cons (kind : SectionKind) (s : Section) (k : Nat)
    (entries : List (Section × Nat)) :
    totalExtent kind ((s, k) :: entries) = kind.extent s.size + totalExtent kind entries := by
  rw [totalExtent, List.map_cons, List.sum_cons]
  rfl

theorem totalExtent_zipIdx (kind : SectionKind) (sections : List Section) (n : Nat) :
    totalExtent kind ((sections.zipIdx n).filter (·.1.kind = kind)) =
      ((sections.filter (·.kind = kind)).map fun s => kind.extent s.size).sum := by
  have hfst : ((sections.zipIdx n).filter (·.1.kind = kind)).map (·.1) =
      sections.filter (·.kind = kind) := by
    conv_rhs => rw [← List.zipIdx_map_fst n sections, List.filter_map]
    rfl
  rw [totalExtent, ← hfst, List.map_map]
  rfl

theorem totalExtent_sectionsOf (o : Object) (kind : SectionKind) :
    totalExtent kind (o.sectionsOf kind) = o.extentBefore kind o.sections.length := by
  rw [sectionsOf, totalExtent_zipIdx, extentBefore, List.take_length]

theorem sectionsOf_split {o : Object} {k : Nat} {s : Section} (hs : o.sections[k]? = some s) :
    ∃ before after, o.sectionsOf s.kind = before ++ (s, k) :: after ∧
      totalExtent s.kind before = o.extentBefore s.kind k := by
  obtain ⟨hk, rfl⟩ := List.getElem?_eq_some_iff.mp hs
  generalize hkind : (o.sections[k]).kind = kind
  have hsplit : o.sections = o.sections.take k ++ o.sections[k] :: o.sections.drop (k + 1) := by
    rw [List.cons_getElem_drop_succ, List.take_append_drop]
  have hzip := congrArg List.zipIdx hsplit
  rw [List.zipIdx_append, List.length_take_of_le hk.le, List.zipIdx_cons, Nat.zero_add] at hzip
  refine ⟨(o.sections.take k).zipIdx.filter (·.1.kind = kind),
    ((o.sections.drop (k + 1)).zipIdx (k + 1)).filter (·.1.kind = kind), ?_, ?_⟩
  · rw [sectionsOf, hzip, List.filter_append, List.filter_cons_of_pos (by simp [hkind])]
  · exact totalExtent_zipIdx kind _ 0

def Sized (o : Object) (bytes : Nat → List Byte) : Prop :=
  ∀ k s, o.sections[k]? = some s → (bytes k).length = s.size

namespace Run

/-- The place of a section after so many bytes of content. -/
def placeAt (run : Run) (n : Nat) : Placement :=
  { address := BitVec.ofNat 32 (run.origin.toNat + (n - run.start)), offset := n }

theorem add_eq {run : Run} {kind : SectionKind} {o : Object} {l : Layout} {s : Section} {k : Nat}
    {bytes : List Byte} (ht : run.trailer = kind.trailer) (hl : run.start ≤ l.content.length)
    (hmod : (l.content.length - run.start) % 4 = 0) (hb : o.bytesOf s = .ok bytes) :
    run.add o l (s, k) =
      if run.origin.toNat + (l.content.length - run.start) < 0x100000000 then
        .ok ⟨l.content ++ kind.block bytes, l.places.insert k (run.placeAt l.content.length)⟩
      else .error (.sectionOverflow s.name) := by
  have hpad : run.pad (l.content ++ bytes ++ run.trailer) = l.content ++ kind.block bytes := by
    have hlen : (l.content ++ bytes ++ run.trailer).length - run.start =
        (l.content.length - run.start) + (bytes.length + kind.trailer.length) := by
      rw [ht, List.length_append, List.length_append]
      omega
    rw [pad, hlen, padding_add_of_mod hmod, ht, SectionKind.block]
    simp only [List.append_assoc]
  unfold add address
  dsimp only
  split
  · rw [hb, ← hpad]
    rfl
  · rfl

/-- What adding sections of a kind does to a layout. -/
structure Placed (run : Run) (kind : SectionKind) (bytes : Nat → List Byte) (l : Layout)
    (entries : List (Section × Nat)) (l' : Layout) : Prop where
  content : l'.content = l.content ++ entries.flatMap fun entry => kind.block (bytes entry.2)
  place : ∀ before s k after, entries = before ++ (s, k) :: after →
    l'.places.get? k = some (run.placeAt (l.content.length + totalExtent kind before)) ∧
    run.origin.toNat + (l.content.length + totalExtent kind before - run.start) < 0x100000000
  kept : ∀ k, k ∉ entries.map (·.2) → l'.places.get? k = l.places.get? k

/-- Sections are added one after the other until an address is too large. -/
theorem foldlM_add (run : Run) (kind : SectionKind) {o : Object} {bytes : Nat → List Byte}
    (ht : run.trailer = kind.trailer) {entries : List (Section × Nat)}
    (hbytes : ∀ s k, (s, k) ∈ entries → o.bytesOf s = .ok (bytes k) ∧ (bytes k).length = s.size)
    (hnodup : (entries.map (·.2)).Nodup) {l : Layout} (hl : run.start ≤ l.content.length)
    (hmod : (l.content.length - run.start) % 4 = 0) :
    (∃ l', entries.foldlM (run.add o) l = .ok l' ∧ run.Placed kind bytes l entries l') ∨
    ∃ name, entries.foldlM (run.add o) l = .error (.sectionOverflow name) ∧
      0x100000000 ≤ run.origin.toNat +
        (l.content.length + totalExtent kind entries - run.start) := by
  -- The content stays aligned from the start of the run, so each block can be placed alone.
  induction entries generalizing l with
  | nil =>
    refine .inl ⟨l, rfl, (List.append_nil _).symm, ?_, fun _ _ => rfl⟩
    intro before s k after h
    simp at h
  | cons entry rest ih =>
    obtain ⟨s, k⟩ := entry
    obtain ⟨hb, hsize⟩ := hbytes s k (.head _)
    rw [List.map_cons, List.nodup_cons] at hnodup
    rw [List.foldlM_cons, add_eq ht hl hmod hb, totalExtent_cons]
    split
    case isFalse hover => exact .inr ⟨s.name, rfl, by omega⟩
    case isTrue hfits =>
      obtain ⟨l₁, hl₁⟩ : ∃ l₁ : Layout, l₁ = ⟨l.content ++ kind.block (bytes k),
          l.places.insert k (run.placeAt l.content.length)⟩ := ⟨_, rfl⟩
      have hlen : l₁.content.length = l.content.length + kind.extent s.size := by
        rw [hl₁, List.length_append, SectionKind.length_block, hsize]
      have hext := kind.extent_mod s.size
      have hrest := ih (fun s' k' hmem => hbytes s' k' (.tail _ hmem)) hnodup.2 (l := l₁)
        (by omega) (by omega)
      rw [← hl₁]
      rcases hrest with ⟨l', hfold, hplaced⟩ | ⟨name, hfold, hover⟩
      · refine .inl ⟨l', hfold, ?_, ?_, ?_⟩
        · rw [hplaced.content, List.flatMap_cons, ← List.append_assoc, hl₁]
        · intro before s' k' after heq
          cases before with
          | nil =>
            cases heq
            rw [hplaced.kept k hnodup.1, hl₁, Table.get?_insert, if_pos Std.compare_self]
            exact ⟨rfl, hfits⟩
          | cons entry before =>
            cases heq
            rw [totalExtent_cons, ← Nat.add_assoc, ← hlen]
            exact hplaced.place before s' k' after rfl
        · intro k' hk'
          rw [List.map_cons, List.mem_cons, not_or] at hk'
          rw [hplaced.kept k' hk'.2, hl₁, Table.get?_insert,
            if_neg (mt Std.LawfulEqCmp.eq_of_compare hk'.1)]
      · exact .inr ⟨name, hfold, by omega⟩

end Run

variable {o : Object} {areas : List Area} {bytes : Nat → List Byte}

theorem addressOf_eq {k : Nat} {s : Section} (hs : o.sections[k]? = some s) :
    o.addressOf k = s.kind.base + o.extentBefore s.kind k := by
  rw [addressOf, hs]

theorem fileOffset_eq {k : Nat} {s : Section} (hs : o.sections[k]? = some s) :
    o.fileOffset k = o.start s.kind + o.extentBefore s.kind k := by
  rw [fileOffset, hs]

theorem length_blocks (h : o.Sized bytes) (kind : SectionKind) :
    (o.blocks kind bytes).length = o.extentBefore kind o.sections.length := by
  rw [blocks, List.length_flatMap, ← totalExtent_sectionsOf, totalExtent]
  refine congrArg List.sum (List.map_congr_left ?_)
  rintro ⟨s, k⟩ hmem
  rw [SectionKind.length_block, h k s (mem_sectionsOf.mp hmem).1]

theorem length_codeImage (h : o.Sized bytes) : (o.codeImage bytes).length = o.codeSize := by
  rw [codeImage, codeSize, List.length_append, apply_ite List.length, length_blocks h]
  rfl

theorem length_image (h : o.Sized bytes) : (o.image bytes).length = o.linkedSize := by
  rw [image, linkedSize, List.length_append, length_codeImage h, length_blocks h]

theorem WellFormed.bytesOf_body (h : o.WellFormed areas) {k : Nat} {s : Section}
    (hs : o.sections[k]? = some s) :
    o.bytesOf s = .ok (o.body k) ∧ (o.body k).length = s.size := by
  have hend := h.end_le hs
  have hbody : o.body k = (o.content.drop s.offset).take s.size := by
    rw [body, hs]
  refine ⟨hbody ▸ if_pos hend, ?_⟩
  rw [hbody, List.length_take, List.length_drop]
  omega

theorem WellFormed.sized_body (h : o.WellFormed areas) : o.Sized o.body :=
  fun _ _ hs => (h.bytesOf_body hs).2

/-- Code starts after the vector table, and an address is too large only for content that is. -/
theorem placeCode_cases (h : o.WellFormed areas) :
    (∃ code, o.placeCode = .ok code ∧ code.content = o.codeImage o.body ∧
      ∀ k s, o.sections[k]? = some s → s.kind = .code →
        code.places.get? k = some ⟨BitVec.ofNat 32 (o.addressOf k), o.fileOffset k⟩ ∧
        o.addressOf k < 0x100000000) ∨
    ∃ name, o.placeCode = .error (.sectionOverflow name) ∧ 0xF8000000 ≤ o.codeSize := by
  unfold placeCode
  split
  case h_1 hnil =>
    refine .inl ⟨_, rfl, ?_, ?_⟩
    · rw [codeImage, if_pos hnil]
      decide
    · intro k s hs hkind
      have hmem := mem_sectionsOf.mpr ⟨hs, hkind⟩
      rw [hnil] at hmem
      cases hmem
  case h_2 hne =>
    have hne : o.sectionsOf .code ≠ [] := hne
    have hvector : vectorTable.length = 8 := by decide
    have horigin : codeRun.origin.toNat = 0x08000000 := by decide
    rcases codeRun.foldlM_add .code rfl (fun s k hmem => h.bytesOf_body (mem_sectionsOf.mp hmem).1)
        (o.nodup_sectionsOf .code) (l := { content := vectorTable }) (Nat.zero_le _) (by decide)
      with ⟨code, hfold, hplaced⟩ | ⟨name, hfold, hover⟩
    · refine .inl ⟨code, hfold, ?_, ?_⟩
      · rw [hplaced.content, codeImage, if_neg hne]
        rfl
      · intro k s hs hkind
        obtain ⟨before, after, hsplit, htotal⟩ := sectionsOf_split hs
        rw [hkind] at hsplit htotal
        have hplace := hplaced.place before s k after hsplit
        rw [htotal, hvector, Run.placeAt, horigin, codeRun, Nat.sub_zero, ← Nat.add_assoc] at hplace
        rw [addressOf_eq hs, fileOffset_eq hs, hkind]
        exact hplace
    · refine .inr ⟨name, hfold, ?_⟩
      rw [totalExtent_sectionsOf, hvector, horigin, codeRun, Nat.sub_zero] at hover
      rw [codeSize, if_neg hne]
      omega

structure Laid (o : Object) (l : Layout) : Prop where
  content : l.content = o.image o.body
  place : ∀ k s, o.sections[k]? = some s →
    l.place k = .ok ⟨BitVec.ofNat 32 (o.addressOf k), o.fileOffset k⟩ ∧
    o.addressOf k < 0x100000000

theorem placeData_cases (h : o.WellFormed areas) {code : Layout} (hcode : o.placeCode = .ok code) :
    code.content = o.codeImage o.body ∧
    ((∃ l, o.placeData code = .ok l ∧ o.Laid l) ∨
    ∃ name, o.placeData code = .error (.sectionOverflow name) ∧ 0xE0000000 ≤ o.linkedSize) := by
  rcases placeCode_cases h with ⟨code', hcode', hcontent, hplaces⟩ | ⟨name, hcode', _⟩
  swap
  · rw [hcode] at hcode'
    cases hcode'
  rw [hcode] at hcode'
  cases hcode'
  refine ⟨hcontent, ?_⟩
  have hlen : code.content.length = o.codeSize := by
    rw [hcontent, length_codeImage h.sized_body]
  have horigin : (dataRun o.codeSize).origin.toNat = 0x20000000 := rfl
  unfold placeData
  rw [hlen]
  rcases (dataRun o.codeSize).foldlM_add .data rfl
      (fun s k hmem => h.bytesOf_body (mem_sectionsOf.mp hmem).1) (o.nodup_sectionsOf .data)
      (l := code) hlen.ge (by rw [hlen, dataRun, Nat.sub_self])
    with ⟨l, hfold, hplaced⟩ | ⟨name, hfold, hover⟩
  · refine .inl ⟨l, hfold, ?_, ?_⟩
    · rw [hplaced.content, hcontent]
      rfl
    · intro k s hs
      have hplace : l.places.get? k = some ⟨BitVec.ofNat 32 (o.addressOf k), o.fileOffset k⟩ ∧
          o.addressOf k < 0x100000000 := by
        cases hkind : s.kind with
        | code =>
          have hne : s.kind ≠ .data := by rw [hkind]; decide
          rw [hplaced.kept k (not_mem_sectionsOf hs hne)]
          exact hplaces k s hs hkind
        | data =>
          obtain ⟨before, after, hsplit, htotal⟩ := sectionsOf_split hs
          rw [hkind] at hsplit htotal
          have hplace := hplaced.place before s k after hsplit
          rw [htotal, hlen, Run.placeAt, horigin, dataRun, Nat.add_sub_cancel_left] at hplace
          rw [addressOf_eq hs, fileOffset_eq hs, hkind]
          exact hplace
      rw [Layout.place, hplace.1]
      exact ⟨rfl, hplace.2⟩
  · refine .inr ⟨name, hfold, ?_⟩
    rw [totalExtent_sectionsOf, horigin, dataRun, hlen, Nat.add_sub_cancel_left] at hover
    rw [linkedSize]
    omega

end Object

end Thumb
