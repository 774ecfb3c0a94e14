import Thumb.Proofs.LineTable
import Thumb.Proofs.LiteralLoad

namespace Thumb

namespace Width

variable {w : Width} {v : Int}

/-- The numbers that have bytes of a width, with or without a sign. -/
def Fits (w : Width) (v : Int) : Prop :=
  -2 ^ (w.bits - 1) ≤ v ∧ v < 2 ^ w.bits

instance (w : Width) (v : Int) : Decidable (w.Fits v) :=
  inferInstanceAs (Decidable (_ ∧ _))

theorem fits_iff :
    w.Fits v ↔ -(Nat.pow 2 (w.bits - 1) : Int) ≤ v ∧ v < (Nat.pow 2 w.bits : Int) := by
  simp [Fits]

theorem integral_of_fits (h : w.Fits v) : (Number.integer v).integral = .ok v := by
  have hsmall : Number.fits128 v = true := by
    obtain ⟨hlow, hhigh⟩ := h
    unfold Number.fits128
    cases w <;> simp only [bits] at hlow hhigh <;> simp <;> omega
  rw [Number.integral_integer]
  exact if_pos hsmall

theorem dataBytes_of_fits (h : w.Fits v) : ∃ bytes, w.dataBytes v = .ok bytes := by
  have hintegral := integral_of_fits h
  obtain ⟨hlow, hhigh⟩ := fits_iff.mp h
  have hvalue : w.ofEither (.integer v) = .ok (BitVec.ofInt w.bits v) := by
    by_cases hsign : 0 ≤ v
    · have hunsigned : w.ofUnsigned (.integer v) = .ok (BitVec.ofInt w.bits v) := by
        rw [ofUnsigned, hintegral]
        exact if_pos ⟨hsign, hhigh⟩
      rw [ofEither, hunsigned]
    · have hunsigned : w.ofUnsigned (.integer v) =
          .error (.outOfRange (.ofInt v) w.bits .unsigned) := by
        rw [ofUnsigned, hintegral]
        exact if_neg fun hrange => hsign hrange.1
      have hpos : (0 : Int) < (Nat.pow 2 (w.bits - 1) : Int) :=
        Int.natCast_pos.mpr (Nat.two_pow_pos _)
      have hsigned : w.ofSigned (.integer v) = .ok (BitVec.ofInt w.bits v) := by
        rw [ofSigned, hintegral]
        exact if_pos ⟨hlow, by omega⟩
      rw [ofEither, hunsigned]
      exact hsigned
  exact ⟨_, congrArg (Except.map w.toBytes) hvalue⟩

theorem fits_of_dataBytes {bytes : List Byte} (h : w.dataBytes v = .ok bytes) : w.Fits v := by
  obtain ⟨value, hvalue, rfl⟩ := map_ok_iff.mp h
  rw [fits_iff]
  have hpos : (0 : Int) < (Nat.pow 2 (w.bits - 1) : Int) :=
    Int.natCast_pos.mpr (Nat.two_pow_pos _)
  have hle : (Nat.pow 2 (w.bits - 1) : Int) ≤ (Nat.pow 2 w.bits : Int) :=
    Int.ofNat_le.mpr (Nat.pow_le_pow_right Nat.two_pos (Nat.sub_le _ _))
  obtain ⟨_, hrange | hrange⟩ := ofEither_cases hvalue
  · exact ⟨by omega, hrange.2⟩
  · exact ⟨hrange.1, hrange.2.trans_le hle⟩

theorem dataBytes_error_iff : (∃ e, w.dataBytes v = .error e) ↔ ¬w.Fits v := by
  constructor
  · rintro ⟨e, he⟩ hfits
    obtain ⟨bytes, hbytes⟩ := dataBytes_of_fits hfits
    cases he.symm.trans hbytes
  · intro h
    cases hdata : w.dataBytes v with
    | ok bytes => exact absurd (fits_of_dataBytes hdata) h
    | error e => exact ⟨e, rfl⟩

end Width

theorem RecordKind.alignment_dvd (kind : RecordKind) : kind.alignment ∣ 4 := by
  cases kind with
  | data width => cases width <;> decide
  | space filled => exact Nat.one_dvd 4
  | align => exact Nat.one_dvd 4
  | instruction => exact ⟨2, rfl⟩

/-- The bytes of an operand of a data directive: those of a text, or those of a value that fits. -/
inductive Program.Emits (p : Program) (o : Object) : Width → String → List Byte → Prop
  | text {operand : String} {cs : List Char} (quoted : unquote? operand.toList = some cs) :
      p.Emits o .byte operand (utf8 (unescape cs))
  | value {width : Width} {operand : String} {v : Int}
      (plain : width = .byte → unquote? operand.toList = none) (denotes : p.Denotes o operand v)
      (fits : width.Fits v) : p.Emits o width operand (width.toBytes (BitVec.ofInt width.bits v))

namespace Object

namespace Draft

variable {d d' : Draft} {width : Width} {r : Record} {operand : String}

theorem dataOperand_of_plain (h : width = .byte → unquote? operand.toList = none) :
    dataOperand width r d operand = d.datum width r.mnemonic operand r.line := by
  unfold dataOperand
  split
  case h_1 hquoted =>
    rw [h rfl] at hquoted
    cases hquoted
  case h_2 => rfl

theorem quoted_or_plain (width : Width) (operand : String) :
    (∃ cs, width = .byte ∧ unquote? operand.toList = some cs) ∨
      (width = .byte → unquote? operand.toList = none) := by
  by_cases hwidth : width = .byte
  · cases hquoted : unquote? operand.toList with
    | none => exact .inr fun _ => rfl
    | some cs => exact .inl ⟨cs, hwidth, rfl⟩
  · exact .inr fun h => absurd h hwidth

theorem dataOperand_cases (width : Width) (r : Record) (d : Draft) (operand : String) :
    (∃ cs, width = .byte ∧ unquote? operand.toList = some cs ∧
      dataOperand width r d operand = .ok (d.emit (utf8 (unescape cs)))) ∨
    (width = .byte → unquote? operand.toList = none) ∧
      dataOperand width r d operand = d.datum width r.mnemonic operand r.line := by
  rcases quoted_or_plain width operand with ⟨cs, rfl, hquoted⟩ | hplain
  · refine .inl ⟨cs, rfl, hquoted, ?_⟩
    unfold dataOperand
    rw [hquoted]
  · exact .inr ⟨hplain, dataOperand_of_plain hplain⟩

end Draft

section Linked

variable {p : Program} {areas : List Area} {a : Area} {c d₀ d d' d₁ d₂ : Draft}
  {lines lines' : List Nat} {bytes : Nat → List Byte}
  (hform : d₀.object.WellFormed areas) (hext : d₀.Extends lines d) (hext' : d'.Extends lines' d₁)
  (hcont : (d₁.finish a).Continues d₂)
  (hrel : d₂.object.Relocated d₂.object.body d₂.object.relocations bytes)

include hform hext hext' hcont hrel

theorem Relocated.kept {linesOf : List Nat} (hstep : d.Extends linesOf d') {piece : List Byte}
    (hbytes : d'.bytes = d.bytes ++ piece)
    (hrelocations : d'.object.relocations = d.object.relocations ++ []) :
    ((bytes d₀.index).drop d.bytes.length).take piece.length = piece := by
  obtain ⟨_, hbody⟩ := Draft.body_of_finish (hext.trans (hstep.trans hext')) hcont
  obtain ⟨_, hothers⟩ := Draft.not_covers_of_step hform hext hstep hext' hcont hrelocations
  obtain ⟨more, hmore⟩ := hext'.bytes
  have hpiece : ((d₂.object.body d₀.index).drop d.bytes.length).take piece.length = piece := by
    rw [hbody, ← hmore, hbytes, List.append_assoc, List.drop_left, List.take_left]
  refine Eq.trans (take_drop_congr ?_) hpiece
  intro n hn
  apply hrel.outside
  intro r hr
  rcases hothers r hr with hnone | hfree
  · cases hnone
  · apply hfree _ (Nat.le_add_right _ _)
    rw [hbytes, List.length_append]
    exact Nat.add_lt_add_left hn _

variable (ho : ofProgram p = .ok d₂.object) (hc : p.constants.foldlM Draft.constant {} = .ok c)
  (hconstants : d₀.constants = c.constants)

include ho hc hconstants

theorem Relocated.datum {width : Width} {mnemonic operand : String} {line : Nat}
    (h : d.datum width mnemonic operand line = .ok d') :
    ∃ v, p.Denotes d₂.object operand v ∧ width.Fits v ∧
      d'.bytes.length = d.bytes.length + width.bytes ∧
      ((bytes d₀.index).drop d.bytes.length).take width.bytes =
        width.toBytes (BitVec.ofInt width.bits v) := by
  have hstep := Draft.datum_extends h
  obtain ⟨_, piece, own, hlen, hbytes, hrelocations, hnumber, hnamed⟩ := Draft.datum_cases h
  have hlength : d'.bytes.length = d.bytes.length + width.bytes := by
    rw [hbytes, List.length_append, hlen]
  rw [hext.constants, hconstants, Program.value?_constants hc] at hnumber hnamed
  cases hvalue : p.number? operand with
  | some v =>
    obtain ⟨hdata, rfl⟩ := hnumber v hvalue
    have hkept := Relocated.kept hform hext hext' hcont hrel hstep hbytes hrelocations
    rw [hlen] at hkept
    exact ⟨v, .number hvalue, Width.fits_of_dataBytes hdata, hlength,
      hkept.trans (Width.eq_toBytes_of_dataBytes hdata)⟩
  | none =>
    obtain ⟨hlabel, rfl⟩ := hnamed hvalue
    obtain ⟨hown, _⟩ := Draft.not_covers_of_step hform hext hstep hext' hcont hrelocations
    obtain ⟨new, hnew, hslice⟩ := hrel.inside _ (hown _ (.head _))
    obtain ⟨symbol, hsymbol, hdata⟩ := hnew.symbol
    rw [hext.index_eq] at hslice
    exact ⟨_, Program.denotes_of_symbol ho hvalue hlabel hsymbol, Width.fits_of_dataBytes hdata,
      hlength, hslice.trans (Width.eq_toBytes_of_dataBytes hdata)⟩

theorem Relocated.dataOperand {width : Width} {r : Record} {operand : String}
    (h : Draft.dataOperand width r d operand = .ok d') :
    ∃ piece, p.Emits d₂.object width operand piece ∧
      d'.bytes.length = d.bytes.length + piece.length ∧
      ((bytes d₀.index).drop d.bytes.length).take piece.length = piece := by
  rcases Draft.dataOperand_cases width r d operand with ⟨cs, rfl, hquoted, htext⟩ | ⟨hplain, hdatum⟩
  · have hd' := Except.ok.inj (h.symm.trans htext)
    refine ⟨_, .text hquoted, ?_, ?_⟩
    · rw [hd', Draft.emit, List.length_append]
    · apply Relocated.kept hform hext hext' hcont hrel (Draft.dataOperand_extends h)
      · rw [hd']
        rfl
      · rw [hd', List.append_nil]
        rfl
  · obtain ⟨v, hdenotes, hfits, hlength, hslice⟩ :=
      Relocated.datum hform hext hext' hcont hrel ho hc hconstants (hdatum.symm.trans h)
    refine ⟨_, .value hplain hdenotes hfits, ?_, ?_⟩
    · rw [hlength, Width.length_toBytes]
    · rw [Width.length_toBytes, hslice]

omit hext

theorem Relocated.dataOperands {width : Width} {r : Record} {operands : List String}
    (hext : d₀.Extends lines d)
    (h : operands.foldlM (Draft.dataOperand width r) d = .ok d') :
    ∃ pieces, List.Forall₂ (p.Emits d₂.object width) operands pieces ∧
      d'.bytes.length = d.bytes.length + pieces.flatten.length ∧
      ((bytes d₀.index).drop d.bytes.length).take pieces.flatten.length = pieces.flatten := by
  induction operands generalizing d lines with
  | nil =>
    cases h
    exact ⟨[], .nil, rfl, rfl⟩
  | cons operand operands ih =>
    obtain ⟨e, hstep, h⟩ := bind_ok_iff.mp h
    have hrest := Draft.dataOperands_extends h
    obtain ⟨piece, hpiece, hlength, hslice⟩ := Relocated.dataOperand hform hext
      (hrest.trans hext') hcont hrel ho hc hconstants hstep
    obtain ⟨pieces, hpieces, hlength', hslice'⟩ :=
      ih (hext.trans (Draft.dataOperand_extends hstep)) h
    refine ⟨piece :: pieces, .cons hpiece hpieces, ?_, ?_⟩
    · rw [hlength', hlength, List.flatten_cons, List.length_append, Nat.add_assoc]
    · rw [List.flatten_cons, List.length_append, List.take_add, hslice, List.drop_drop, ← hlength,
        hslice']

end Linked

section Place

variable {p : Program} {o : Object} {i j address : Nat} {r : Record}

theorem addressOf_dvd (o : Object) (k : Nat) : 4 ∣ o.addressOf k := by
  unfold addressOf
  split
  case h_1 s _ =>
    have hextent : 4 ∣ o.extentBefore s.kind k := by
      apply List.dvd_sum
      intro n hn
      obtain ⟨s', _, rfl⟩ := List.mem_map.mp hn
      exact Nat.dvd_of_mod_eq_zero (s.kind.extent_mod s'.size)
    have hbase : 4 ∣ s.kind.base := by
      cases s.kind <;> decide
    exact Nat.dvd_add hbase hextent
  case h_2 => exact Nat.dvd_zero 4

/-- Records are aligned in memory, because their sections are. -/
theorem RecordAt.aligned (h : o.RecordAt p i j r address) : r.kind.alignment ∣ address := by
  obtain ⟨_, d, _, rfl⟩ := h
  obtain ⟨_, _, hoffset⟩ := align_bounds d r.kind.alignment_pos
  exact Nat.dvd_add (r.kind.alignment_dvd.trans (o.addressOf_dvd i)) hoffset

theorem RecordAt.data {bytes : Nat → List Byte} {width : Width} (ho : ofProgram p = .ok o)
    (hrel : o.Relocated o.body o.relocations bytes) (h : o.RecordAt p i j r address)
    (hkind : r.kind = .data width) :
    ∃ s offset pieces, o.sections[i]? = some s ∧ o.addressOf i + offset = address ∧
      List.Forall₂ (p.Emits o width) r.operands pieces ∧
      offset + pieces.flatten.length ≤ s.size ∧
      ((bytes i).drop offset).take pieces.flatten.length = pieces.flatten := by
  obtain ⟨⟨a, ha, hr⟩, e, he, haddress⟩ := h
  obtain ⟨c, d₀, d₁, d₂, d₃, hconstants, htake, hrecords, hpool, hdrop, rfl⟩ :=
    Draft.ofProgram_split ho ha
  obtain ⟨d, d', hbefore, hrecord, hafter⟩ := foldlM_getElem? hr hrecords
  cases he.symm.trans (Draft.before_eq ha hconstants htake hbefore)
  have hform := Draft.areas_wellFormed htake (Draft.constants_wellFormed hconstants)
  have hindex := Draft.index_eq_of_take ha hform
  have hext := Draft.records_extends hbefore
  have hext' := (Draft.records_extends hafter).trans (Draft.flushPool_extends hpool)
  have hcont := Draft.areas_continues hdrop
  obtain ⟨e₁, ⟨symbols, he₁⟩, hplace, hbody⟩ := Draft.record_cases hrecord
  have hlength : (e₁.mark r.line).bytes.length = (e.align r.kind.alignment).bytes.length := by
    rw [he₁]
    rfl
  rw [Draft.body, hkind] at hbody
  dsimp only at hbody
  unfold Draft.data at hbody
  split at hbody
  case isTrue => cases hbody
  case isFalse =>
    obtain ⟨pieces, hpieces, hend, hslice⟩ := Relocated.dataOperands hform hext' hcont hrel ho
      hconstants (Draft.constants_areas htake)
      (hext.trans (hplace.trans (e₁.mark_extends r.line))) hbody
    obtain ⟨hsection, _⟩ := Draft.body_of_finish
      (hext.trans ((Draft.record_extends hrecord).trans hext')) hcont
    rw [hindex] at hslice hsection
    rw [hlength] at hslice hend
    refine ⟨_, _, pieces, hsection, haddress, hpieces, ?_, hslice⟩
    rw [← hend]
    exact hext'.length_le

end Place

end Object

theorem Executable.bytesAt_of_find {x : Executable} {g : Segment} {addr : Word}
    (hfind : x.segments.find? (·.contains addr) = some g)
    (hcontent : g.offset + g.size ≤ x.content.length) {start length : Nat}
    (haddr : addr.toNat = g.address.toNat + start) (hend : start + length ≤ g.size) :
    x.bytesAt addr length = .ok (some ((x.content.drop (g.offset + start)).take length)) := by
  rw [bytesAt, hfind]
  dsimp only
  rw [haddr, Nat.add_sub_cancel_left, if_neg (by omega), slice, if_pos (by omega)]
  rfl

/-- Bytes of a segment are found at their addresses, where segments do not meet in memory. -/
theorem Executable.bytesAt_of_segment {x : Executable} {g : Segment}
    (hapart : x.segments.Pairwise fun g g' => g.address.toNat + g.size ≤ g'.address.toNat)
    (hg : g ∈ x.segments) (hcontent : g.offset + g.size ≤ x.content.length) {addr : Word}
    {start length : Nat} (haddr : addr.toNat = g.address.toNat + start) (hpos : 0 < length)
    (hend : start + length ≤ g.size) :
    x.bytesAt addr length = .ok (some ((x.content.drop (g.offset + start)).take length)) := by
  obtain ⟨before, after, hsplit⟩ := List.append_of_mem hg
  rw [hsplit, List.pairwise_append] at hapart
  have hbefore : before.find? (·.contains addr) = none := by
    rw [List.find?_eq_none]
    intro g' hg'
    have hle := hapart.2.2 g' hg' g (.head _)
    simp only [Segment.contains, Bool.and_eq_true, decide_eq_true_eq, not_and]
    omega
  have hcontains : g.contains addr = true := by
    simp only [Segment.contains, Bool.and_eq_true, decide_eq_true_eq]
    omega
  have hfind : x.segments.find? (·.contains addr) = some g := by
    rw [hsplit, List.find?_append, hbefore, Option.none_or]
    exact List.find?_cons_of_pos hcontains
  exact bytesAt_of_find hfind hcontent haddr hend

namespace Object

theorem segments_apart {codeSize : Nat} (size : Nat) (h : codeSize < 0x18000000) :
    (segments codeSize size).Pairwise fun g g' =>
      g.address.toNat + g.size ≤ g'.address.toNat := by
  unfold segments
  split
  · refine List.pairwise_pair.mpr ?_
    show 0x08000000 + codeSize ≤ 0x20000000
    omega
  · exact List.pairwise_singleton _ _

theorem segment_within {codeSize size : Nat} (h : codeSize ≤ size) {g : Segment}
    (hg : g ∈ segments codeSize size) : g.offset + g.size ≤ size := by
  unfold segments at hg
  rcases List.mem_cons.mp hg with rfl | hg
  · exact (Nat.zero_add _).trans_le h
  · split at hg
    · cases List.mem_singleton.mp hg
      exact (Nat.add_sub_cancel' h).le
    · cases hg

theorem bytesAt_section {o : Object} {bytes : Nat → List Byte} {x : Executable} {k : Nat}
    {s : Section} (hbytes : o.Sized bytes) (hcontent : x.content = o.image bytes)
    (hsegments : x.segments = segments o.codeSize o.linkedSize)
    (hsize : x.content.length < 0x18000000) (hs : o.sections[k]? = some s) {offset length : Nat}
    (hpos : 0 < length) (hend : offset + length ≤ s.size) :
    x.bytesAt (BitVec.ofNat 32 (o.addressOf k + offset)) length =
      .ok (some (((bytes k).drop offset).take length)) := by
  have hlength : x.content.length = o.linkedSize := by
    rw [hcontent, length_image hbytes]
  have hle : o.codeSize ≤ o.linkedSize := Nat.le_add_right _ _
  have hapart := segments_apart o.linkedSize (hle.trans_lt (hlength ▸ hsize))
  obtain ⟨g, hg, hstart, hin, haddress⟩ := exists_segment hs (by omega)
  have hwithin := segment_within hle hg
  rw [← hlength] at hwithin
  rw [← hsegments] at hapart hg
  have haddr : (BitVec.ofNat 32 (o.addressOf k + offset)).toNat =
      g.address.toNat + (o.fileOffset k - g.offset + offset) := by
    have hfile := fileOffset_add_le hs
    have hbound := addressOf_le hs
    rw [BitVec.toNat_ofNat, Nat.mod_eq_of_lt (by omega), haddress, Nat.add_assoc]
  rw [Executable.bytesAt_of_segment hapart hg hwithin haddr hpos (by omega), hcontent,
    ← take_drop_image_add hbytes hs hend, ← Nat.add_assoc, Nat.add_sub_cancel' hstart]

end Object

/-- The data that the executable of a program has to have. -/
structure Executable.DataOf (x : Executable) (p : Program) (o : Object) : Prop where
  /-- Every record has an address. -/
  placed : ∀ i j a r, p.areas[i]? = some a → a.records[j]? = some r →
    ∃ address < 2 ^ 32, o.RecordAt p i j r address
  data : ∀ i j r address width, o.RecordAt p i j r address → r.kind = .data width →
    width.bytes ∣ address
  instruction : ∀ i j r address, o.RecordAt p i j r address → r.kind = .instruction → 2 ∣ address
  /-- The bytes of all operands, if there are any, are found at the record's address. -/
  emitted : ∀ i j r address width, o.RecordAt p i j r address → r.kind = .data width →
    ∃ pieces, List.Forall₂ (p.Emits o width) r.operands pieces ∧
      (pieces.flatten ≠ [] → x.bytesAt (BitVec.ofNat 32 address) pieces.flatten.length =
        .ok (some pieces.flatten))

theorem Object.dataOf_of_link {p : Program} {o : Object} {x : Executable}
    (ho : ofProgram p = .ok o) (hx : o.link = .ok x) (hsize : x.content.length < 0x18000000) :
    x.DataOf p o := by
  constructor
  case placed =>
    intro i j a r ha hr
    obtain ⟨address, hat⟩ := exists_recordAt ho ha hr
    exact ⟨address, hat.address_lt ho hx hsize, hat⟩
  case data =>
    intro i j r address width hat hkind
    have haligned := hat.aligned
    rwa [hkind] at haligned
  case instruction =>
    intro i j r address hat hkind
    have haligned := hat.aligned
    rwa [hkind] at haligned
  case emitted =>
    intro i j r address width hat hkind
    obtain ⟨bytes, hrel, rfl⟩ := link_eq_ok (ofProgram_wellFormed ho) hx
    obtain ⟨s, offset, pieces, hs, rfl, hpieces, hend, hslice⟩ := hat.data ho hrel hkind
    refine ⟨pieces, hpieces, ?_⟩
    intro hne
    rw [bytesAt_section hrel.sized rfl rfl hsize hs (List.length_pos_iff.mpr hne) hend, hslice]

end Thumb
