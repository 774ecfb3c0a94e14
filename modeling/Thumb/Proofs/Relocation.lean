import Thumb.Proofs.Placement

namespace Thumb

/-- An error that is due to an operand: a symbol is missing, or a value does not fit. -/
def AssemblyError.isUnresolved : AssemblyError → Bool
  | .instruction .. | .unresolvedSymbol .. | .value .. => true
  | _ => false

def splice (bytes : List Byte) (offset : Nat) (new : List Byte) : List Byte :=
  bytes.take offset ++ new ++ bytes.drop (offset + new.length)

theorem take_drop_congr {bytes bytes' : List Byte} {offset length : Nat}
    (h : ∀ i < length, bytes'[offset + i]? = bytes[offset + i]?) :
    (bytes'.drop offset).take length = (bytes.drop offset).take length := by
  apply List.ext_getElem?
  intro i
  rw [List.getElem?_take, List.getElem?_take, List.getElem?_drop, List.getElem?_drop]
  split
  case isTrue hi => exact h i hi
  case isFalse => rfl

section splice

variable {bytes new : List Byte} {offset : Nat}

theorem length_splice (h : offset + new.length ≤ bytes.length) :
    (splice bytes offset new).length = bytes.length := by
  simp only [splice, List.length_append, List.length_take, List.length_drop]
  omega

theorem getElem?_splice_of_outside (h : offset + new.length ≤ bytes.length) {position : Nat}
    (hout : position < offset ∨ offset + new.length ≤ position) :
    (splice bytes offset new)[position]? = bytes[position]? := by
  have htake : (bytes.take offset).length = offset := List.length_take_of_le (by omega)
  rw [splice, List.append_assoc]
  rcases hout with hlt | hge
  · rw [List.getElem?_append_left (by omega), List.getElem?_take_of_lt hlt]
  · rw [List.getElem?_append_right (by omega), htake, List.getElem?_append_right (by omega),
      List.getElem?_drop]
    congr 1
    omega

theorem take_drop_splice (h : offset + new.length ≤ bytes.length) :
    ((splice bytes offset new).drop offset).take new.length = new := by
  have htake : (bytes.take offset).length = offset := List.length_take_of_le (by omega)
  rw [splice, List.append_assoc, List.drop_left' htake, List.take_left]

theorem patch_append (h : offset + new.length ≤ bytes.length) (front tail back : List Byte) :
    Object.patch (front ++ (bytes ++ tail) ++ back) (front.length + offset) new =
      .ok (front ++ (splice bytes offset new ++ tail) ++ back) := by
  have hle : front.length + offset + new.length ≤ (front ++ (bytes ++ tail) ++ back).length := by
    simp only [List.length_append]
    omega
  have hassoc : front ++ (bytes ++ tail) ++ back = front ++ (bytes ++ (tail ++ back)) := by
    simp only [List.append_assoc]
  rw [Object.patch, if_pos hle, hassoc, Nat.add_assoc, List.take_length_add_append,
    List.drop_length_add_append, List.take_append_of_le_length (by omega),
    List.drop_append_of_le_length h, splice]
  simp only [List.append_assoc]

theorem block_splice (h : offset + new.length ≤ bytes.length) (kind : SectionKind) :
    kind.block (splice bytes offset new) = splice bytes offset new ++ (kind.trailer ++
      List.replicate (padding 4 (bytes.length + kind.trailer.length)) 0) := by
  rw [SectionKind.block, length_splice h, List.append_assoc]

end splice

namespace Object

variable {o : Object} {areas : List Area} {bytes : Nat → List Byte}

theorem blocks_congr {kind : SectionKind} {bytes' : Nat → List Byte}
    (h : ∀ k ∈ (o.sectionsOf kind).map (·.2), bytes' k = bytes k) :
    o.blocks kind bytes' = o.blocks kind bytes := by
  refine List.flatMap_congr ?_
  intro entry hmem
  rw [h entry.2 (List.mem_map_of_mem hmem)]

/-- A section among those of its kind, when only its own bytes change. -/
theorem blocks_around (h : o.Sized bytes) {k : Nat} {s : Section} (hs : o.sections[k]? = some s) :
    ∃ front back, front.length = o.extentBefore s.kind k ∧
      ∀ bytes' : Nat → List Byte, (∀ j, j ≠ k → bytes' j = bytes j) →
        o.blocks s.kind bytes' = front ++ s.kind.block (bytes' k) ++ back := by
  obtain ⟨before, after, hsplit, htotal⟩ := sectionsOf_split hs
  have hnodup := o.nodup_sectionsOf s.kind
  rw [hsplit, List.map_append, List.map_cons, List.nodup_append, List.nodup_cons] at hnodup
  obtain ⟨_, ⟨hafter, _⟩, hdisjoint⟩ := hnodup
  have hmem {entry : Section × Nat} (hentry : entry ∈ before) :
      o.sections[entry.2]? = some entry.1 := by
    have hin : entry ∈ o.sectionsOf s.kind := by
      rw [hsplit]
      exact List.mem_append_left _ hentry
    exact (mem_sectionsOf.mp hin).1
  refine ⟨before.flatMap fun entry => s.kind.block (bytes entry.2),
    after.flatMap fun entry => s.kind.block (bytes entry.2), ?_, ?_⟩
  · rw [← htotal, List.length_flatMap, totalExtent]
    refine congrArg List.sum (List.map_congr_left ?_)
    intro entry hentry
    rw [SectionKind.length_block, h _ _ (hmem hentry)]
  · intro bytes' hsame
    -- No other section has the index, on either side.
    have hothers {entries : List (Section × Nat)} (hne : ∀ entry ∈ entries, entry.2 ≠ k) :
        (entries.flatMap fun entry => s.kind.block (bytes' entry.2)) =
          entries.flatMap fun entry => s.kind.block (bytes entry.2) := by
      refine List.flatMap_congr ?_
      intro entry hentry
      rw [hsame entry.2 (hne entry hentry)]
    rw [blocks, hsplit, List.flatMap_append, List.flatMap_cons, hothers, hothers,
      List.append_assoc]
    · rintro entry hentry rfl
      exact hafter (List.mem_map.mpr ⟨entry, hentry, rfl⟩)
    · intro entry hentry
      exact hdisjoint _ (List.mem_map_of_mem hentry) k (.head _)

theorem image_around (h : o.Sized bytes) {k : Nat} {s : Section} (hs : o.sections[k]? = some s) :
    ∃ front back, front.length = o.fileOffset k ∧
      ∀ bytes' : Nat → List Byte, (∀ j, j ≠ k → bytes' j = bytes j) →
        o.image bytes' = front ++ s.kind.block (bytes' k) ++ back := by
  obtain ⟨front, back, hlen, hblocks⟩ := blocks_around h hs
  rw [fileOffset_eq hs]
  have hother (kind : SectionKind) (hne : s.kind ≠ kind) {bytes' : Nat → List Byte}
      (hsame : ∀ j, j ≠ k → bytes' j = bytes j) : o.blocks kind bytes' = o.blocks kind bytes := by
    apply blocks_congr
    intro j hj
    refine hsame j ?_
    rintro rfl
    exact not_mem_sectionsOf hs hne hj
  cases hkind : s.kind with
  | code =>
    have hne : o.sectionsOf .code ≠ [] := List.ne_nil_of_mem (mem_sectionsOf.mpr ⟨hs, hkind⟩)
    rw [hkind] at hlen hblocks hother
    refine ⟨Width.word.toBytes 0x20002000 ++ Width.word.toBytes 0x08000008 ++ front,
      back ++ o.blocks .data bytes, ?_, ?_⟩
    · rw [List.length_append, hlen]
      rfl
    · intro bytes' hsame
      rw [image, codeImage, if_neg hne, hblocks bytes' hsame, hother .data (by decide) hsame]
      simp only [List.append_assoc]
  | data =>
    rw [hkind] at hlen hblocks hother
    refine ⟨o.codeImage bytes ++ front, back, ?_, ?_⟩
    · rw [List.length_append, hlen, length_codeImage h]
      rfl
    · intro bytes' hsame
      rw [image, codeImage, hother .code (by decide) hsame, hblocks bytes' hsame,
        codeImage]
      simp only [List.append_assoc]

theorem patch_image (h : o.Sized bytes) {k : Nat} {s : Section} (hs : o.sections[k]? = some s)
    {offset : Nat} {new : List Byte} (hle : offset + new.length ≤ s.size) :
    patch (o.image bytes) (o.fileOffset k + offset) new =
      .ok (o.image (Function.update bytes k (splice (bytes k) offset new))) := by
  obtain ⟨front, back, hlen, himage⟩ := image_around h hs
  rw [← h k s hs] at hle
  rw [himage bytes (fun _ _ => rfl), himage (Function.update _ _ _) fun j hj =>
    Function.update_of_ne hj _ _, Function.update_self, block_splice hle, ← hlen,
    SectionKind.block, List.append_assoc (bytes k)]
  exact patch_append hle front _ back

/-- The value of a symbol in the linked program. -/
def valueOf (o : Object) : Symbol → Int
  | .constant value => value
  | .address none value => value
  | .address (some k) offset => o.addressOf k + offset

def values (o : Object) : Table String Int :=
  o.symbols.filterMap fun symbol => some (o.valueOf symbol)

/-- What an instruction at an address can refer to: the symbols that are addresses. -/
def labelsAt (o : Object) (site : Nat) : Labels where
  site := BitVec.ofNat 32 site
  targets := o.symbols.filterMap fun
    | .constant _ => none
    | symbol => some (BitVec.ofInt 32 (o.valueOf symbol))

theorem get?_values {name : String} {symbol : Symbol} (hmem : (name, symbol) ∈ o.symbols.entries) :
    o.values.get? name = some (o.valueOf symbol) := by
  rw [values, Table.get?_filterMap, (Table.get?_eq_some_iff _).mpr hmem]
  rfl

variable {l : Layout}

theorem Laid.symbolValue (hl : o.Laid l) (h : o.WellFormed areas) {name : String} {symbol : Symbol}
    (hmem : (name, symbol) ∈ o.symbols.entries) :
    l.symbolValue symbol = .ok (o.valueOf symbol) := by
  cases symbol with
  | constant value => rfl
  | address base value =>
    obtain ⟨k, s, rfl, hs, _⟩ := h.symbol name base value hmem
    obtain ⟨hplace, hlt⟩ := hl.place k s hs
    rw [Layout.symbolValue, hplace]
    have hnat : (BitVec.ofNat 32 (o.addressOf k)).toNat = o.addressOf k := by
      rw [BitVec.toNat_ofNat]
      exact Nat.mod_eq_of_lt hlt
    show Except.ok (((BitVec.ofNat 32 (o.addressOf k)).toNat : Int) + value) = _
    rw [hnat]
    rfl

theorem Laid.symbolValues (hl : o.Laid l) (h : o.WellFormed areas) :
    o.symbolValues l = .ok o.values := by
  rw [Object.symbolValues, foldlM_of_ok (g := fun (values : Table String Int) entry =>
    values.insert entry.1 (o.valueOf entry.2))]
  · rw [values, Table.filterMap, Table.ofList, List.foldl_filterMap]
    rfl
  · rintro ⟨name, symbol⟩ hmem values
    simp only [hl.symbolValue h hmem]
    rfl

theorem labelTargets_values (o : Object) (site : Nat) :
    o.labelTargets o.values = (o.labelsAt site).targets := by
  refine congrArg Table.ofList (List.filterMap_congr ?_)
  rintro ⟨name, symbol⟩ hmem
  cases symbol with
  | constant value => rfl
  | address base value =>
    simp only [get?_values hmem]
    rfl

theorem datumWidth_bytes (width : Width) : datumWidth width.bytes = width := by
  cases width <;> rfl

theorem length_of_resolve {r : Relocation} (h : r.Sound) {values : Table String Int}
    {targets : Table String Word} {site : Word} {new : List Byte}
    (hnew : resolve values targets site r = .ok new) : new.length = r.length := by
  cases h with
  | code hselect hencode =>
    simp only [resolve, resolveRecord, encodeInstruction_of_select hselect] at hnew
    split at hnew
    case h_1 opcode hopcode =>
      cases hnew
      rw [Draft.length_halfwordBytes, Draft.length_halfwordBytes, Form.length_of_encode hopcode,
        Form.length_of_encode hencode]
    all_goals cases hnew
  | data =>
    simp only [resolve, datumWidth_bytes] at hnew
    split at hnew
    · cases hnew
    · exact Width.length_of_dataBytes (Draft.dataBytes_of_number hnew)

/-- The bytes that a relocation stands for: the opcode of an instruction at its address, or the
value of a symbol. -/
inductive Resolves (o : Object) : Relocation → List Byte → Prop
  | code {index offset length line : Nat} {r : Record} {opcode : List Halfword}
      (encode : encodeInstruction r.mnemonic r.operands
        (some (o.labelsAt (o.addressOf index + offset))) = .ok opcode) :
      o.Resolves ⟨.code, index, offset, length, .record r, line⟩ (Draft.halfwordBytes opcode)
  | data {index offset line : Nat} {width : Width} {name : String} {symbol : Symbol}
      {new : List Byte} (found : o.symbols.get? name = some symbol)
      (value : width.dataBytes (o.valueOf symbol) = .ok new) :
      o.Resolves ⟨.data, index, offset, width.bytes, .symbol name, line⟩ new

theorem Resolves.symbol {index offset line : Nat} {width : Width} {name : String} {new : List Byte}
    (h : o.Resolves ⟨.data, index, offset, width.bytes, .symbol name, line⟩ new) :
    ∃ symbol, o.symbols.get? name = some symbol ∧
      width.dataBytes (o.valueOf symbol) = .ok new := by
  generalize hlength : width.bytes = length at h
  cases h with
  | data found value =>
    have hwidth := congrArg datumWidth hlength
    rw [datumWidth_bytes, datumWidth_bytes] at hwidth
    cases hwidth
    exact ⟨_, found, value⟩

theorem Resolves.unique {r : Relocation} {new new' : List Byte} (h : o.Resolves r new)
    (h' : o.Resolves r new') : new' = new := by
  cases h with
  | code encode =>
    cases h' with
    | code encode' =>
      cases encode.symm.trans encode'
      rfl
  | data found value =>
    obtain ⟨symbol', found', value'⟩ := h'.symbol
    cases found.symm.trans found'
    cases value.symm.trans value'
    rfl

theorem resolveRecord_cases (r : Record) (labels : Labels) :
    (∃ opcode, encodeInstruction r.mnemonic r.operands (some labels) = .ok opcode ∧
      resolveRecord r labels = .ok (Draft.halfwordBytes opcode)) ∨
    ∃ e, resolveRecord r labels = .error e ∧ e.isUnresolved = true ∧
      ∀ opcode, encodeInstruction r.mnemonic r.operands (some labels) ≠ .ok opcode := by
  unfold resolveRecord
  cases hencode : encodeInstruction r.mnemonic r.operands (some labels) with
  | ok opcode => exact .inl ⟨opcode, rfl, rfl⟩
  | error e =>
    refine .inr ?_
    split
    case h_1 heq => cases heq
    case h_2 => exact ⟨_, rfl, rfl, nofun⟩
    case h_3 => exact ⟨_, rfl, rfl, nofun⟩

theorem resolve_cases (o : Object) {r : Relocation} (h : r.Sound) {site : Nat}
    (hsite : site = o.addressOf r.index + r.offset) :
    (∃ new, resolve o.values (o.labelsAt site).targets (BitVec.ofNat 32 site) r = .ok new ∧
      o.Resolves r new) ∨
    ∃ e, resolve o.values (o.labelsAt site).targets (BitVec.ofNat 32 site) r = .error e ∧
      e.isUnresolved = true ∧ ∀ new, ¬o.Resolves r new := by
  cases h with
  | @code index offset line record form opcode hselect hencode =>
    subst hsite
    rcases resolveRecord_cases record (o.labelsAt (o.addressOf index + offset)) with
      ⟨opcode', hopcode, hresolve⟩ | ⟨e, hresolve, he, hnone⟩
    · exact .inl ⟨_, hresolve, .code hopcode⟩
    · refine .inr ⟨e, hresolve, he, ?_⟩
      intro new hnew
      cases hnew with
      | code hopcode => exact hnone _ hopcode
  | @data index offset line width name =>
    simp only [resolve, datumWidth_bytes]
    split
    case h_1 hvalue =>
      refine .inr ⟨_, rfl, rfl, ?_⟩
      intro new hnew
      obtain ⟨symbol, hsymbol, _⟩ := hnew.symbol
      rw [get?_values ((Table.get?_eq_some_iff _).mp hsymbol)] at hvalue
      cases hvalue
    case h_2 value hvalue =>
      rw [values, Table.get?_filterMap, Option.bind_eq_some_iff] at hvalue
      obtain ⟨symbol, hsymbol, hvalue⟩ := hvalue
      cases hvalue
      unfold Draft.number
      cases hdata : width.dataBytes (o.valueOf symbol) with
      | ok new => exact .inl ⟨new, rfl, .data hsymbol hdata⟩
      | error e =>
        refine .inr ⟨_, rfl, rfl, ?_⟩
        intro new hnew
        obtain ⟨symbol', hsymbol', hdata'⟩ := hnew.symbol
        cases hsymbol.symm.trans hsymbol'
        cases hdata.symm.trans hdata'

/-- The bytes of the sections before and after relocations: only the bytes that a relocation covers
change, and they become those that it stands for. -/
structure Relocated (o : Object) (bytes : Nat → List Byte) (rs : List Relocation)
    (bytes' : Nat → List Byte) : Prop where
  sized : o.Sized bytes'
  outside : ∀ k position, (∀ r ∈ rs, ¬r.Covers k position) →
    (bytes' k)[position]? = (bytes k)[position]?
  inside : ∀ r ∈ rs, ∃ new, o.Resolves r new ∧ ((bytes' r.index).drop r.offset).take r.length = new

namespace Relocated

variable {bytes' : Nat → List Byte}

theorem nil (h : o.Sized bytes) : o.Relocated bytes [] bytes where
  sized := h
  outside _ _ _ := rfl
  inside := nofun

theorem cons {r : Relocation} {rs : List Relocation} {s : Section} {new : List Byte}
    (hb : o.Sized bytes) (hs : o.sections[r.index]? = some s) (hle : r.offset + r.length ≤ s.size)
    (hnew : o.Resolves r new) (hlen : new.length = r.length) (hbefore : ∀ r' ∈ rs, r.Before r')
    (h : o.Relocated (Function.update bytes r.index (splice (bytes r.index) r.offset new)) rs
      bytes') :
    o.Relocated bytes (r :: rs) bytes' where
  sized := h.sized
  outside k position hout := by
    obtain ⟨hr, hrs⟩ := List.forall_mem_cons.mp hout
    rw [h.outside k position hrs]
    by_cases hk : k = r.index
    · subst hk
      rw [← hb r.index s hs, ← hlen] at hle
      rw [Function.update_self]
      apply getElem?_splice_of_outside hle
      rw [hlen]
      by_contra hcovered
      exact hr ⟨rfl, by omega, by omega⟩
    · rw [Function.update_of_ne hk]
  inside := by
    intro r' hr'
    rcases List.mem_cons.mp hr' with rfl | hr'
    · refine ⟨new, hnew, ?_⟩
      rw [← hb r'.index s hs, ← hlen] at hle
      have hkept := take_drop_splice hle
      rw [hlen] at hkept
      rw [← hkept]
      -- The later relocations leave these bytes alone.
      apply take_drop_congr
      intro i hi
      rw [h.outside r'.index (r'.offset + i), Function.update_self]
      intro r'' hr''
      exact (hbefore r'' hr'').not_covers ⟨rfl, by omega, by omega⟩
    · exact h.inside r' hr'

end Relocated

theorem sized_update (h : o.Sized bytes) {k : Nat} {new : List Byte}
    (hnew : new.length = (bytes k).length) : o.Sized (Function.update bytes k new) := by
  intro j s hs
  by_cases hj : j = k
  · subst hj
    rw [Function.update_self, hnew, h j s hs]
  · rw [Function.update_of_ne hj, h j s hs]

theorem relocate_cases (hl : o.Laid l) (hb : o.Sized bytes) {r : Relocation} (hsound : r.Sound)
    {s : Section} (hs : o.sections[r.index]? = some s) (hle : r.offset + r.length ≤ s.size) :
    (∃ new, o.Resolves r new ∧ new.length = r.length ∧
      relocate l o.values (o.labelTargets o.values) (o.image bytes) r =
        .ok (o.image (Function.update bytes r.index (splice (bytes r.index) r.offset new)))) ∨
    ∃ e, relocate l o.values (o.labelTargets o.values) (o.image bytes) r = .error e ∧
      e.isUnresolved = true ∧ ∀ new, ¬o.Resolves r new := by
  have hsite : BitVec.ofNat 32 (o.addressOf r.index) + BitVec.ofNat 32 r.offset =
      BitVec.ofNat 32 (o.addressOf r.index + r.offset) := by
    rw [BitVec.ofNat_add]
  unfold relocate
  rw [(hl.place r.index s hs).1, o.labelTargets_values (o.addressOf r.index + r.offset)]
  simp only [bind, Except.bind, hsite]
  rcases resolve_cases o hsound rfl with ⟨new, hresolve, hnew⟩ | ⟨e, hresolve, hnone⟩
  · have hlen := length_of_resolve hsound hresolve
    rw [hresolve]
    refine .inl ⟨new, hnew, hlen, patch_image hb hs ?_⟩
    rw [hlen]
    exact hle
  · rw [hresolve]
    exact .inr ⟨e, rfl, hnone⟩

/-- Relocating fails only because of an operand. -/
theorem foldlM_relocate (h : o.WellFormed areas) (hl : o.Laid l) {rs : List Relocation}
    (hrs : ∀ r ∈ rs, r ∈ o.relocations) (hpair : rs.Pairwise Relocation.Before)
    (hb : o.Sized bytes) :
    (∃ bytes', rs.foldlM (relocate l o.values (o.labelTargets o.values)) (o.image bytes) =
        .ok (o.image bytes') ∧ o.Relocated bytes rs bytes') ∨
    ∃ e, rs.foldlM (relocate l o.values (o.labelTargets o.values)) (o.image bytes) = .error e ∧
      e.isUnresolved = true ∧ ∃ r ∈ rs, ∀ new, ¬o.Resolves r new := by
  -- The content is always that of some bytes for the sections, which each step changes.
  induction rs generalizing bytes with
  | nil => exact .inl ⟨bytes, rfl, .nil hb⟩
  | cons r rs ih =>
    obtain ⟨hr, hrs⟩ := List.forall_mem_cons.mp hrs
    obtain ⟨hbefore, hpair⟩ := List.pairwise_cons.mp hpair
    obtain ⟨hsound, s, hs, hle⟩ := h.relocation r hr
    rw [List.foldlM_cons]
    rcases relocate_cases hl hb hsound hs hle with ⟨new, hnew, hlen, hstep⟩ | ⟨e, hstep, he, hnone⟩
    · have hfits : r.offset + new.length ≤ (bytes r.index).length := by
        rw [hlen, hb r.index s hs]
        exact hle
      rw [hstep]
      rcases ih hrs hpair (sized_update hb (length_splice hfits)) with
        ⟨bytes', hfold, hrest⟩ | ⟨e, hfold, he, r', hr', hnone⟩
      · exact .inl ⟨bytes', hfold, .cons hb hs hle hnew hlen hbefore hrest⟩
      · exact .inr ⟨e, hfold, he, r', .tail _ hr', hnone⟩
    · rw [hstep]
      exact .inr ⟨e, rfl, he, r, .head _, hnone⟩

end Object

end Thumb
