import Thumb.Proofs.Symbols

namespace Thumb

namespace Program

variable {p : Program} {i j i' j' : Nat} {a a' : Area} {r r' : Record}

theorem recordNumber_lt (ha : p.areas[i]? = some a) (hr : a.records[j]? = some r) (h : i < i') :
    p.recordNumber i j < p.recordNumber i' j' := by
  have hj := (List.getElem?_eq_some_iff.mp hr).1
  have hnext : ((p.areas.take (i + 1)).map (·.records.length)).sum =
      ((p.areas.take i).map (·.records.length)).sum + a.records.length := by
    rw [List.take_add_one, ha, Option.toList_some, List.map_append, List.sum_append]
    rfl
  have hmono : ((p.areas.take (i + 1)).map (·.records.length)).sum ≤
      ((p.areas.take i').map (·.records.length)).sum := by
    apply List.Sublist.sum_le_sum
    · exact (List.take_sublist_take_left h).map _
    · exact fun _ _ => Nat.zero_le _
  unfold recordNumber
  omega

theorem recordNumber_le_iff (ha : p.areas[i]? = some a) (hr : a.records[j]? = some r)
    (ha' : p.areas[i']? = some a') (hr' : a'.records[j']? = some r') :
    p.recordNumber i' j' ≤ p.recordNumber i j ↔ i' < i ∨ i' = i ∧ j' ≤ j := by
  constructor
  · intro h
    rcases Nat.lt_trichotomy i' i with hlt | rfl | hlt
    · exact .inl hlt
    · exact .inr ⟨rfl, Nat.le_of_add_le_add_left h⟩
    · exact absurd h (Nat.not_le.mpr (recordNumber_lt ha hr hlt))
  · intro h
    rcases h with hlt | ⟨rfl, hle⟩
    · exact (recordNumber_lt ha' hr' hlt).le
    · exact Nat.add_le_add_left hle _

theorem exists_recordNumber {n : Nat} (h : n < (p.areas.map (·.records.length)).sum) :
    ∃ i j a r, p.areas[i]? = some a ∧ a.records[j]? = some r ∧ p.recordNumber i j = n := by
  obtain ⟨areas, constants⟩ := p
  unfold recordNumber
  dsimp only at h ⊢
  induction areas generalizing n with
  | nil => exact absurd h (Nat.not_lt_zero n)
  | cons a areas ih =>
    by_cases hn : n < a.records.length
    · exact ⟨0, n, a, a.records[n], rfl, List.getElem?_eq_getElem hn, Nat.zero_add n⟩
    · rw [List.map_cons, List.sum_cons] at h
      obtain ⟨i, j, b, r, hb, hr, hnumber⟩ := ih (n := n - a.records.length) (by omega)
      refine ⟨i + 1, j, b, r, hb, hr, ?_⟩
      rw [List.take_succ_cons, List.map_cons, List.sum_cons]
      omega

end Program

namespace Object

namespace Draft

variable {p : Program} {d d' : Draft} {i j j' : Nat}

theorem before_extends (hj : j ≤ j') (h : before p i j = .ok d) (h' : before p i j' = .ok d') :
    ∃ lines, d.Extends lines d' := by
  obtain ⟨c, hc, h⟩ := bind_ok_iff.mp h
  obtain ⟨d₀, hd₀, h⟩ := bind_ok_iff.mp h
  obtain ⟨c', hc', h'⟩ := bind_ok_iff.mp h'
  cases hc.symm.trans hc'
  obtain ⟨d₀', hd₀', h'⟩ := bind_ok_iff.mp h'
  cases hd₀.symm.trans hd₀'
  split at h
  case h_1 a ha =>
    rw [ha] at h'
    dsimp only at h'
    rw [← List.take_append_drop j (a.records.take j'), List.take_take, Nat.min_eq_left hj,
      List.foldlM_append] at h'
    obtain ⟨d₁, hd₁, h'⟩ := bind_ok_iff.mp h'
    cases h.symm.trans hd₁
    exact ⟨_, records_extends h'⟩
  case h_2 hnone =>
    rw [hnone] at h'
    cases h
    cases h'
    exact ⟨_, .refl d⟩

theorem before_succ {a : Area} {r : Record} (ha : p.areas[i]? = some a)
    (hr : a.records[j]? = some r) (h : before p i j = .ok d) : before p i (j + 1) = d.record r := by
  obtain ⟨c, hc, h⟩ := bind_ok_iff.mp h
  obtain ⟨d₀, hd₀, h⟩ := bind_ok_iff.mp h
  rw [ha] at h
  dsimp only at h
  simp only [before, hc, hd₀, ha, bind, Except.bind]
  rw [List.take_add_one, hr, Option.toList_some, List.foldlM_append, h]
  show (d.record r >>= pure) = _
  rw [bind_pure]

theorem length_of_datum {width : Width} {mnemonic operand : String} {line : Nat}
    (h : d.datum width mnemonic operand line = .ok d') :
    d'.bytes.length = d.bytes.length + width.bytes := by
  unfold datum at h
  split at h
  case h_1 value _ =>
    obtain ⟨bytes, hbytes, h⟩ := bind_ok_iff.mp h
    cases h
    rw [emit, List.length_append, Width.length_of_dataBytes (dataBytes_of_number hbytes)]
  case h_2 =>
    split at h
    case isTrue =>
      cases h
      rw [emit, List.length_append, List.length_replicate]
      rfl
    case isFalse => cases h

theorem data_length_lt {width : Width} {r : Record} (hw : width ≠ .byte)
    (h : d.data width r = .ok d') : d.bytes.length < d'.bytes.length := by
  unfold data at h
  split at h
  case isTrue => cases h
  case isFalse hne =>
    cases hops : r.operands with
    | nil =>
      rw [hops] at hne
      exact absurd rfl hne
    | cons operand operands =>
      rw [hops] at h
      obtain ⟨d₁, hfirst, h⟩ := bind_ok_iff.mp h
      have hrest := dataOperands_extends h
      have hdatum : d.datum width r.mnemonic operand r.line = .ok d₁ := by
        cases width with
        | byte => exact absurd rfl hw
        | halfword => exact hfirst
        | word => exact hfirst
      have hlength := length_of_datum hdatum
      have hle := hrest.length_le
      have hpos : 0 < width.bytes := by cases width <;> decide
      omega

theorem align_one (d : Draft) : d.align 1 = d := by
  obtain ⟨constants, object, bytes, pool, literals⟩ := d
  simp [align, emit, padding, Nat.mod_one]

theorem record_length_lt {r : Record} (h : d.record r = .ok d')
    (hlt : d.bytes.length < d'.bytes.length) :
    (d.align r.kind.alignment).bytes.length < d'.bytes.length := by
  cases hk : r.kind with
  | instruction =>
    obtain ⟨form, opcode, _, hencode, hbytes, _⟩ := record_instruction h hk
    have hpos : opcode ≠ [] := by
      intro hnil
      have hlength := Form.length_of_encode hencode
      rw [hnil] at hlength
      exact form.layout_ne_nil (List.eq_nil_of_length_eq_zero hlength.symm)
    have hlength := List.length_pos_iff.mpr hpos
    rw [hbytes, List.length_append, length_halfwordBytes, RecordKind.alignment]
    omega
  | data width =>
    by_cases hw : width = .byte
    · subst hw
      show (d.align 1).bytes.length < _
      rwa [align_one]
    · obtain ⟨d₁, ⟨symbols, hd₁⟩, _, hbody⟩ := record_cases h
      unfold body at hbody
      rw [hk] at hd₁ hbody
      have hbytes := data_length_lt hw hbody
      rw [hd₁] at hbytes
      exact hbytes
  | space filled =>
    show (d.align 1).bytes.length < _
    rwa [align_one]
  | align =>
    show (d.align 1).bytes.length < _
    rwa [align_one]

end Draft

section Address

variable {o : Object} {i i' : Nat} {s s' : Section}

theorem code_address_lt (hs : o.sections[i]? = some s) (hkind : s.kind = .code)
    (hsize : o.linkedSize < 0x18000000) {n : Nat} (hn : n ≤ s.size) :
    o.addressOf i + n < 0x20000000 := by
  have hend := fileOffset_add_le hs
  rw [addressOf_code hs hkind]
  omega

theorem data_address_le (hs : o.sections[i]? = some s) (hkind : s.kind = .data) :
    0x20000000 ≤ o.addressOf i := by
  rw [addressOf_eq hs, hkind]
  exact Nat.le_add_right _ _

/-- No later section has an address of a byte. -/
theorem address_ne_of_lt (hs : o.sections[i]? = some s) (hs' : o.sections[i']? = some s')
    (h : i < i') (hsize : o.linkedSize < 0x18000000) {n n' : Nat} (hn : n < s.size)
    (hn' : n' ≤ s'.size) : o.addressOf i + n ≠ o.addressOf i' + n' := by
  by_cases hkind : s.kind = s'.kind
  · have hextent := extentBefore_add_le_of_lt hs h
    have hle := s.kind.le_extent s.size
    rw [addressOf_eq hs, addressOf_eq hs', ← hkind]
    omega
  · cases hcode : s.kind with
    | code =>
      have hdata : s'.kind = .data := by
        cases hs'kind : s'.kind with
        | code => exact absurd (hcode.trans hs'kind.symm) hkind
        | data => rfl
      have hlow := code_address_lt hs hcode hsize hn.le
      have hhigh := data_address_le hs' hdata
      omega
    | data =>
      have hcode' : s'.kind = .code := by
        cases hs'kind : s'.kind with
        | code => rfl
        | data => exact absurd (hcode.trans hs'kind.symm) hkind
      have hlow := code_address_lt hs' hcode' hsize hn'
      have hhigh := data_address_le hs hcode
      omega

end Address

/-- A record of a program at its linked address: that of its section, and behind it what comes
before the record, up to the record's alignment. -/
structure RecordAt (o : Object) (p : Program) (i j : Nat) (r : Record) (address : Nat) : Prop where
  record : ∃ a, p.areas[i]? = some a ∧ a.records[j]? = some r
  place : ∃ d, Draft.before p i j = .ok d ∧
    o.addressOf i + (d.align r.kind.alignment).bytes.length = address

variable {p : Program} {o : Object} {i j i' j' address : Nat} {r r' : Record}

theorem RecordAt.mark (ho : ofProgram p = .ok o) (h : o.RecordAt p i j r address) :
    ∃ m, o.marks[p.recordNumber i j]? = some m ∧ m.line = r.line ∧
      o.addressOf m.index + m.offset = address := by
  obtain ⟨⟨a, ha, hr⟩, d, hd, haddress⟩ := h
  obtain ⟨d', hd', hmark⟩ := ofProgram_mark ho ha hr
  cases hd.symm.trans hd'
  exact ⟨_, hmark, rfl, haddress⟩

theorem exists_recordAt (ho : ofProgram p = .ok o) {a : Area} (ha : p.areas[i]? = some a)
    (hr : a.records[j]? = some r) : ∃ address, o.RecordAt p i j r address := by
  obtain ⟨d, hd, _⟩ := ofProgram_mark ho ha hr
  exact ⟨_, ⟨a, ha, hr⟩, d, hd, rfl⟩

theorem length_marks (ho : ofProgram p = .ok o) :
    o.marks.length = (p.areas.map (·.records.length)).sum := by
  obtain ⟨c, hconstants, ho⟩ := bind_ok_iff.mp ho
  obtain ⟨d, hareas, ho⟩ := bind_ok_iff.mp ho
  cases ho
  rw [Draft.length_marks_areas hareas, Draft.marks_of_constants hconstants, List.length_nil,
    Nat.zero_add]

theorem exists_recordAt_of_mark (ho : ofProgram p = .ok o) {n : Nat} {m : Mark}
    (hm : o.marks[n]? = some m) :
    ∃ i j r, p.recordNumber i j = n ∧ r.line = m.line ∧
      o.RecordAt p i j r (o.addressOf m.index + m.offset) := by
  have hn := (List.getElem?_eq_some_iff.mp hm).1
  rw [length_marks ho] at hn
  obtain ⟨i, j, a, r, ha, hr, hnumber⟩ := Program.exists_recordNumber hn
  obtain ⟨address, hat⟩ := exists_recordAt ho ha hr
  obtain ⟨m', hm', hline, haddress⟩ := hat.mark ho
  rw [hnumber, hm] at hm'
  cases hm'
  subst haddress
  exact ⟨i, j, r, hnumber, hline.symm, hat⟩

section Linked

variable {x : Executable}

theorem RecordAt.address_lt (ho : ofProgram p = .ok o) (hx : o.link = .ok x)
    (hsize : x.content.length < 0x18000000) (h : o.RecordAt p i j r address) :
    address < 2 ^ 32 := by
  obtain ⟨m, hm, _, rfl⟩ := h.mark ho
  exact mark_address_lt (ofProgram_wellFormed ho) hx hsize (List.mem_of_getElem? hm)

theorem RecordAt.symbol (hnames : ∀ name ∈ p.names, isProgramSymbol name = true)
    (ho : ofProgram p = .ok o) (hx : o.link = .ok x) (h : o.RecordAt p i j r address)
    {name : String} (hname : r.label = some name) : x.symbol name = some (address : Int) := by
  obtain ⟨⟨a, ha, hr⟩, d, hd, rfl⟩ := h
  obtain ⟨d', hd', _, hsymbol⟩ := ofProgram_label ho ha hr hname
  cases hd.symm.trans hd'
  have hmem := Program.mem_names_of_label ha hr hname
  rw [symbol_of_link (ofProgram_wellFormed ho) hx, hsymbol, hnames name hmem]
  rfl

theorem RecordAt.line (ho : ofProgram p = .ok o) (hx : o.link = .ok x)
    (h : o.RecordAt p i j r address) : ∃ line, x.lineAt (BitVec.ofNat 32 address) = some line := by
  obtain ⟨bytes, _, rfl⟩ := link_eq_ok (ofProgram_wellFormed ho) hx
  obtain ⟨m, hm, _, rfl⟩ := h.mark ho
  exact Table.exists_get?_ofList (List.mem_map_of_mem (List.mem_of_getElem? hm))

theorem getElem?_lineEntries (ho : ofProgram p = .ok o) (hx : o.link = .ok x)
    (hsize : x.content.length < 0x18000000) {n line : Nat} {key : Word} :
    (o.marks.map fun m => (BitVec.ofNat 32 (o.addressOf m.index + m.offset), m.line))[n]? =
        some (key, line) ↔
      ∃ i j r, p.recordNumber i j = n ∧ r.line = line ∧ o.RecordAt p i j r key.toNat := by
  rw [List.getElem?_map, Option.map_eq_some_iff]
  constructor
  · intro h
    obtain ⟨m, hm, hentry⟩ := h
    cases hentry
    obtain ⟨i, j, r, hnumber, hline, hat⟩ := exists_recordAt_of_mark ho hm
    rw [BitVec.toNat_ofNat, Nat.mod_eq_of_lt (hat.address_lt ho hx hsize)]
    exact ⟨i, j, r, hnumber, hline, hat⟩
  · intro h
    obtain ⟨i, j, r, rfl, rfl, hat⟩ := h
    obtain ⟨m, hm, hline, haddress⟩ := hat.mark ho
    refine ⟨m, hm, ?_⟩
    rw [hline, haddress, BitVec.ofNat_toNat, BitVec.setWidth_eq]

/-- The line at an address is that of the last record there. -/
theorem lineAt_iff (ho : ofProgram p = .ok o) (hx : o.link = .ok x)
    (hsize : x.content.length < 0x18000000) {line : Nat} {key : Word} :
    x.lineAt key = some line ↔
      ∃ i j r, o.RecordAt p i j r key.toNat ∧ r.line = line ∧
        ∀ i' j' r', o.RecordAt p i' j' r' key.toNat → i' < i ∨ i' = i ∧ j' ≤ j := by
  have hlines : x.lines = o.lines := by
    obtain ⟨bytes, _, rfl⟩ := link_eq_ok (ofProgram_wellFormed ho) hx
    rfl
  rw [Executable.lineAt, hlines, lines, Table.get?_ofList_last]
  simp only [getElem?_lineEntries ho hx hsize]
  constructor
  · intro h
    obtain ⟨_, ⟨i, j, r, rfl, hline, hat⟩, hlast⟩ := h
    refine ⟨i, j, r, hat, hline, ?_⟩
    intro i' j' r' hat'
    obtain ⟨a, ha, hr⟩ := hat.record
    obtain ⟨a', ha', hr'⟩ := hat'.record
    exact (Program.recordNumber_le_iff ha hr ha' hr').mp
      (hlast _ r'.line ⟨i', j', r', rfl, rfl, hat'⟩)
  · intro h
    obtain ⟨i, j, r, hat, hline, hlast⟩ := h
    refine ⟨_, ⟨i, j, r, rfl, hline, hat⟩, ?_⟩
    rintro _ _ ⟨i', j', r', rfl, _, hat'⟩
    obtain ⟨a, ha, hr⟩ := hat.record
    obtain ⟨a', ha', hr'⟩ := hat'.record
    exact (Program.recordNumber_le_iff ha hr ha' hr').mpr (hlast i' j' r' hat')

theorem section_of_record (ho : ofProgram p = .ok o) {a : Area} (ha : p.areas[i]? = some a)
    (hr : a.records[j]? = some r) {d d' : Draft} (hd : Draft.before p i j = .ok d)
    (hd' : d.record r = .ok d') :
    ∃ s, o.sections[i]? = some s ∧ d'.bytes.length ≤ s.size := by
  obtain ⟨d₀, e, e', d₁, d₂, hform, _, he, hext, he', ⟨lines, hext'⟩, hcont, rfl⟩ :=
    Draft.ofProgram_around ho ha hr
  cases hd.symm.trans he
  cases hd'.symm.trans he'
  obtain ⟨hsection, _⟩ :=
    Draft.body_of_finish (hext.trans ((Draft.record_extends hd').trans hext')) hcont
  rw [Draft.index_eq_of_take ha hform] at hsection
  exact ⟨_, hsection, hext'.length_le⟩

/-- No record after one that adds bytes has its address. -/
theorem RecordAt.last_of_emits (ho : ofProgram p = .ok o) (hsize : o.linkedSize < 0x18000000)
    (h : o.RecordAt p i j r address) {d d' : Draft} (hd : Draft.before p i j = .ok d)
    (hd' : d.record r = .ok d') (hlt : d.bytes.length < d'.bytes.length)
    (h' : o.RecordAt p i' j' r' address) : i' < i ∨ i' = i ∧ j' ≤ j := by
  obtain ⟨⟨a, ha, hr⟩, e, he, haddress⟩ := h
  cases hd.symm.trans he
  obtain ⟨⟨a', ha', hr'⟩, e', he', haddress'⟩ := h'
  have hbytes := Draft.record_length_lt hd' hlt
  rcases Nat.lt_trichotomy i' i with hi | rfl | hi
  · exact .inl hi
  · by_contra hj
    have hnext := (Draft.before_succ ha hr hd).trans hd'
    obtain ⟨lines, hext⟩ := Draft.before_extends (by omega : j + 1 ≤ j') hnext he'
    have hle := hext.length_le
    obtain ⟨halign, _⟩ := align_bounds e' r'.kind.alignment_pos
    omega
  · obtain ⟨s, hs, hle⟩ := section_of_record ho ha hr hd hd'
    obtain ⟨d'', hd'', hmark⟩ := ofProgram_mark ho ha' hr'
    cases he'.symm.trans hd''
    obtain ⟨s', hs', hle'⟩ := (ofProgram_wellFormed ho).mark _ (List.mem_of_getElem? hmark)
    have hne := address_ne_of_lt hs hs' hi hsize (hbytes.trans_le hle) hle'
    exact absurd (haddress.trans haddress'.symm) hne

end Linked

end Object

/-- The source lines that the executable of a program has to have. -/
structure Executable.LinesOf (x : Executable) (p : Program) (o : Object) : Prop where
  /-- Every record has an address. -/
  placed : ∀ i j a r, p.areas[i]? = some a → a.records[j]? = some r →
    ∃ address < 2 ^ 32, o.RecordAt p i j r address
  /-- That address is the value of the record's label. -/
  symbol : ∀ i j r address name, o.RecordAt p i j r address → r.label = some name →
    x.symbol name = some (address : Int)
  /-- A record that adds bytes, be it only to be aligned, is found at its line. -/
  emitted : ∀ i j r address d d', o.RecordAt p i j r address →
    Object.Draft.before p i j = .ok d → d.record r = .ok d' → d.bytes.length < d'.bytes.length →
    x.lineAt (BitVec.ofNat 32 address) = some r.line
  /-- The line at an address is that of the last record there. -/
  last : ∀ key line, x.lines.get? key = some line ↔
    ∃ i j r, o.RecordAt p i j r key.toNat ∧ r.line = line ∧
      ∀ i' j' r', o.RecordAt p i' j' r' key.toNat → i' < i ∨ i' = i ∧ j' ≤ j

theorem Object.linesOf_of_link {p : Program} {o : Object} {x : Executable}
    (hnames : ∀ name ∈ p.names, isProgramSymbol name = true) (ho : ofProgram p = .ok o)
    (hx : o.link = .ok x) (hsize : x.content.length < 0x18000000) : x.LinesOf p o := by
  constructor
  case placed =>
    intro i j a r ha hr
    obtain ⟨address, hat⟩ := exists_recordAt ho ha hr
    exact ⟨address, hat.address_lt ho hx hsize, hat⟩
  case symbol =>
    intro i j r address name hat hname
    exact hat.symbol hnames ho hx hname
  case emitted =>
    intro i j r address d d' hat hd hd' hlt
    have hlinked : o.linkedSize < 0x18000000 := by
      obtain ⟨bytes, hrelocated, rfl⟩ := link_eq_ok (ofProgram_wellFormed ho) hx
      rwa [← length_image hrelocated.sized]
    have hkey : (BitVec.ofNat 32 address).toNat = address := by
      rw [BitVec.toNat_ofNat, Nat.mod_eq_of_lt (hat.address_lt ho hx hsize)]
    rw [lineAt_iff ho hx hsize, hkey]
    refine ⟨i, j, r, hat, rfl, ?_⟩
    intro i' j' r' hat'
    exact hat.last_of_emits ho hlinked hd hd' hlt hat'
  case last =>
    intro key line
    exact lineAt_iff ho hx hsize

/-- Every record that adds bytes is found at its line, and every line that is found is that of the
last record at its address. -/
theorem assemble_lines (source : String) (p : Program) (hp : Source.parse source = .ok p)
    (x : Executable) (hx : assemble source = .ok x) (hsize : x.content.length < 0x18000000) :
    ∃ o, Object.ofProgram p = .ok o ∧ o.link = .ok x ∧ x.LinesOf p o := by
  have hassemble : assemble source = Object.ofProgram p >>= Object.link := by
    rw [assemble, hp]
    rfl
  rw [hassemble] at hx
  obtain ⟨o, ho, hx⟩ := bind_ok_iff.mp hx
  exact ⟨o, ho, hx, Object.linesOf_of_link (Source.parse_names hp) ho hx hsize⟩

/-- Records without bytes at the address of the next one, at the end of a section and at its
border with the next section. -/
theorem assemble_lines_shared :
    let source := " AREA text, CODE\nstart\n SPACE 0\n ALIGN 2\n NOP\n DCB 1\n NOP\nlast\n" ++
      " AREA a, DATA\n DCB \"\"\n DCD 1\n SPACE 0\n AREA b, DATA\n DCB 2\n"
    ∃ (p : Program) (x : Executable) (o : Object), Source.parse source = .ok p ∧
      assemble source = .ok x ∧ x.content.length = 24 ∧
      x.lines.entries = [(0x08000008, 4), (0x0800000A, 5), (0x0800000C, 6), (0x0800000E, 7),
        (0x20000000, 10), (0x20000004, 13)] ∧ x.LinesOf p o := by
  intro source
  have hp : (Source.parse source).toOption.isSome = true := by decide +kernel
  have hx : (assemble source).toOption.map (fun x => (x.content.length, x.lines.entries)) =
      some (24, [(0x08000008, 4), (0x0800000A, 5), (0x0800000C, 6), (0x0800000E, 7),
        (0x20000000, 10), (0x20000004, 13)]) := by
    decide +kernel
  cases hparse : Source.parse source with
  | error e =>
    rw [hparse] at hp
    cases hp
  | ok p =>
    cases hassemble : assemble source with
    | error e =>
      rw [hassemble] at hx
      cases hx
    | ok x =>
      rw [hassemble] at hx
      obtain ⟨hlength, hentries⟩ := Prod.mk.inj (Option.some.inj hx)
      obtain ⟨o, _, _, hlines⟩ := assemble_lines source p hparse x hassemble (by omega)
      exact ⟨p, x, o, rfl, rfl, hlength, hentries, hlines⟩

end Thumb
