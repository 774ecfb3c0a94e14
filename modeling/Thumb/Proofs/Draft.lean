import Thumb.Proofs.Encoding

namespace Thumb

inductive Relocation.Sound : Relocation → Prop
  | code {index offset line : Nat} {r : Record} {form : Form} {opcode : List Halfword}
      (select : Form.select r.mnemonic r.operands = .ok form)
      (encode : form.encode r.operands none = .ok opcode) :
      Sound ⟨.code, index, offset, (Object.Draft.halfwordBytes opcode).length, .record r, line⟩
  | data {index offset line : Nat} {width : Width} {name : String} :
      Sound ⟨.data, index, offset, width.bytes, .symbol name, line⟩

structure Relocation.Within (index low high : Nat) (r : Relocation) : Prop where
  index : r.index = index
  low : low ≤ r.offset
  high : r.offset + r.length ≤ high

theorem Relocation.Within.mono {index low low' high high' : Nat} {r : Relocation}
    (h : r.Within index low high) (hlow : low' ≤ low) (hhigh : high ≤ high') :
    r.Within index low' high' :=
  ⟨h.index, hlow.trans h.low, h.high.trans hhigh⟩

def Relocation.Before (r r' : Relocation) : Prop :=
  r.index < r'.index ∨ r.index = r'.index ∧ r.offset + r.length ≤ r'.offset

/-- A byte of a section that a relocation replaces. -/
def Relocation.Covers (r : Relocation) (k position : Nat) : Prop :=
  r.index = k ∧ r.offset ≤ position ∧ position < r.offset + r.length

theorem Relocation.Before.not_covers {r r' : Relocation} (h : r.Before r') {k position : Nat}
    (hr : r.Covers k position) : ¬r'.Covers k position := by
  obtain ⟨hk, _, hhigh⟩ := hr
  rintro ⟨hk', hlow, _⟩
  rcases h with hlt | ⟨_, hle⟩ <;> omega

structure Mark.Within (index low high : Nat) (m : Mark) : Prop where
  index : m.index = index
  low : low ≤ m.offset
  high : m.offset ≤ high

theorem Mark.Within.mono {index low low' high high' : Nat} {m : Mark}
    (h : m.Within index low high) (hlow : low' ≤ low) (hhigh : high ≤ high') :
    m.Within index low' high' :=
  ⟨h.index, hlow.trans h.low, h.high.trans hhigh⟩

namespace Object.Draft

/-- What filling a section does to a draft: bytes are added at the end, and relocations, symbols and
the marks of the given lines for places in them. -/
structure Extends (d : Draft) (lines : List Nat) (d' : Draft) : Prop where
  constants : d'.constants = d.constants
  content : d'.object.content = d.object.content
  sections : d'.object.sections = d.object.sections
  bytes : d.bytes <+: d'.bytes
  symbols : ∀ entry ∈ d'.object.symbols.entries, entry ∈ d.object.symbols.entries ∨
    ∃ n : Nat, entry.2 = .address (some d.index) n ∧ n ≤ d'.bytes.length
  relocations : ∃ rs, d'.object.relocations = d.object.relocations ++ rs ∧
    (∀ r ∈ rs, r.Sound ∧ r.Within d.index d.bytes.length d'.bytes.length) ∧
    rs.Pairwise Relocation.Before
  marks : ∃ ms, d'.object.marks = d.object.marks ++ ms ∧ ms.map (·.line) = lines ∧
    (∀ m ∈ ms, m.Within d.index d.bytes.length d'.bytes.length) ∧
    ms.Pairwise fun m m' => m.offset ≤ m'.offset

namespace Extends

variable {d d' d'' : Draft} {lines lines' : List Nat}

theorem of_bytes (hc : d'.constants = d.constants) (ho : d'.object = d.object)
    (hb : d.bytes <+: d'.bytes) : d.Extends [] d' where
  constants := hc
  content := by rw [ho]
  sections := by rw [ho]
  bytes := hb
  symbols entry h := by
    rw [ho] at h
    exact .inl h
  relocations := ⟨[], by rw [ho, List.append_nil], nofun, .nil⟩
  marks := ⟨[], by rw [ho, List.append_nil], rfl, nofun, .nil⟩

theorem refl (d : Draft) : d.Extends [] d :=
  .of_bytes rfl rfl List.prefix_rfl

theorem index_eq (h : d.Extends lines d') : d'.index = d.index :=
  congrArg List.length h.sections

theorem length_le (h : d.Extends lines d') : d.bytes.length ≤ d'.bytes.length :=
  h.bytes.length_le

theorem trans (h : d.Extends lines d') (h' : d'.Extends lines' d'') :
    d.Extends (lines ++ lines') d'' where
  constants := h'.constants.trans h.constants
  content := h'.content.trans h.content
  sections := h'.sections.trans h.sections
  bytes := h.bytes.trans h'.bytes
  symbols entry hmem := by
    rcases h'.symbols entry hmem with hmem | ⟨n, hn, hle⟩
    · rcases h.symbols entry hmem with hmem | ⟨n, hn, hle⟩
      · exact .inl hmem
      · exact .inr ⟨n, hn, hle.trans h'.length_le⟩
    · rw [h.index_eq] at hn
      exact .inr ⟨n, hn, hle⟩
  relocations := by
    obtain ⟨rs, hrs, hin, hpair⟩ := h.relocations
    obtain ⟨rs', hrs', hin', hpair'⟩ := h'.relocations
    rw [h.index_eq] at hin'
    refine ⟨rs ++ rs', by rw [hrs', hrs, List.append_assoc], ?_, ?_⟩
    · intro r hr
      rcases List.mem_append.mp hr with hr | hr
      · exact (hin r hr).imp_right (·.mono le_rfl h'.length_le)
      · exact (hin' r hr).imp_right (·.mono h.length_le le_rfl)
    · rw [List.pairwise_append]
      refine ⟨hpair, hpair', ?_⟩
      intro r hr r' hr'
      have hw := (hin r hr).2
      have hw' := (hin' r' hr').2
      exact .inr ⟨hw.index.trans hw'.index.symm, hw.high.trans hw'.low⟩
  marks := by
    obtain ⟨ms, hms, hlines, hin, hpair⟩ := h.marks
    obtain ⟨ms', hms', hlines', hin', hpair'⟩ := h'.marks
    rw [h.index_eq] at hin'
    refine ⟨ms ++ ms', by rw [hms', hms, List.append_assoc],
      by rw [List.map_append, hlines, hlines'], ?_, ?_⟩
    · intro m hm
      rcases List.mem_append.mp hm with hm | hm
      · exact (hin m hm).mono le_rfl h'.length_le
      · exact (hin' m hm).mono h.length_le le_rfl
    · rw [List.pairwise_append]
      exact ⟨hpair, hpair', fun m hm m' hm' => (hin m hm).high.trans (hin' m' hm').low⟩

end Extends

variable {d d' : Draft}

theorem emit_extends (d : Draft) (bytes : List Byte) : d.Extends [] (d.emit bytes) :=
  .of_bytes rfl rfl (List.prefix_append _ _)

theorem align_extends (d : Draft) (alignment : Nat) : d.Extends [] (d.align alignment) :=
  d.emit_extends _

theorem mark_extends (d : Draft) (line : Nat) : d.Extends [line] (d.mark line) where
  constants := rfl
  content := rfl
  sections := rfl
  bytes := List.prefix_rfl
  symbols _ h := .inl h
  relocations := ⟨[], (List.append_nil _).symm, nofun, .nil⟩
  marks := by
    refine ⟨_, rfl, rfl, ?_, List.pairwise_singleton _ _⟩
    intro m hm
    cases List.mem_singleton.mp hm
    exact ⟨rfl, le_rfl, le_rfl⟩

theorem define_eq_ok {o o' : Object} {name : String} {symbol : Symbol} {line : Nat} :
    o.define name symbol line = .ok o' ↔
      o.symbols.contains name = false ∧
        { o with symbols := o.symbols.insert name symbol } = o' := by
  unfold define
  split
  case isTrue h => simp [h]
  case isFalse h => simp [h]

theorem label_extends {name : String} {line : Nat} (h : d.label name line = .ok d') :
    d.Extends [] d' := by
  simp only [label, bind_ok_iff, define_eq_ok] at h
  obtain ⟨_, ⟨_, rfl⟩, h⟩ := h
  cases h
  constructor
  case symbols =>
    intro entry hmem
    rcases Table.mem_insertInto hmem with rfl | hmem
    · exact .inr ⟨_, rfl, le_rfl⟩
    · exact .inl hmem
  case relocations => exact ⟨[], (List.append_nil _).symm, nofun, .nil⟩
  case marks => exact ⟨[], (List.append_nil _).symm, rfl, nofun, .nil⟩
  case bytes => exact List.prefix_rfl
  all_goals rfl

theorem relocate_extends (d : Draft) {kind : SectionKind} {length : Nat} {target : Target}
    {line : Nat} {bytes : List Byte} (hl : bytes.length = length)
    (hs : Relocation.Sound ⟨kind, d.index, d.bytes.length, length, target, line⟩) :
    d.Extends [] ((d.relocate kind length target line).emit bytes) where
  constants := rfl
  content := rfl
  sections := rfl
  bytes := List.prefix_append _ _
  symbols _ h := .inl h
  relocations := by
    refine ⟨_, rfl, ?_, List.pairwise_singleton _ _⟩
    intro r hr
    cases List.mem_singleton.mp hr
    refine ⟨hs, rfl, le_rfl, ?_⟩
    rw [← hl]
    exact List.length_append.ge
  marks := ⟨[], (List.append_nil _).symm, rfl, nofun, .nil⟩

theorem datum_extends {width : Width} {mnemonic operand : String} {line : Nat}
    (h : d.datum width mnemonic operand line = .ok d') : d.Extends [] d' := by
  unfold datum at h
  split at h
  case h_1 value _ =>
    obtain ⟨bytes, _, h⟩ := bind_ok_iff.mp h
    cases h
    exact d.emit_extends bytes
  case h_2 =>
    split at h
    case isTrue =>
      cases h
      exact d.relocate_extends List.length_replicate .data
    case isFalse => cases h

theorem dataOperand_extends {width : Width} {r : Record} {operand : String}
    (h : dataOperand width r d operand = .ok d') : d.Extends [] d' := by
  unfold dataOperand at h
  split at h
  · cases h
    exact d.emit_extends _
  · exact datum_extends h

theorem dataOperands_extends {width : Width} {r : Record} {operands : List String}
    (h : operands.foldlM (dataOperand width r) d = .ok d') : d.Extends [] d' :=
  foldlM_rel (R := (Extends · [] ·)) .refl .trans (fun _ _ _ _ => dataOperand_extends) h

theorem data_extends {width : Width} {r : Record} (h : d.data width r = .ok d') :
    d.Extends [] d' := by
  unfold data at h
  split at h
  · cases h
  · exact dataOperands_extends h

theorem space_extends {filled : Bool} {r : Record} (h : d.space filled r = .ok d') :
    d.Extends [] d' := by
  unfold space at h
  extract_lets fill at h
  have hfill (x : String × Option String) (hx : fill x = .ok d') : d.Extends [] d' := by
    unfold fill at hx
    split at hx
    split at hx
    · cases hx
    · split at hx
      · cases hx
      · obtain ⟨bytes, _, hx⟩ := bind_ok_iff.mp hx
        cases hx
        exact d.emit_extends _
  clear_value fill
  split at h
  · exact hfill _ h
  · exact hfill _ h
  · cases h

theorem alignTo_extends {r : Record} (h : d.alignTo r = .ok d') : d.Extends [] d' := by
  unfold alignTo at h
  split at h
  · cases h
    exact d.align_extends 4
  · split at h
    · cases h
      exact d.align_extends _
    · cases h
  · cases h

theorem operands_eq (d : Draft) (line : Nat) (ops : List String) :
    ∃ pool literals, (d.operands line ops).2 = { d with pool, literals } := by
  induction ops generalizing d with
  | nil => exact ⟨_, _, rfl⟩
  | cons op ops ih =>
    have hop : ∃ pool literals, (d.operand line op).2 = { d with pool, literals } := by
      unfold operand literal
      split
      · split
        · exact ⟨_, _, rfl⟩
        · exact ⟨_, _, rfl⟩
      · exact ⟨_, _, rfl⟩
    obtain ⟨pool, literals, hop⟩ := hop
    obtain ⟨pool', literals', hops⟩ := ih (d.operand line op).2
    refine ⟨pool', literals', ?_⟩
    rw [operands, hops, hop]

theorem operands_extends (d : Draft) (line : Nat) (ops : List String) :
    d.Extends [] (d.operands line ops).2 := by
  obtain ⟨pool, literals, heq⟩ := d.operands_eq line ops
  rw [heq]
  exact .of_bytes rfl rfl List.prefix_rfl

/-- An instruction adds its opcode, and a relocation of that length if it refers to labels. -/
theorem instruction_cases {r : Record} (h : d.instruction r = .ok d') :
    ∃ form opcode,
      Form.select r.mnemonic (d.operands r.line r.operands).1 = .ok form ∧
      form.encode (d.operands r.line r.operands).1 none = .ok opcode ∧
      d' =
        (if form.needsLabels then
          (d.operands r.line r.operands).2.relocate .code (halfwordBytes opcode).length
            (.record { r with operands := (d.operands r.line r.operands).1 }) r.line
        else (d.operands r.line r.operands).2).emit (halfwordBytes opcode) := by
  simp only [instruction, bind_ok_iff, mapError_ok_iff, pure, Except.pure, Except.ok.injEq] at h
  obtain ⟨form, hform, opcode, hopcode, rfl⟩ := h
  exact ⟨form, opcode, hform, hopcode, rfl⟩

theorem instruction_extends {r : Record} (h : d.instruction r = .ok d') : d.Extends [] d' := by
  obtain ⟨form, opcode, hselect, hencode, rfl⟩ := instruction_cases h
  refine (d.operands_extends r.line r.operands).trans ?_
  split
  · exact relocate_extends _ rfl (.code hselect hencode)
  · exact emit_extends _ _

theorem body_extends {r : Record} (h : d.body r = .ok d') : d.Extends [] d' := by
  unfold body at h
  split at h
  · exact data_extends h
  · exact space_extends h
  · exact alignTo_extends h
  · exact instruction_extends h

/-- A record is aligned, labelled and marked before its body is added. -/
theorem record_cases {r : Record} (h : d.record r = .ok d') :
    ∃ d₁, (∃ symbols, d₁ = { d.align r.kind.alignment with object := { d.object with symbols } }) ∧
      d.Extends [] d₁ ∧ (d₁.mark r.line).body r = .ok d' := by
  have halign := d.align_extends r.kind.alignment
  unfold record at h
  extract_lets d₀ body at h
  split at h
  case h_1 name _ =>
    obtain ⟨d₁, hlabel, h⟩ := bind_ok_iff.mp h
    refine ⟨d₁, ?_, halign.trans (label_extends hlabel), h⟩
    simp only [label, bind_ok_iff, define_eq_ok] at hlabel
    obtain ⟨_, ⟨_, rfl⟩, hlabel⟩ := hlabel
    cases hlabel
    exact ⟨_, rfl⟩
  case h_2 => exact ⟨d₀, ⟨_, rfl⟩, halign, h⟩

theorem record_extends {r : Record} (h : d.record r = .ok d') : d.Extends [r.line] d' := by
  obtain ⟨d₁, _, hplace, hbody⟩ := record_cases h
  exact (hplace.trans (d₁.mark_extends r.line)).trans (body_extends hbody)

theorem records_extends {rs : List Record} (h : rs.foldlM record d = .ok d') :
    d.Extends (rs.map (·.line)) d' := by
  induction rs generalizing d with
  | nil =>
    cases h
    exact .refl _
  | cons r rs ih =>
    obtain ⟨d₁, hr, h⟩ := bind_ok_iff.mp h
    exact (record_extends hr).trans (ih h)

theorem poolLiteral_extends {l : Literal} (h : d.poolLiteral l = .ok d') : d.Extends [] d' := by
  obtain ⟨d₁, hlabel, h⟩ := bind_ok_iff.mp h
  exact (label_extends hlabel).trans (datum_extends h)

theorem poolLiterals_extends {pool : List Literal} (h : pool.foldlM poolLiteral d = .ok d') :
    d.Extends [] d' :=
  foldlM_rel (R := (Extends · [] ·)) .refl .trans (fun _ _ _ _ => poolLiteral_extends) h

def poolBase (d : Draft) (kind : SectionKind) : Draft :=
  (if kind = .code then d.emit (halfwordBytes [AddressMap.endOfCode]) else d).align 4

theorem flushPool_eq (d : Draft) (kind : SectionKind) (h : d.pool ≠ []) :
    d.flushPool kind = d.pool.foldlM poolLiteral (d.poolBase kind) := by
  unfold flushPool poolBase
  rw [List.isEmpty_eq_false_iff.mpr h]
  cases kind with
  | code => rfl
  | data => rfl

theorem poolBase_extends (d : Draft) (kind : SectionKind) : d.Extends [] (d.poolBase kind) := by
  unfold poolBase
  split
  · exact (d.emit_extends _).trans (align_extends _ 4)
  · exact d.align_extends 4

theorem flushPool_extends {kind : SectionKind} (h : d.flushPool kind = .ok d') :
    d.Extends [] d' := by
  by_cases hpool : d.pool = []
  · rw [flushPool, hpool] at h
    cases h
    exact .refl d
  · rw [flushPool_eq d kind hpool] at h
    exact (d.poolBase_extends kind).trans (poolLiterals_extends h)

theorem area_cases {a : Area} (h : d.area a = .ok d') :
    ∃ d₁ d₂, a.records.foldlM record d = .ok d₁ ∧ d₁.Extends [] d₂ ∧ d' = d₂.finish a := by
  obtain ⟨d₁, hrecords, h⟩ := bind_ok_iff.mp h
  obtain ⟨d₂, hpool, h⟩ := bind_ok_iff.mp h
  cases h
  exact ⟨d₁, d₂, hrecords, flushPool_extends hpool, rfl⟩

end Object.Draft

end Thumb
