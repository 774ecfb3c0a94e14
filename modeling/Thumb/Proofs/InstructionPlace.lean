import Thumb.Proofs.Placement

namespace Thumb

namespace Object.Draft

variable {d d' d'' : Draft}

/-- What adding sections does to those that are finished: nothing. -/
structure Continues (d d' : Draft) : Prop where
  content : d.object.content <+: d'.object.content
  sections : d.object.sections <+: d'.object.sections
  relocations : ∃ rs, d'.object.relocations = d.object.relocations ++ rs ∧
    ∀ r ∈ rs, d.index ≤ r.index
  marks : d.object.marks <+: d'.object.marks

namespace Continues

theorem refl (d : Draft) : d.Continues d where
  content := List.prefix_rfl
  sections := List.prefix_rfl
  relocations := ⟨[], (List.append_nil _).symm, nofun⟩
  marks := List.prefix_rfl

theorem trans (h : d.Continues d') (h' : d'.Continues d'') : d.Continues d'' where
  content := h.content.trans h'.content
  sections := h.sections.trans h'.sections
  relocations := by
    obtain ⟨rs, hrs, hindex⟩ := h.relocations
    obtain ⟨rs', hrs', hindex'⟩ := h'.relocations
    refine ⟨rs ++ rs', by rw [hrs', hrs, List.append_assoc], ?_⟩
    intro r hr
    rcases List.mem_append.mp hr with hr | hr
    · exact hindex r hr
    · exact h.sections.length_le.trans (hindex' r hr)
  marks := h.marks.trans h'.marks

end Continues

theorem Extends.continues {lines : List Nat} (h : d.Extends lines d') : d.Continues d' where
  content := by rw [h.content]
  sections := by rw [h.sections]
  relocations := by
    obtain ⟨rs, hrs, hin, _⟩ := h.relocations
    exact ⟨rs, hrs, fun r hr => (hin r hr).2.index.ge⟩
  marks := by
    obtain ⟨ms, hms, _⟩ := h.marks
    exact ⟨ms, hms.symm⟩

theorem finish_continues (d : Draft) (a : Area) : d.Continues (d.finish a) where
  content := List.prefix_append _ _
  sections := List.prefix_append _ _
  relocations := ⟨[], (List.append_nil _).symm, nofun⟩
  marks := List.prefix_rfl

theorem area_continues {a : Area} (h : d.area a = .ok d') : d.Continues d' := by
  obtain ⟨d₁, d₂, hrecords, hpool, rfl⟩ := area_cases h
  exact ((records_extends hrecords).trans hpool).continues.trans (d₂.finish_continues a)

theorem areas_continues {areas : List Area} (h : areas.foldlM area d = .ok d') :
    d.Continues d' :=
  foldlM_rel (R := Continues) .refl .trans (fun _ _ _ _ => area_continues) h

theorem Extends.length_marks {lines : List Nat} (h : d.Extends lines d') :
    d'.object.marks.length = d.object.marks.length + lines.length := by
  obtain ⟨ms, hms, hlines, _⟩ := h.marks
  rw [hms, List.length_append, ← hlines, List.length_map]

theorem length_marks_areas {areas : List Area} (h : areas.foldlM area d = .ok d') :
    d'.object.marks.length =
      d.object.marks.length + (areas.map (·.records.length)).sum := by
  induction areas generalizing d with
  | nil =>
    cases h
    rfl
  | cons a areas ih =>
    obtain ⟨d₁, ha, h⟩ := bind_ok_iff.mp h
    obtain ⟨d₂, d₃, hrecords, hpool, rfl⟩ := area_cases ha
    have hmarks := ((records_extends hrecords).trans hpool).length_marks
    rw [List.append_nil, List.length_map] at hmarks
    rw [ih h, List.map_cons, List.sum_cons, ← Nat.add_assoc, ← hmarks]
    rfl

theorem operands_congr (hc : d'.constants = d.constants) (hp : d'.pool = d.pool)
    (hn : d'.literals = d.literals) (line : Nat) (ops : List String) :
    (d'.operands line ops).1 = (d.operands line ops).1 := by
  induction ops generalizing d d' with
  | nil => rfl
  | cons op ops ih =>
    have hop : (d'.operand line op).1 = (d.operand line op).1 ∧
        (d'.operand line op).2.constants = (d.operand line op).2.constants ∧
        (d'.operand line op).2.pool = (d.operand line op).2.pool ∧
        (d'.operand line op).2.literals = (d.operand line op).2.literals := by
      unfold operand literal
      rw [hp, hn, hc]
      split
      · split
        · exact ⟨rfl, hc, hp, hn⟩
        · exact ⟨rfl, rfl, rfl, rfl⟩
      · exact ⟨rfl, hc, hp, hn⟩
    obtain ⟨hfirst, hc', hp', hn'⟩ := hop
    simp only [operands, hfirst, ih hc' hp' hn']

theorem record_instruction {r : Record} (h : d.record r = .ok d') (hk : r.kind = .instruction) :
    ∃ form opcode,
      Form.select r.mnemonic (d.operands r.line r.operands).1 = .ok form ∧
      form.encode (d.operands r.line r.operands).1 none = .ok opcode ∧
      d'.bytes = (d.align 2).bytes ++ halfwordBytes opcode ∧
      d'.object.relocations = d.object.relocations ++
        if form.needsLabels then
          [⟨.code, d.index, (d.align 2).bytes.length, 2 * opcode.length,
            .record { r with operands := (d.operands r.line r.operands).1 }, r.line⟩]
        else [] := by
  obtain ⟨d₁, ⟨symbols, hd₁⟩, _, hbody⟩ := record_cases h
  unfold body at hbody
  rw [hk] at hd₁ hbody
  obtain ⟨form, opcode, hselect, hencode, rfl⟩ := instruction_cases hbody
  have hops : ((d₁.mark r.line).operands r.line r.operands).1 =
      (d.operands r.line r.operands).1 := by
    apply operands_congr <;> subst hd₁ <;> rfl
  obtain ⟨pool, literals, hdraft⟩ := (d₁.mark r.line).operands_eq r.line r.operands
  rw [hops] at hselect hencode ⊢
  rw [hdraft]
  refine ⟨form, opcode, hselect, hencode, ?_⟩
  subst hd₁
  cases form.needsLabels with
  | false => exact ⟨rfl, (List.append_nil _).symm⟩
  | true =>
    rw [← length_halfwordBytes]
    exact ⟨rfl, rfl⟩

theorem record_mark {r : Record} (h : d.record r = .ok d') :
    d'.object.marks =
      d.object.marks ++ [⟨d.index, (d.align r.kind.alignment).bytes.length, r.line⟩] := by
  obtain ⟨d₁, ⟨symbols, hd₁⟩, _, hbody⟩ := record_cases h
  obtain ⟨ms, hms, hlines, _⟩ := (body_extends hbody).marks
  rw [List.map_eq_nil_iff.mp hlines, List.append_nil] at hms
  rw [hms, hd₁]
  rfl

/-- The draft to which the program adds a record of an area. -/
def before (p : Program) (i j : Nat) : Except AssemblyError Draft := do
  let d ← p.constants.foldlM constant {}
  let d ← (p.areas.take i).foldlM area d
  match p.areas[i]? with
  | some a => (a.records.take j).foldlM record d
  | none => return d

end Object.Draft

def Program.recordNumber (p : Program) (i j : Nat) : Nat :=
  ((p.areas.take i).map (·.records.length)).sum + j

namespace Object

/-- An object with the opcode of an instruction at an offset of a section. Only an instruction that
refers to labels has a relocation there. -/
structure InstructionAt (o : Object) (k offset : Nat) (r : Record) (form : Form)
    (opcode : List Halfword) : Prop where
  inside : ∃ s, o.sections[k]? = some s ∧ offset + 2 * opcode.length ≤ s.size
  select : Form.select r.mnemonic r.operands = .ok form
  encode : form.encode r.operands none = .ok opcode
  bytes : ((o.body k).drop offset).take (2 * opcode.length) = Draft.halfwordBytes opcode
  labelled : form.needsLabels = true →
    ⟨.code, k, offset, 2 * opcode.length, .record r, r.line⟩ ∈ o.relocations
  plain : form.needsLabels = false → ∀ r' ∈ o.relocations, ∀ n < 2 * opcode.length,
    ¬r'.Covers k (offset + n)

namespace Draft

variable {d d' d'' : Draft} {lines : List Nat} {a : Area}

theorem body_of_finish (h : d.Extends lines d') (hc : (d'.finish a).Continues d'') :
    d''.object.sections[d.index]? =
      some ⟨a.kind, a.name, d.object.content.length, d'.bytes.length⟩ ∧
    d''.object.body d.index = d'.bytes := by
  have hsections : d''.object.sections[d.index]? =
      some ⟨a.kind, a.name, d.object.content.length, d'.bytes.length⟩ := by
    have hnew := getElem?_finish_index h a
    obtain ⟨more, hmore⟩ := hc.sections
    rw [← hmore, List.getElem?_append_left (List.getElem?_eq_some_iff.mp hnew).1, hnew]
  refine ⟨hsections, ?_⟩
  obtain ⟨more, hmore⟩ := hc.content
  have hcontent : d.object.content ++ (d'.bytes ++ more) = d''.object.content := by
    rw [← hmore, ← List.append_assoc, ← h.content]
    rfl
  rw [Object.body, hsections, ← hcontent]
  dsimp only
  rw [List.drop_left, List.take_left]

/-- The drafts on the way to the object of a program, around one area. -/
theorem ofProgram_split {p : Program} {o : Object} (ho : ofProgram p = .ok o) {i : Nat}
    (ha : p.areas[i]? = some a) :
    ∃ c d₀ e d₁ d₂ : Draft, p.constants.foldlM constant {} = .ok c ∧
      (p.areas.take i).foldlM area c = .ok d₀ ∧ a.records.foldlM record d₀ = .ok e ∧
      e.flushPool a.kind = .ok d₁ ∧
      (p.areas.drop (i + 1)).foldlM area (d₁.finish a) = .ok d₂ ∧ o = d₂.object := by
  obtain ⟨c, hconstants, ho⟩ := bind_ok_iff.mp ho
  obtain ⟨d₂, hareas, ho⟩ := bind_ok_iff.mp ho
  cases ho
  obtain ⟨d₀, d₃, htake, harea, hdrop⟩ := foldlM_getElem? ha hareas
  obtain ⟨e, hrecords, harea⟩ := bind_ok_iff.mp harea
  obtain ⟨d₁, hpool, harea⟩ := bind_ok_iff.mp harea
  cases harea
  exact ⟨c, d₀, e, d₁, d₂, hconstants, htake, hrecords, hpool, hdrop, rfl⟩

theorem before_eq {p : Program} {i j : Nat} {c d₀ : Draft} (ha : p.areas[i]? = some a)
    (hconstants : p.constants.foldlM constant {} = .ok c)
    (htake : (p.areas.take i).foldlM area c = .ok d₀)
    (hbefore : (a.records.take j).foldlM record d₀ = .ok d) : before p i j = .ok d := by
  simp only [before, hconstants, htake, ha, bind, Except.bind, hbefore]

theorem index_eq_of_take {p : Program} {i : Nat} (ha : p.areas[i]? = some a)
    (hd : d.object.WellFormed (p.areas.take i)) : d.index = i := by
  rw [index, hd.length_sections]
  exact List.length_take_of_le (List.getElem?_eq_some_iff.mp ha).1.le

theorem marks_of_constants {cs : List Constant} (h : cs.foldlM constant {} = .ok d) :
    d.object.marks = [] := by
  have hform := constants_wellFormed h
  rw [List.eq_nil_iff_forall_not_mem]
  intro m hm
  have hlt := hform.index_lt_of_mark hm
  rw [hform.length_sections] at hlt
  exact Nat.not_lt_zero _ hlt

theorem ofProgram_around {p : Program} {o : Object} (ho : ofProgram p = .ok o) {i j : Nat}
    {r : Record} (ha : p.areas[i]? = some a) (hr : a.records[j]? = some r) :
    ∃ d₀ d d' d₁ d₂ : Draft, d₀.object.WellFormed (p.areas.take i) ∧
      d₀.object.marks.length + j = p.recordNumber i j ∧
      before p i j = .ok d ∧ d₀.Extends ((a.records.take j).map (·.line)) d ∧
      d.record r = .ok d' ∧ (∃ lines, d'.Extends lines d₁) ∧ (d₁.finish a).Continues d₂ ∧
      o = d₂.object := by
  obtain ⟨c, d₀, e, d₁, d₂, hconstants, htake, hrecords, hpool, hdrop, ho⟩ := ofProgram_split ho ha
  obtain ⟨d, d', hbefore, hrecord, hafter⟩ := foldlM_getElem? hr hrecords
  have hform := constants_wellFormed hconstants
  have hmarks := length_marks_areas htake
  refine ⟨d₀, d, d', d₁, d₂, areas_wellFormed htake hform, ?_,
    before_eq ha hconstants htake hbefore, records_extends hbefore, hrecord,
    ⟨_, (records_extends hafter).trans (flushPool_extends hpool)⟩, areas_continues hdrop, ho⟩
  rw [hmarks, marks_of_constants hconstants, Program.recordNumber, List.length_nil, Nat.zero_add]

/-- Of the relocations of an object, only those that a step added cover the bytes that it added. -/
theorem not_covers_of_step {areas : List Area} {d₀ d₁ d₂ : Draft} {linesOf lines' : List Nat}
    (hform : d₀.object.WellFormed areas) (hext : d₀.Extends lines d)
    (hstep : d.Extends linesOf d') (hext' : d'.Extends lines' d₁)
    (hcont : (d₁.finish a).Continues d₂) {own : List Relocation}
    (hown : d'.object.relocations = d.object.relocations ++ own) :
    (∀ r' ∈ own, r' ∈ d₂.object.relocations) ∧
    ∀ r' ∈ d₂.object.relocations, r' ∈ own ∨ ∀ position, d.bytes.length ≤ position →
      position < d'.bytes.length → ¬r'.Covers d₀.index position := by
  obtain ⟨rs₀, hrs₀, hin₀, _⟩ := hext.relocations
  obtain ⟨rs₁, hrs₁, hin₁, _⟩ := hext'.relocations
  obtain ⟨rs₂, hrs₂, hin₂⟩ := hcont.relocations
  have hindex₁ : d₁.index = d'.index := hext'.index_eq
  have hindex : d'.index = d₀.index := hstep.index_eq.trans hext.index_eq
  have hnext : (d₁.finish a).index = d₁.index + 1 := List.length_append
  have hall : d₂.object.relocations = d₀.object.relocations ++ rs₀ ++ own ++ rs₁ ++ rs₂ := by
    rw [hrs₂, ← hrs₀, ← hown, ← hrs₁]
    rfl
  rw [hall]
  constructor
  · intro r' hr'
    simp [hr']
  · intro r' hr'
    simp only [List.mem_append] at hr'
    -- Earlier areas, earlier steps, the step itself, later steps, later areas.
    rcases hr' with (((hr' | hr') | hr') | hr') | hr'
    · right
      rintro position _ _ ⟨hk, _⟩
      exact (hform.index_lt_of_relocation hr').ne hk
    · right
      rintro position hge _ ⟨_, _, hlt⟩
      have hhigh := (hin₀ r' hr').2.high
      omega
    · exact .inl hr'
    · right
      rintro position _ hlt ⟨_, hge, _⟩
      have hlow := (hin₁ r' hr').2.low
      omega
    · right
      rintro position _ _ ⟨hk, _⟩
      have hge := hin₂ r' hr'
      omega

end Draft

theorem ofProgram_mark {p : Program} {o : Object} (ho : ofProgram p = .ok o) {i j : Nat} {a : Area}
    {r : Record} (ha : p.areas[i]? = some a) (hr : a.records[j]? = some r) :
    ∃ d, Draft.before p i j = .ok d ∧ o.marks[p.recordNumber i j]? =
      some ⟨i, (d.align r.kind.alignment).bytes.length, r.line⟩ := by
  obtain ⟨d₀, d, d', d₁, d₂, hform, hnumber, hbefore, hext, hrecord, ⟨lines, hext'⟩, hcont, rfl⟩ :=
    Draft.ofProgram_around ho ha hr
  have hindex : d.index = i := hext.index_eq.trans (Draft.index_eq_of_take ha hform)
  obtain ⟨ms, hms, _⟩ := hext'.marks
  obtain ⟨ms', hms'⟩ := hcont.marks
  have hlen := hext.length_marks
  rw [List.length_map, List.length_take_of_le (List.getElem?_eq_some_iff.mp hr).1.le, hnumber]
    at hlen
  have hmarks : d₂.object.marks = d.object.marks ++
      ⟨d.index, (d.align r.kind.alignment).bytes.length, r.line⟩ :: (ms ++ ms') := by
    rw [← hms', show (d₁.finish a).object.marks = _ from hms, Draft.record_mark hrecord]
    simp only [List.append_assoc, List.cons_append, List.nil_append]
  refine ⟨d, hbefore, ?_⟩
  rw [hmarks, ← hlen, List.getElem?_append_right le_rfl, Nat.sub_self, List.getElem?_cons_zero,
    hindex]

theorem ofProgram_instruction {p : Program} {o : Object} (ho : ofProgram p = .ok o) {i j : Nat}
    {a : Area} {r : Record} (ha : p.areas[i]? = some a) (hr : a.records[j]? = some r)
    (hk : r.kind = .instruction) :
    ∃ d m form opcode, Draft.before p i j = .ok d ∧
      o.marks[p.recordNumber i j]? = some m ∧ m.index = i ∧ m.line = r.line ∧
      o.InstructionAt i m.offset { r with operands := (d.operands r.line r.operands).1 } form
        opcode := by
  obtain ⟨d, hd, hmark⟩ := ofProgram_mark ho ha hr
  obtain ⟨d₀, d', d'', d₁, d₂, hform, _, hbefore, hext, hrecord, ⟨lines, hext'⟩, hcont, rfl⟩ :=
    Draft.ofProgram_around ho ha hr
  cases hd.symm.trans hbefore
  obtain ⟨form, opcode, hselect, hencode, hbytes, hrelocs⟩ := Draft.record_instruction hrecord hk
  have hstep := Draft.record_extends hrecord
  obtain ⟨hown, hothers⟩ := Draft.not_covers_of_step hform hext hstep hext' hcont hrelocs
  have hindex₀ := Draft.index_eq_of_take ha hform
  have hindex : d.index = i := hext.index_eq.trans hindex₀
  obtain ⟨hsection, hbody⟩ := Draft.body_of_finish (hext.trans (hstep.trans hext')) hcont
  rw [hindex₀] at hsection hbody hothers
  -- The section is what was there before the record, the opcode, and what was added after it.
  obtain ⟨more, hmore⟩ := hext'.bytes
  rw [hbytes] at hmore hothers
  rw [hk] at hmark
  refine ⟨d, ⟨i, (d.align 2).bytes.length, r.line⟩, form, opcode, hbefore, hmark, rfl, rfl, ?_⟩
  constructor
  case inside =>
    refine ⟨_, hsection, ?_⟩
    rw [← hmore, List.length_append, List.length_append, Draft.length_halfwordBytes]
    exact Nat.le_add_right _ _
  case select => exact hselect
  case encode => exact hencode
  case bytes =>
    rw [hbody, ← hmore, List.append_assoc, List.drop_left, ← Draft.length_halfwordBytes,
      List.take_left]
  case labelled =>
    intro hlabels
    apply hown
    rw [if_pos hlabels, hindex]
    exact .head _
  case plain =>
    intro hlabels r' hr' n hn
    rw [hlabels] at hothers
    rcases hothers r' hr' with hnone | hfree
    · cases hnone
    · refine hfree _ ((d.align_extends 2).length_le.trans (Nat.le_add_right _ _)) ?_
      rw [List.length_append, Draft.length_halfwordBytes]
      exact Nat.add_lt_add_left hn _

end Object

end Thumb
