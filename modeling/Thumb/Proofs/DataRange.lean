import Thumb.Proofs.DataImage

namespace Thumb

def AssemblyError.isValue : AssemblyError → Bool
  | .value .. => true
  | _ => false

/-- An error about a line, an instruction or a definition as it stands. -/
def AssemblyError.isPlain : AssemblyError → Bool
  | .statement .. | .instruction .. | .duplicateSymbol .. => true
  | _ => false

/-- The values that a record wants as bytes of a width, each with the mnemonic that it is reported
under. -/
inductive Record.Wants (r : Record) : Width → String → String → Prop
  | data {width : Width} {operand : String} (kind : r.kind = .data width)
      (mem : operand ∈ r.operands) (plain : width = .byte → unquote? operand.toList = none) :
      r.Wants width operand r.mnemonic
  | fill {count operand : String} (kind : r.kind = .space true)
      (operands : r.operands = [count, operand]) : r.Wants .byte operand r.mnemonic
  | literal {operand : String} {cs : List Char} (kind : r.kind = .instruction)
      (mem : operand ∈ r.operands) (marked : Text.trim operand.toList = '=' :: cs) :
      r.Wants .word (String.ofList (Text.trim cs)) "DCD"

structure Program.DatumAt (p : Program) (i j k : Nat) (r : Record) (width : Width)
    (operand : String) : Prop where
  record : ∃ a, p.areas[i]? = some a ∧ a.records[j]? = some r
  kind : r.kind = .data width
  found : r.operands[k]? = some operand
  plain : width = .byte → unquote? operand.toList = none

/-- The relocations of a record: its instruction, or a value that is no number. -/
inductive Record.Leaves (r : Record) (constants : Constants) : Relocation → Prop
  | code {index offset length : Nat} {record : Record} (kind : r.kind = .instruction) :
      r.Leaves constants ⟨.code, index, offset, length, .record record, r.line⟩
  | data {index offset : Nat} {width : Width} {operand mnemonic : String}
      (wants : r.Wants width operand mnemonic) (value : constants.value? operand = none)
      (label : Operand.isLabel operand = true) :
      r.Leaves constants
        ⟨.data, index, offset, width.bytes, .symbol (Text.trimmed operand), r.line⟩

namespace Object.Draft

/-- What can come of a step that is made for records: relocations and literals of these records, an
error about a value of theirs that does not fit, or an error of another kind. -/
inductive Accounts (rs : List Record) (d : Draft) : Except AssemblyError Draft → Prop
  | ok {d' : Draft} (constants : d'.constants = d.constants)
      (relocations : ∀ rel ∈ d'.object.relocations, rel ∈ d.object.relocations ∨
        ∃ r ∈ rs, r.Leaves d.constants rel)
      (pool : ∀ l ∈ d'.pool, l ∈ d.pool ∨ ∃ r ∈ rs, r.line = l.line ∧ r.Wants .word l.value "DCD") :
      d.Accounts rs (.ok d')
  | misfit {r : Record} {width : Width} {operand mnemonic : String} {v : Int} {e : ValueError}
      (record : r ∈ rs) (wants : r.Wants width operand mnemonic)
      (value : d.constants.value? operand = some v) (unfit : ¬width.Fits v) :
      d.Accounts rs (.error (.value r.line mnemonic operand e))
  | other {e : AssemblyError} (h : e.isPlain = true) : d.Accounts rs (.error e)

namespace Accounts

variable {rs rs' : List Record} {d d' : Draft} {x : Except AssemblyError Draft}

theorem of_eq (hc : d'.constants = d.constants)
    (ho : d'.object.relocations = d.object.relocations) (hpool : d'.pool = d.pool) :
    d.Accounts rs (.ok d') := by
  refine .ok hc ?_ ?_
  · intro rel hrel
    exact .inl (ho ▸ hrel)
  · intro l hl
    exact .inl (hpool ▸ hl)

theorem mono (h : d.Accounts rs x) (hrs : rs ⊆ rs') : d.Accounts rs' x := by
  cases h with
  | ok constants relocations pool =>
    refine .ok constants ?_ ?_
    · intro rel hrel
      rcases relocations rel hrel with hold | ⟨r, hr, hleaves⟩
      · exact .inl hold
      · exact .inr ⟨r, hrs hr, hleaves⟩
    · intro l hl
      rcases pool l hl with hold | ⟨r, hr, hwants⟩
      · exact .inl hold
      · exact .inr ⟨r, hrs hr, hwants⟩
  | misfit record wants value unfit => exact .misfit (hrs record) wants value unfit
  | other h => exact .other h

theorem bind {f : Draft → Except AssemblyError Draft} (h : d.Accounts rs x)
    (hf : ∀ d', x = .ok d' → d'.Accounts rs (f d')) : d.Accounts rs (x >>= f) := by
  cases h with
  | @ok d' constants relocations pool =>
    have hnext := hf d' rfl
    show d.Accounts rs (f d')
    generalize f d' = y at hnext ⊢
    cases hnext with
    | ok constants' relocations' pool' =>
      rw [constants] at relocations'
      refine .ok (constants'.trans constants) ?_ ?_
      · intro rel hrel
        rcases relocations' rel hrel with hrel | hleaves
        · exact relocations rel hrel
        · exact .inr hleaves
      · intro l hl
        rcases pool' l hl with hl | hwants
        · exact pool l hl
        · exact .inr hwants
    | misfit record wants value unfit =>
      rw [constants] at value
      exact .misfit record wants value unfit
    | other h => exact .other h
  | misfit record wants value unfit => exact .misfit record wants value unfit
  | other h => exact .other h

theorem foldlM {α : Type} {f : Draft → α → Except AssemblyError Draft} {l : List α}
    (hf : ∀ a ∈ l, ∀ d, Accounts rs d (f d a)) : d.Accounts rs (l.foldlM f d) := by
  induction l generalizing d with
  | nil => exact .of_eq rfl rfl rfl
  | cons a l ih =>
    obtain ⟨ha, hl⟩ := List.forall_mem_cons.mp hf
    rw [List.foldlM_cons]
    exact (ha d).bind fun _ _ => ih hl

end Accounts

section Steps

variable {rs : List Record} {r : Record}

theorem number_cases (width : Width) (v : Int) (mnemonic operand : String) (line : Nat) :
    (∃ bytes, number width v mnemonic operand line = .ok bytes) ∨
      ∃ e, number width v mnemonic operand line = .error (.value line mnemonic operand e) ∧
        ¬width.Fits v := by
  unfold number
  cases hdata : width.dataBytes v with
  | ok bytes => exact .inl ⟨bytes, rfl⟩
  | error e => exact .inr ⟨e, rfl, Width.dataBytes_error_iff.mp ⟨e, hdata⟩⟩

theorem datum_accounts (d : Draft) {width : Width} {mnemonic operand : String} (hr : r ∈ rs)
    (hwants : r.Wants width operand mnemonic) :
    d.Accounts rs (d.datum width mnemonic operand r.line) := by
  unfold datum
  split
  case h_1 v hv =>
    rcases number_cases width v mnemonic operand r.line with ⟨bytes, hn⟩ | ⟨e, hn, hunfit⟩
    · rw [hn]
      exact .of_eq rfl rfl rfl
    · rw [hn]
      exact .misfit hr hwants hv hunfit
  case h_2 hnone =>
    split
    case isTrue hlabel =>
      refine .ok rfl ?_ fun _ => .inl
      intro rel hrel
      rcases List.mem_append.mp hrel with hrel | hrel
      · exact .inl hrel
      · cases List.mem_singleton.mp hrel
        exact .inr ⟨r, hr, .data hwants hnone hlabel⟩
    case isFalse => exact .other rfl

theorem data_accounts (d : Draft) {width : Width} (hr : r ∈ rs) (hkind : r.kind = .data width) :
    d.Accounts rs (d.data width r) := by
  unfold data
  split
  · exact .other rfl
  · apply Accounts.foldlM
    intro operand hmem d
    rcases dataOperand_cases width r d operand with ⟨_, _, _, heq⟩ | ⟨hplain, heq⟩
    · rw [heq]
      exact .of_eq rfl rfl rfl
    · rw [heq]
      exact d.datum_accounts hr (.data hkind hmem hplain)

theorem fillByte_error_cases {d : Draft} {fill : Option String} {e : AssemblyError}
    (h : d.fillByte r fill = .error e) :
    e.isPlain = true ∨ ∃ operand v cause, fill = some operand ∧
      d.constants.value? operand = some v ∧ ¬Width.byte.Fits v ∧
      e = .value r.line r.mnemonic operand cause := by
  unfold fillByte at h
  split at h
  case h_1 => cases h
  case h_2 operand =>
    split at h
    case h_1 v hv =>
      rcases number_cases .byte v r.mnemonic operand r.line with ⟨_, hn⟩ | ⟨cause, hn, hunfit⟩
      · cases h.symm.trans hn
      · cases h.symm.trans hn
        exact .inr ⟨operand, v, cause, rfl, hv, hunfit, rfl⟩
    case h_2 =>
      cases h
      exact .inl rfl

theorem space_accounts (d : Draft) {filled : Bool} (hr : r ∈ rs) (hkind : r.kind = .space filled) :
    d.Accounts rs (d.space filled r) := by
  unfold space
  extract_lets rest
  have hrest (x : String × Option String)
      (hx : ∀ operand, x.2 = some operand → r.Wants .byte operand r.mnemonic) :
      d.Accounts rs (rest x) := by
    unfold rest
    split
    case _ count fill =>
      split
      · exact .other rfl
      · split
        · exact .other rfl
        · cases hfill : d.fillByte r fill with
          | ok bytes => exact .of_eq rfl rfl rfl
          | error e =>
            rcases fillByte_error_cases hfill with hother | ⟨operand, v, _, hop, hv, hunfit, rfl⟩
            · exact .other hother
            · exact .misfit hr (hx operand hop) hv hunfit
  clear_value rest
  split
  case h_1 =>
    apply hrest
    intro operand h
    cases h
  case h_2 count operand hoperands =>
    apply hrest
    intro operand' h
    cases h
    exact .fill hkind hoperands
  case h_3 => exact .other rfl

theorem alignTo_accounts (d : Draft) (r : Record) : d.Accounts rs (d.alignTo r) := by
  unfold alignTo
  split
  · exact .of_eq rfl rfl rfl
  · split
    · exact .of_eq rfl rfl rfl
    · exact .other rfl
  · exact .other rfl

theorem operands_accounts (d : Draft) (hr : r ∈ rs) (hkind : r.kind = .instruction)
    {ops : List String} (hops : ops ⊆ r.operands) :
    d.Accounts rs (.ok (d.operands r.line ops).2) := by
  induction ops generalizing d with
  | nil => exact .of_eq rfl rfl rfl
  | cons op ops ih =>
    obtain ⟨hop, hops⟩ := List.cons_subset.mp hops
    have hfirst : d.Accounts rs (.ok (d.operand r.line op).2) := by
      unfold operand
      split
      case h_1 cs hmarked =>
        unfold literal
        split
        · exact .of_eq rfl rfl rfl
        · refine .ok rfl (fun _ => .inl) ?_
          intro l hl
          rcases List.mem_append.mp hl with hl | hl
          · exact .inl hl
          · cases List.mem_singleton.mp hl
            exact .inr ⟨r, hr, rfl, .literal hkind hop hmarked⟩
      case h_2 => exact .of_eq rfl rfl rfl
    exact hfirst.bind (f := fun d => .ok (d.operands r.line ops).2) fun d' _ => ih d' hops

theorem instruction_accounts (d : Draft) (hr : r ∈ rs) (hkind : r.kind = .instruction) :
    d.Accounts rs (d.instruction r) := by
  cases hd : d.instruction r with
  | ok d' =>
    obtain ⟨form, opcode, _, _, rfl⟩ := instruction_cases hd
    have hops := d.operands_accounts hr hkind (List.Subset.refl _)
    cases form.needsLabels with
    | true =>
      apply hops.bind (f := fun e => .ok (.emit (.relocate e ..) _))
      intro d₁ _
      refine .ok rfl ?_ fun _ => .inl
      intro rel hrel
      rcases List.mem_append.mp hrel with hrel | hrel
      · exact .inl hrel
      · cases List.mem_singleton.mp hrel
        exact .inr ⟨r, hr, .code hkind⟩
    | false => exact hops.bind (f := fun e => .ok (e.emit _)) fun d₁ _ => .of_eq rfl rfl rfl
  | error e =>
    simp only [instruction, bind_error_iff, mapError_error_iff] at hd
    rcases hd with ⟨_, _, rfl⟩ | ⟨form, _, ⟨_, _, rfl⟩ | ⟨opcode, _, hd⟩⟩
    · exact .other rfl
    · exact .other rfl
    · cases hd

theorem body_accounts (d : Draft) (hr : r ∈ rs) : d.Accounts rs (d.body r) := by
  unfold body
  split
  case h_1 width hkind => exact d.data_accounts hr hkind
  case h_2 filled hkind => exact d.space_accounts hr hkind
  case h_3 => exact d.alignTo_accounts r
  case h_4 hkind => exact d.instruction_accounts hr hkind

theorem label_accounts (d : Draft) (name : String) (line : Nat) :
    d.Accounts rs (d.label name line) := by
  cases hlabel : d.label name line with
  | ok d' =>
    obtain ⟨o, ho, hd'⟩ := bind_ok_iff.mp hlabel
    cases hd'
    obtain ⟨_, rfl⟩ := define_eq_ok.mp ho
    exact .of_eq rfl rfl rfl
  | error e =>
    rcases bind_error_iff.mp hlabel with h | ⟨o, _, h⟩
    · rw [(define_error h).1]
      exact .other rfl
    · cases h

theorem place_accounts (d : Draft) (r : Record) : d.Accounts rs (d.place r) := by
  have halign : d.Accounts rs (.ok (d.align r.kind.alignment)) := .of_eq rfl rfl rfl
  unfold place
  split
  case h_1 name _ =>
    exact halign.bind (f := (label · name r.line)) fun d' _ => d'.label_accounts _ _
  case h_2 => exact halign

theorem record_accounts (d : Draft) (hr : r ∈ rs) : d.Accounts rs (d.record r) := by
  rw [record_eq]
  apply (d.place_accounts r).bind
  intro d' _
  have hmark : d'.Accounts rs (.ok (d'.mark r.line)) := .of_eq rfl rfl rfl
  exact hmark.bind fun d' _ => d'.body_accounts hr

theorem poolLiteral_accounts (d : Draft) {l : Literal} (hr : r ∈ rs) (hline : r.line = l.line)
    (hwants : r.Wants .word l.value "DCD") : d.Accounts rs (d.poolLiteral l) := by
  unfold poolLiteral
  rw [← hline]
  exact (d.label_accounts l.label r.line).bind fun d' _ => d'.datum_accounts hr hwants

theorem flushPool_accounts (d : Draft) (kind : SectionKind)
    (hpool : ∀ l ∈ d.pool, ∃ r ∈ rs, r.line = l.line ∧ r.Wants .word l.value "DCD") :
    d.Accounts rs (d.flushPool kind) := by
  by_cases hempty : d.pool = []
  · rw [flushPool, hempty]
    exact .of_eq rfl rfl rfl
  · rw [flushPool_eq d kind hempty]
    have hbase : d.Accounts rs (.ok (d.poolBase kind)) := by
      unfold poolBase
      split
      · exact .of_eq rfl rfl rfl
      · exact .of_eq rfl rfl rfl
    apply hbase.bind (f := fun d' => d.pool.foldlM poolLiteral d')
    intro d' _
    apply Accounts.foldlM
    intro l hl e
    obtain ⟨r, hr, hline, hwants⟩ := hpool l hl
    exact e.poolLiteral_accounts hr hline hwants

theorem area_accounts (d : Draft) (a : Area) (hpool : d.pool = []) :
    d.Accounts a.records (d.area a) := by
  have hrecords : d.Accounts a.records (a.records.foldlM record d) :=
    .foldlM fun r hr d => d.record_accounts hr
  unfold area
  apply hrecords.bind
  intro d₁ hd₁
  have hliterals : ∀ l ∈ d₁.pool,
      ∃ r ∈ a.records, r.line = l.line ∧ r.Wants .word l.value "DCD" := by
    rw [hd₁] at hrecords
    cases hrecords with
    | ok _ _ pool =>
      intro l hl
      rcases pool l hl with hl | hwants
      · rw [hpool] at hl
        cases hl
      · exact hwants
  apply (d₁.flushPool_accounts a.kind hliterals).bind
  intro d₂ _
  exact .ok rfl (fun _ => .inl) fun _ h => nomatch h

theorem areas_accounts {areas : List Area} (d : Draft) (hpool : d.pool = [])
    (hareas : ∀ a ∈ areas, a.records ⊆ rs) : d.Accounts rs (areas.foldlM area d) := by
  induction areas generalizing d with
  | nil => exact .of_eq rfl rfl rfl
  | cons a areas ih =>
    obtain ⟨ha, hrest⟩ := List.forall_mem_cons.mp hareas
    rw [List.foldlM_cons]
    apply ((d.area_accounts a hpool).mono ha).bind
    intro d' hd'
    -- An area leaves no literals to the next one.
    obtain ⟨_, d₂, _, _, rfl⟩ := area_cases hd'
    exact ih _ rfl hrest

end Steps

end Object.Draft

/-- A value that a record of a program wants and that does not fit, with the line, the mnemonic and
the operand that it is reported with. -/
inductive Program.Misfit (p : Program) : Nat → String → String → Prop
  | number {a : Area} {r : Record} {width : Width} {operand mnemonic : String} {v : Int}
      (area : a ∈ p.areas) (record : r ∈ a.records) (wants : r.Wants width operand mnemonic)
      (value : p.number? operand = some v) (unfit : ¬width.Fits v) :
      p.Misfit r.line mnemonic operand
  | label {o : Object} {a : Area} {r : Record} {width : Width} {operand mnemonic : String} {v : Int}
      (object : Object.ofProgram p = .ok o) (area : a ∈ p.areas) (record : r ∈ a.records)
      (wants : r.Wants width operand mnemonic) (value : p.number? operand = none)
      (denotes : p.Denotes o operand v) (unfit : ¬width.Fits v) :
      p.Misfit r.line "DC" (Text.trimmed operand)

namespace Object

theorem Draft.constants_error {cs : List Constant} {d : Draft} {e : AssemblyError}
    (h : cs.foldlM constant d = .error e) : e.isPlain = true := by
  obtain ⟨i, c, d', _, _, h⟩ := foldlM_error h
  rcases bind_error_iff.mp h with h | ⟨o, _, h⟩
  · rw [(define_error h).1]
    rfl
  · cases h

theorem Draft.constants_start {cs : List Constant} {d d' : Draft}
    (h : cs.foldlM constant d = .ok d') :
    d'.pool = d.pool ∧ d'.object.relocations = d.object.relocations := by
  refine foldlM_rel (R := fun d d' : Draft =>
    d'.pool = d.pool ∧ d'.object.relocations = d.object.relocations) (fun _ => ⟨rfl, rfl⟩)
    (fun h h' => ⟨h'.1.trans h.1, h'.2.trans h.2⟩) ?_ h
  intro c _ d d' hc
  obtain ⟨o, ho, hc⟩ := bind_ok_iff.mp hc
  cases hc
  obtain ⟨_, rfl⟩ := define_eq_ok.mp ho
  exact ⟨rfl, rfl⟩

variable {p : Program} {o : Object} {line : Nat} {mnemonic operand : String} {e : ValueError}

theorem Draft.program_accounts {c : Draft} (hc : p.constants.foldlM constant {} = .ok c) :
    c.Accounts (p.areas.flatMap (·.records)) (p.areas.foldlM area c) := by
  apply c.areas_accounts (constants_start hc).1
  intro a ha r hr
  exact List.mem_flatMap.mpr ⟨a, ha, hr⟩

theorem misfit_of_ofProgram (h : ofProgram p = .error (.value line mnemonic operand e)) :
    p.Misfit line mnemonic operand := by
  rcases bind_error_iff.mp h with h | ⟨c, hc, h⟩
  · cases Draft.constants_error h
  rcases bind_error_iff.mp h with h | ⟨d, _, h⟩
  swap
  · cases h
  have haccounts := Draft.program_accounts hc
  rw [h] at haccounts
  cases haccounts with
  | misfit record wants value unfit =>
    obtain ⟨a, ha, hr⟩ := List.mem_flatMap.mp record
    rw [Program.value?_constants hc] at value
    exact .number ha hr wants value unfit
  | other hother => cases hother

theorem leaves_of_ofProgram (ho : ofProgram p = .ok o) {rel : Relocation}
    (hrel : rel ∈ o.relocations) :
    ∃ c, p.constants.foldlM Draft.constant {} = .ok c ∧
      ∃ a ∈ p.areas, ∃ r ∈ a.records, r.Leaves c.constants rel := by
  obtain ⟨c, hc, ho⟩ := bind_ok_iff.mp ho
  obtain ⟨d, hd, ho⟩ := bind_ok_iff.mp ho
  cases ho
  have haccounts := Draft.program_accounts hc
  rw [hd] at haccounts
  cases haccounts with
  | ok _ relocations =>
    rcases relocations rel hrel with hold | ⟨r, hr, hleaves⟩
    · rw [(Draft.constants_start hc).2] at hold
      cases hold
    · obtain ⟨a, ha, hr⟩ := List.mem_flatMap.mp hr
      exact ⟨c, hc, a, ha, r, hr, hleaves⟩

/-- A value is refused while linking only if it is that of a symbol. -/
theorem resolve_value {targets : Table String Word} {site : Word} {rel : Relocation}
    (h : resolve o.values targets site rel = .error (.value line mnemonic operand e)) :
    rel.line = line ∧ mnemonic = "DC" ∧ rel.target = .symbol operand ∧
      ∃ symbol, o.symbols.get? operand = some symbol ∧
        ¬(datumWidth rel.length).Fits (o.valueOf symbol) := by
  unfold resolve at h
  split at h
  case h_1 record _ _ =>
    unfold resolveRecord at h
    split at h <;> cases h
  case h_2 => cases h
  case h_3 name htarget =>
    split at h
    case h_1 => cases h
    case h_2 value hvalue =>
      rw [values, Table.get?_filterMap, Option.bind_eq_some_iff] at hvalue
      obtain ⟨symbol, hsymbol, hvalue⟩ := hvalue
      cases hvalue
      rcases Draft.number_cases (datumWidth rel.length) (o.valueOf symbol) "DC" name rel.line with
        ⟨_, hn⟩ | ⟨cause, hn, hunfit⟩
      · cases h.symm.trans hn
      · cases h.symm.trans hn
        exact ⟨rfl, rfl, htarget, symbol, hsymbol, hunfit⟩

def linkBefore (o : Object) (n : Nat) : Except AssemblyError (List Byte) := do
  let code ← o.placeCode
  let l ← o.placeData code
  let values ← o.symbolValues l
  (o.relocations.take n).foldlM (relocate l values (o.labelTargets values)) l.content

/-- Linking fails with the sections, or as its relocations do. -/
theorem link_stages {areas : List Area} (hform : o.WellFormed areas) :
    (∃ name, o.link = .error (.sectionOverflow name) ∧
      ∀ n, o.linkBefore n = .error (.sectionOverflow name)) ∨
    ∃ l f, o.Laid l ∧
      o.link =
        (o.relocations.foldlM (relocate l o.values (o.labelTargets o.values)) l.content).map f ∧
      ∀ n, o.linkBefore n = (o.relocations.take n).foldlM
        (relocate l o.values (o.labelTargets o.values)) l.content := by
  unfold link linkBefore
  cases hcode : o.placeCode with
  | error e =>
    rcases placeCode_cases hform with ⟨_, hcode', _⟩ | ⟨name, hcode', _⟩
    · cases hcode.symm.trans hcode'
    · cases hcode.symm.trans hcode'
      exact .inl ⟨name, rfl, fun _ => rfl⟩
  | ok code =>
    rcases (placeData_cases hform hcode).2 with ⟨l, hdata, hl⟩ | ⟨name, hdata, _⟩
    · refine .inr ⟨l, fun content => {
        segments := segments code.content.length l.content.length
        content
        lines := o.lines
        symbols := o.values.filterKeys isProgramSymbol }, hl, ?_, ?_⟩
      · simp only [bind, Except.bind, hdata, hl.symbolValues hform, hl.lineTable hform]
        rfl
      · intro n
        simp only [bind, Except.bind, hdata, hl.symbolValues hform]
    · simp only [bind, Except.bind, hdata]
      exact .inl ⟨name, rfl, fun _ => rfl⟩

theorem relocate_eq {l : Layout} (hl : o.Laid l) {rel : Relocation} {s : Section}
    (hs : o.sections[rel.index]? = some s) (content : List Byte) :
    relocate l o.values (o.labelTargets o.values) content rel =
      resolve o.values (o.labelTargets o.values)
        (BitVec.ofNat 32 (o.addressOf rel.index) + BitVec.ofNat 32 rel.offset) rel >>=
        patch content (o.fileOffset rel.index + rel.offset) := by
  unfold relocate
  rw [(hl.place rel.index s hs).1]
  rfl

theorem link_unresolved {areas : List Area} (hform : o.WellFormed areas) {e : AssemblyError}
    (h : o.link = .error e) (he : e.isUnresolved = true) :
    ∃ rel ∈ o.relocations, ∃ site,
      resolve o.values (o.labelTargets o.values) site rel = .error e := by
  rcases link_stages hform with ⟨name, hlink, _⟩ | ⟨l, f, hl, hlink, _⟩
  · cases h.symm.trans hlink
    cases he
  · have hfold := map_error_iff.mp (hlink.symm.trans h)
    obtain ⟨i, rel, content, hrel, _, hstep⟩ := foldlM_error hfold
    have hmem := List.mem_of_getElem? hrel
    obtain ⟨_, s, hs, _⟩ := hform.relocation rel hmem
    rw [relocate_eq hl hs] at hstep
    rcases bind_error_iff.mp hstep with hresolve | ⟨new, _, hpatch⟩
    · exact ⟨rel, hmem, _, hresolve⟩
    · unfold patch at hpatch
      split at hpatch
      · cases hpatch
      · cases hpatch
        cases he

theorem misfit_of_link (ho : ofProgram p = .ok o)
    (h : o.link = .error (.value line mnemonic operand e)) : p.Misfit line mnemonic operand := by
  obtain ⟨rel, hrel, _, hresolve⟩ := link_unresolved (ofProgram_wellFormed ho) h rfl
  obtain ⟨rfl, rfl, htarget, symbol, hsymbol, hunfit⟩ := resolve_value hresolve
  obtain ⟨c, hc, a, ha, r, hr, hleaves⟩ := leaves_of_ofProgram ho hrel
  cases hleaves with
  | code => cases htarget
  | data wants value label =>
    cases htarget
    rw [datumWidth_bytes] at hunfit
    rw [Program.value?_constants hc] at value
    exact .label ho ha hr wants value (Program.denotes_of_symbol ho value label hsymbol) hunfit

section Refusal

variable {i j k : Nat} {r : Record} {width : Width} {v : Int}

def Draft.upTo (d : Draft) (r : Record) (width : Width) (k : Nat) : Except AssemblyError Draft := do
  let d ← d.place r
  (r.operands.take k).foldlM (dataOperand width r) (d.mark r.line)

def Draft.beforeOperand (p : Program) (i j : Nat) (r : Record) (width : Width) (k : Nat) :
    Except AssemblyError Draft := do
  (← before p i j).upTo r width k

theorem Draft.datum_refuses {d : Draft} (hv : d.constants.value? operand = some v)
    (he : width.dataBytes v = .error e) :
    d.datum width mnemonic operand line = .error (.value line mnemonic operand e) := by
  unfold datum
  rw [hv]
  dsimp only
  rw [number, he]
  rfl

theorem Draft.record_refuses {d : Draft} (hkind : r.kind = .data width)
    (hop : r.operands[k]? = some operand)
    (hplain : width = .byte → unquote? operand.toList = none)
    (hv : d.constants.value? operand = some v) (he : width.dataBytes v = .error e) :
    d.record r =
      d.upTo r width k >>= fun _ => .error (.value r.line r.mnemonic operand e) := by
  rw [record_eq, upTo, bind_assoc]
  cases hd₁ : d.place r with
  | error e' => rfl
  | ok d₁ =>
    have hsome : r.operands.isEmpty = false := by
      rw [List.isEmpty_eq_false_iff_exists_mem]
      exact ⟨operand, List.mem_of_getElem? hop⟩
    show (d₁.mark r.line).body r = _
    rw [body, hkind]
    dsimp only
    rw [data, hsome, if_neg Bool.false_ne_true, foldlM_fail hop]
    · rfl
    · intro d₂ hd₂
      rw [dataOperand_of_plain hplain]
      apply datum_refuses _ he
      rw [(dataOperands_extends hd₂).constants]
      show d₁.constants.value? operand = some v
      rw [constants_place hd₁, hv]

/-- A number that does not fit is refused, unless there is an error before. -/
theorem ofProgram_refuses (h : p.DatumAt i j k r width operand) (hv : p.number? operand = some v)
    (he : width.dataBytes v = .error e) :
    ofProgram p = Draft.beforeOperand p i j r width k >>= fun _ =>
      .error (.value r.line r.mnemonic operand e) := by
  obtain ⟨⟨a, ha, hr⟩, hkind, hop, hplain⟩ := h
  unfold ofProgram Draft.beforeOperand Draft.before
  cases hc : p.constants.foldlM Draft.constant {} with
  | error e' => rfl
  | ok c =>
    have hareas : p.areas.foldlM Draft.area c =
        ((p.areas.take i).foldlM Draft.area c >>= fun d =>
          (a.records.take j).foldlM Draft.record d >>= fun d => d.upTo r width k) >>= fun _ =>
            .error (.value r.line r.mnemonic operand e) := by
      apply foldlM_stop ha
      intro d hd
      have hrecords : a.records.foldlM Draft.record d =
          ((a.records.take j).foldlM Draft.record d >>= fun d => d.upTo r width k) >>= fun _ =>
            .error (.value r.line r.mnemonic operand e) := by
        apply foldlM_stop hr
        intro d' hd'
        apply Draft.record_refuses hkind hop hplain _ he
        rw [(Draft.records_extends hd').constants, Draft.constants_areas hd,
          Program.value?_constants hc, hv]
      rw [Draft.area, hrecords, bind_assoc]
      rfl
    show (p.areas.foldlM Draft.area c >>= fun d => Except.ok d.object) = _
    rw [hareas, ha, bind_assoc]
    simp only [bind_assoc]
    rfl

theorem exists_relocation (ho : ofProgram p = .ok o) (h : p.DatumAt i j k r width operand)
    (hnone : p.number? operand = none) :
    ∃ offset, ⟨.data, i, offset, width.bytes, .symbol (Text.trimmed operand), r.line⟩ ∈
      o.relocations := by
  obtain ⟨⟨a, ha, hr⟩, hkind, hop, hplain⟩ := h
  obtain ⟨c, d₀, d₁, d₂, d₃, hc, htake, hrecords, hpool, hdrop, rfl⟩ := Draft.ofProgram_split ho ha
  obtain ⟨d, d', hbefore, hrecord, hafter⟩ := foldlM_getElem? hr hrecords
  have hform := Draft.areas_wellFormed htake (Draft.constants_wellFormed hc)
  obtain ⟨e₁, _, hplace, hbody⟩ := Draft.record_cases hrecord
  rw [Draft.body, hkind] at hbody
  dsimp only at hbody
  unfold Draft.data at hbody
  split at hbody
  case isTrue => cases hbody
  case isFalse =>
    obtain ⟨e₂, e₃, htaken, hstep, hrest⟩ := foldlM_getElem? hop hbody
    have hext := ((Draft.records_extends hbefore).trans
      (hplace.trans (e₁.mark_extends r.line))).trans (Draft.dataOperands_extends htaken)
    have hext' := (Draft.dataOperands_extends hrest).trans
      ((Draft.records_extends hafter).trans (Draft.flushPool_extends hpool))
    rw [Draft.dataOperand_of_plain hplain] at hstep
    obtain ⟨_, _, own, _, _, hrelocations, _, hnamed⟩ := Draft.datum_cases hstep
    rw [hext.constants, Draft.constants_areas htake, Program.value?_constants hc] at hnamed
    obtain ⟨_, rfl⟩ := hnamed hnone
    obtain ⟨hown, _⟩ := Draft.not_covers_of_step hform hext (Draft.datum_extends hstep) hext'
      (Draft.areas_continues hdrop) hrelocations
    have hindex : e₂.index = i := hext.index_eq.trans (Draft.index_eq_of_take ha hform)
    rw [hindex] at hown
    exact ⟨_, hown _ (.head _)⟩

theorem link_refuses {areas : List Area} (hform : o.WellFormed areas) {n : Nat}
    {rel : Relocation} (hn : o.relocations[n]? = some rel) (htarget : rel.target = .symbol operand)
    {symbol : Symbol} (hsymbol : o.symbols.get? operand = some symbol)
    (he : (datumWidth rel.length).dataBytes (o.valueOf symbol) = .error e) :
    o.link = o.linkBefore n >>= fun _ => .error (.value rel.line "DC" operand e) := by
  rcases link_stages hform with ⟨name, hlink, hbefore⟩ | ⟨l, f, hl, hlink, hbefore⟩
  · rw [hlink, hbefore n]
    rfl
  · obtain ⟨_, s, hs, _⟩ := hform.relocation rel (List.mem_of_getElem? hn)
    have hresolve (targets : Table String Word) (site : Word) :
        resolve o.values targets site rel = .error (.value rel.line "DC" operand e) := by
      unfold resolve
      rw [htarget]
      have hvalue := get?_values ((Table.get?_eq_some_iff _).mp hsymbol)
      simp only [hvalue, Draft.number, he]
    rw [hlink, foldlM_fail hn, ← hbefore n]
    · cases o.linkBefore n with
      | error e' => rfl
      | ok content => rfl
    · intro content _
      rw [relocate_eq hl hs, hresolve]
      rfl

end Refusal

end Object

/-- How the outcome of a program depends on its data. -/
structure Program.ChecksData (p : Program) (outcome : Except AssemblyError Executable) : Prop where
  emitted : ∀ x, outcome = .ok x → x.content.length < 0x18000000 →
    ∃ o, Object.ofProgram p = .ok o ∧ o.link = .ok x ∧ x.DataOf p o
  /-- A number that does not fit is refused, unless an error comes before. -/
  number : ∀ i j k r width operand v, p.DatumAt i j k r width operand →
    p.number? operand = some v → ¬width.Fits v →
    ∃ e, outcome = Object.Draft.beforeOperand p i j r width k >>= fun _ =>
      .error (.value r.line r.mnemonic operand e)
  /-- So is an address, which is known only while linking. -/
  address : ∀ i j k r width operand o v, p.DatumAt i j k r width operand →
    Object.ofProgram p = .ok o → p.number? operand = none → p.Denotes o operand v →
    ¬width.Fits v →
    ∃ e n offset, o.relocations[n]? =
        some ⟨.data, i, offset, width.bytes, .symbol (Text.trimmed operand), r.line⟩ ∧
      outcome = o.linkBefore n >>= fun _ =>
        .error (.value r.line "DC" (Text.trimmed operand) e)
  /-- Nothing else is refused as a value. -/
  cause : ∀ line mnemonic operand e, outcome = .error (.value line mnemonic operand e) →
    p.Misfit line mnemonic operand

theorem Program.checksData (p : Program) : p.ChecksData (Object.ofProgram p >>= Object.link) where
  emitted := by
    intro x hx hsize
    obtain ⟨o, ho, hx⟩ := bind_ok_iff.mp hx
    exact ⟨o, ho, hx, Object.dataOf_of_link ho hx hsize⟩
  number := by
    intro i j k r width operand v hat hv hunfit
    obtain ⟨e, he⟩ := Width.dataBytes_error_iff.mpr hunfit
    refine ⟨e, ?_⟩
    rw [Object.ofProgram_refuses hat hv he, bind_assoc]
    rfl
  address := by
    intro i j k r width operand o v hat ho hnone hdenotes hunfit
    obtain ⟨e, he⟩ := Width.dataBytes_error_iff.mpr hunfit
    obtain ⟨offset, hrel⟩ := Object.exists_relocation ho hat hnone
    obtain ⟨n, hn⟩ := List.mem_iff_getElem?.mp hrel
    refine ⟨e, n, offset, hn, ?_⟩
    rcases hdenotes.eq_valueOf ho with hv | ⟨_, symbol, hsymbol, rfl⟩
    · cases hnone.symm.trans hv
    · rw [ho]
      apply Object.link_refuses (Object.ofProgram_wellFormed ho) hn rfl hsymbol
      rw [Object.datumWidth_bytes]
      exact he
  cause := by
    intro line mnemonic operand e h
    rcases bind_error_iff.mp h with ho | ⟨o, ho, hlink⟩
    · exact Object.misfit_of_ofProgram ho
    · exact Object.misfit_of_link ho hlink

/-- Data is emitted as it stands in the source, aligned, and exactly the values that fit are
accepted. -/
theorem assemble_data (source : String) :
    match Source.parse source with
    | .ok p => p.ChecksData (assemble source)
    | .error e => assemble source = .error e ∧ e.isValue = false := by
  unfold assemble
  cases hp : Source.parse source with
  | ok p => exact p.checksData
  | error e =>
    obtain ⟨_, _, rfl⟩ := Source.statements_error (map_error_iff.mp hp)
    exact ⟨rfl, rfl⟩

/-- Values at both ends of their ranges and an address, then a number and an address that do not
fit. -/
theorem assemble_data_bounds :
    let source := "n EQU -128\n AREA text, CODE\n NOP\nx DCB n, 255, \"a\\n\"\n" ++
      " DCW 65535\n DCD x, -2147483648\n"
    let large := " AREA text, CODE\n DCB 255, 256\n"
    let far := "x NOP\n DCW 1, x\n"
    (∃ (p : Program) (x : Executable) (o : Object), Source.parse source = .ok p ∧
      assemble source = .ok x ∧
      x.bytesAt 0x0800000A 14 = .ok (some [128, 255, 97, 10, 255, 255, 10, 0, 0, 8, 0, 0, 0, 128]) ∧
      x.DataOf p o) ∧
    (∃ p e, Source.parse large = .ok p ∧ assemble large = .error (.value 1 "DCB" "256" e) ∧
      p.Misfit 1 "DCB" "256") ∧
    ∃ p e, Source.parse far = .ok p ∧ assemble far = .error (.value 1 "DC" "x" e) ∧
      p.Misfit 1 "DC" "x" := by
  intro source large far
  have hsource := assemble_data source
  have hlarge := assemble_data large
  have hfar := assemble_data far
  refine ⟨?_, ?_, ?_⟩
  · have hx : (assemble source).toOption.map
        (fun x => (x.content.length, x.bytesAt 0x0800000A 14)) =
        some (28, .ok (some [128, 255, 97, 10, 255, 255, 10, 0, 0, 8, 0, 0, 0, 128])) := by
      decide +kernel
    cases hassemble : assemble source with
    | error e =>
      rw [hassemble] at hx
      cases hx
    | ok x =>
      rw [hassemble] at hx
      obtain ⟨hlength, hbytes⟩ := Prod.mk.inj (Option.some.inj hx)
      cases hp : Source.parse source with
      | error e =>
        rw [hp] at hsource
        cases hassemble.symm.trans hsource.1
      | ok p =>
        rw [hp] at hsource
        obtain ⟨o, _, _, hdata⟩ := hsource.emitted x hassemble (by omega)
        exact ⟨p, x, o, rfl, rfl, hbytes, hdata⟩
  · have hassemble : assemble large =
        .error (.value 1 "DCB" "256" (.outOfRange (.ofInt 256) 8 .signed)) := by
      decide +kernel
    cases hp : Source.parse large with
    | error e =>
      rw [hp] at hlarge
      cases hassemble.symm.trans hlarge.1
      cases hlarge.2
    | ok p =>
      rw [hp] at hlarge
      exact ⟨p, _, rfl, hassemble, hlarge.cause _ _ _ _ hassemble⟩
  · have hassemble : assemble far =
        .error (.value 1 "DC" "x" (.outOfRange (.ofInt 0x08000008) 16 .signed)) := by
      decide +kernel
    cases hp : Source.parse far with
    | error e =>
      rw [hp] at hfar
      cases hassemble.symm.trans hfar.1
      cases hfar.2
    | ok p =>
      rw [hp] at hfar
      exact ⟨p, _, rfl, hassemble, hfar.cause _ _ _ _ hassemble⟩

end Thumb
