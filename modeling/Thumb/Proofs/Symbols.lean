import Thumb.Proofs.Linking
import Thumb.Proofs.Naming

namespace Thumb

namespace Source

def Statement.names : Statement → List String
  | .blank => []
  | .label name => [name]
  | .record name _ _ => name.toList
  | .constant name _ => [name]
  | .area a => a.records.filterMap (·.label)
  | .finish name => name.toList

/-- What a source may name: a label that is not of the kind of the labels of literals. -/
def IsName (name : String) : Prop :=
  Operand.isLabel name = true ∧ Object.isProgramSymbol name = true

theorem isName_of_checkLabel {label : Option (List Char)} {result : Option String}
    (h : checkLabel label = .ok result) : ∀ name ∈ result.toList, IsName name := by
  unfold checkLabel at h
  split at h
  · cases h
    exact nofun
  case h_2 cs =>
    dsimp only at h
    split at h
    case isTrue hcheck =>
      cases h
      intro name hname
      cases List.mem_singleton.mp hname
      rw [IsName, Object.isProgramSymbol, String.toList_ofList]
      exact Bool.and_eq_true_iff.mp hcheck
    case isFalse => cases h

theorem names_elim (label : Option String) :
    (label.elim .blank .label : Statement).names = label.toList := by
  cases label with
  | none => rfl
  | some name => rfl

theorem names_parseConstant {label : Option String} {operands : List String} {s : Statement}
    (h : parseConstant label operands = .ok s) : s.names = label.toList := by
  unfold parseConstant at h
  split at h
  · cases h
  · split at h
    · cases h
      rfl
    · cases h
  · cases h

theorem records_parseArea {operands : List String} {a : Area} (h : parseArea operands = .ok a) :
    a.records = [] := by
  unfold parseArea at h
  split at h
  · dsimp only at h
    split at h
    · cases h
      rfl
    · cases h
      rfl
    · cases h
  · cases h

theorem names_parseBody {label : Option String} {text : List Char} {s : Statement}
    (h : parseBody label text = .ok s) : s.names = label.toList := by
  unfold parseBody at h
  dsimp only at h
  split at h
  · cases h
  split at h
  · cases h
  case h_2 operands _ =>
    split at h
    · cases h
      rfl
    split at h
    · split at h
      · cases h
      case isFalse hlabel =>
        obtain ⟨a, ha, h⟩ := bind_ok_iff.mp h
        cases h
        rw [Statement.names, records_parseArea ha]
        cases label with
        | none => rfl
        | some name => cases hlabel rfl
    split at h
    · exact names_parseConstant h
    split at h
    · cases h
      exact names_elim label
    · cases h
      rfl

theorem parseStatement_names {raw : List Char} {s : Statement} (h : parseStatement raw = .ok s) :
    ∀ name ∈ s.names, IsName name := by
  unfold parseStatement at h
  dsimp only at h
  split at h
  · cases h
    exact nofun
  obtain ⟨⟨label, rest⟩, _, h⟩ := bind_ok_iff.mp h
  obtain ⟨checked, hchecked, h⟩ := bind_ok_iff.mp h
  have hnames : s.names = checked.toList := by
    split at h
    · cases h
      exact names_elim checked
    · exact names_parseBody h
  rw [hnames]
  exact isName_of_checkLabel hchecked

theorem statements_names {line : Nat} {lines : List (List Char)} {ss : List (Nat × Statement)}
    (h : statements line lines = .ok ss) : ∀ s ∈ ss, ∀ name ∈ s.2.names, IsName name := by
  induction lines generalizing line ss with
  | nil =>
    cases h
    exact nofun
  | cons raw rest ih =>
    unfold statements at h
    split at h
    · cases h
    case h_2 label hraw =>
      cases h
      intro s hs
      cases List.mem_singleton.mp hs
      exact parseStatement_names hraw
    case h_3 s _ hraw =>
      obtain ⟨more, hmore, rfl⟩ := map_ok_iff.mp h
      intro s' hs'
      rcases List.mem_cons.mp hs' with rfl | hs'
      · exact parseStatement_names hraw
      · exact ih hmore s' hs'

/-- A source is refused only because of a line that cannot be read. -/
theorem statements_error {n : Nat} {lines : List (List Char)} {e : AssemblyError}
    (h : statements n lines = .error e) : ∃ line cause, e = .statement line cause := by
  induction lines generalizing n with
  | nil => cases h
  | cons raw rest ih =>
    unfold statements at h
    split at h
    · cases h
      exact ⟨_, _, rfl⟩
    · cases h
    · exact ih (map_error_iff.mp h)

namespace Draft

def names (d : Draft) : List String :=
  d.program.names ++ (d.pending.map (·.1)).toList

variable {d : Draft} {name : String}

theorem mem_names_pushRecord (d : Draft) (r : Record) {name : String} :
    name ∈ (d.pushRecord r).program.names ↔ name ∈ d.program.names ∨ r.label = some name := by
  obtain ⟨⟨areas, constants⟩, pending⟩ := d
  simp only [pushRecord, Program.names]
  rcases List.eq_nil_or_concat areas with rfl | ⟨earlier, area, rfl⟩
  · simp [defaultArea]
  · simp [or_assoc]

theorem mem_names_flush (d : Draft) {name : String} :
    name ∈ d.flush.program.names ↔ name ∈ d.names := by
  unfold flush names
  cases hpending : d.pending with
  | none => simp
  | some entry =>
    rw [mem_names_pushRecord]
    simp [eq_comm]

theorem pending_flush (d : Draft) : d.flush.pending = none := by
  unfold flush
  cases hpending : d.pending with
  | none => exact hpending
  | some entry => rfl

theorem mem_names_await (d : Draft) (label : String) (line : Nat) {name : String} :
    name ∈ (d.await label line).names ↔ name ∈ d.names ∨ name = label := by
  rw [← mem_names_flush d]
  simp [await, names]

theorem mem_names_addRecord (d : Draft) (label : Option String) (mnemonic : String)
    (operands : List String) (line : Nat) {name : String} :
    name ∈ (d.addRecord label mnemonic operands line).names ↔
      name ∈ d.names ∨ label = some name := by
  have hpending (d : Draft) (r : Record) : (d.pushRecord r).pending = d.pending := rfl
  unfold addRecord
  split
  · rw [names, hpending, pending_flush, Option.map_none, Option.toList_none, List.append_nil,
      mem_names_pushRecord, mem_names_flush]
  · rw [names, hpending, Option.map_none, Option.toList_none, List.append_nil,
      mem_names_pushRecord, names]
    simp

theorem mem_names_add (d : Draft) (line : Nat) (s : Statement) {name : String} :
    name ∈ (d.add line s).names ↔ name ∈ d.names ∨ name ∈ s.names := by
  cases s with
  | blank => simp [add, Statement.names]
  | label label => simp [add, Statement.names, mem_names_await]
  | record label mnemonic operands => simp [add, Statement.names, mem_names_addRecord]
  | constant constant value =>
    simp only [add, Statement.names, names, Program.names, List.map_append, List.map_cons,
      List.map_nil, List.mem_append, List.mem_singleton]
    tauto
  | area area =>
    have hflush : name ∈ d.flush.program.names ↔ name ∈ d.names := d.mem_names_flush
    simp only [Program.names, List.mem_append] at hflush
    simp only [add, Statement.names, names, pending_flush, Program.names, List.flatMap_append,
      List.mem_append, List.flatMap_singleton, Option.map_none, Option.toList_none,
      List.not_mem_nil, or_false, ← or_assoc, hflush]
  | finish label =>
    cases label with
    | none => simp [add, Statement.names]
    | some label => simp [add, Statement.names, mem_names_await]

end Draft

theorem mem_names_build (ss : List (Nat × Statement)) {name : String} :
    name ∈ (build ss).names ↔ ∃ s ∈ ss, name ∈ s.2.names := by
  have hfold {add : Draft → Nat × Statement → Draft} (hadd : ∀ d s, add d s = d.add s.1 s.2)
      (d : Draft) : name ∈ (ss.foldl add d).names ↔
        name ∈ d.names ∨ ∃ s ∈ ss, name ∈ s.2.names := by
    induction ss generalizing d with
    | nil => simp
    | cons s ss ih =>
      rw [List.foldl_cons, ih, hadd, Draft.mem_names_add]
      simp [or_assoc]
  rw [build, Draft.mem_names_flush, hfold fun _ _ => rfl]
  simp [Draft.names, Program.names]

theorem isName_of_parse {source : String} {p : Program} (h : parse source = .ok p) :
    ∀ name ∈ p.names, IsName name := by
  obtain ⟨ss, hss, rfl⟩ := map_ok_iff.mp h
  intro name hname
  obtain ⟨s, hs, hname⟩ := (mem_names_build ss).mp hname
  exact statements_names hss s hs name hname

theorem parse_names {source : String} {p : Program} (h : parse source = .ok p) :
    ∀ name ∈ p.names, Object.isProgramSymbol name = true :=
  fun name hname => (isName_of_parse h name hname).2

end Source

namespace Object

variable {p : Program} {o : Object}

theorem constants_symbol {cs : List Constant} {d d' : Draft}
    (h : cs.foldlM Draft.constant d = .ok d') :
    ∀ c ∈ cs, d'.object.symbols.get? c.name = some (.constant c.value) := by
  induction cs generalizing d with
  | nil => exact nofun
  | cons c cs ih =>
    obtain ⟨d₁, hc, h⟩ := bind_ok_iff.mp h
    obtain ⟨o, ho, hc⟩ := bind_ok_iff.mp hc
    cases hc
    intro c' hc'
    rcases List.mem_cons.mp hc' with rfl | hc'
    · exact (Draft.constants_defines h).1.kept (define_kept ho).1
    · exact ih h c' hc'

theorem ofProgram_constant (h : ofProgram p = .ok o) :
    ∀ c ∈ p.constants, o.symbols.get? c.name = some (.constant c.value) := by
  intro c hc
  obtain ⟨d, hconstants, h⟩ := bind_ok_iff.mp h
  obtain ⟨d', hareas, h⟩ := bind_ok_iff.mp h
  cases h
  obtain ⟨_, hpool, _⟩ := Draft.constants_defines hconstants
  obtain ⟨_, hdefines, _⟩ := Draft.areas_defines hareas hpool
  exact hdefines.kept (constants_symbol hconstants c hc)

theorem ofProgram_label (h : ofProgram p = .ok o) {i j : Nat} {a : Area} {r : Record}
    {name : String} (ha : p.areas[i]? = some a) (hr : a.records[j]? = some r)
    (hname : r.label = some name) :
    ∃ d, Draft.before p i j = .ok d ∧
      o.marks[p.recordNumber i j]? =
        some ⟨i, (d.align r.kind.alignment).bytes.length, r.line⟩ ∧
      o.symbols.get? name =
        some (.address (some i) (d.align r.kind.alignment).bytes.length) := by
  obtain ⟨d, hd, hmark⟩ := ofProgram_mark h ha hr
  refine ⟨d, hd, hmark, ?_⟩
  obtain ⟨c, d₀, e, d₁, d₂, hconstants, htake, hrecords, hpool, hdrop, rfl⟩ :=
    Draft.ofProgram_split h ha
  obtain ⟨d', d'', hbefore, hrecord, hafter⟩ := foldlM_getElem? hr hrecords
  cases hd.symm.trans (Draft.before_eq ha hconstants htake hbefore)
  have hform := Draft.areas_wellFormed htake (Draft.constants_wellFormed hconstants)
  have hindex := (Draft.records_extends hbefore).index_eq.trans (Draft.index_eq_of_take ha hform)
  have hsymbol := Draft.record_symbol hrecord hname
  rw [hindex] at hsymbol
  -- Nothing that comes later changes a symbol.
  obtain ⟨_, hempty⟩ := Draft.defines_before hconstants htake
  have hnumbered := Draft.records_numbered hrecords (Draft.numbered_of_pool hempty)
  obtain ⟨_, hrest, _⟩ := Draft.areas_defines hdrop rfl
  apply hrest.kept
  apply (Draft.flushPool_defines hpool hnumbered).kept
  exact (Draft.records_defines hafter).kept hsymbol

end Object

/-- The symbols that the executable of a program has to have. -/
structure Executable.SymbolsOf (x : Executable) (p : Program) (o : Object) : Prop where
  /-- There is one symbol for each name of the source and no other. -/
  names : x.symbols.keys.Perm p.names
  constant : ∀ c ∈ p.constants, x.symbol c.name = some c.value
  /-- A label is the address of its record, which begins at the first multiple of its alignment
  after what comes before it in its section. -/
  label : ∀ i j a r name, p.areas[i]? = some a → a.records[j]? = some r → r.label = some name →
    ∃ d mark, Object.Draft.before p i j = .ok d ∧
      o.marks[p.recordNumber i j]? = some mark ∧ mark.index = i ∧ mark.line = r.line ∧
      d.bytes.length ≤ mark.offset ∧ mark.offset < d.bytes.length + r.kind.alignment ∧
      r.kind.alignment ∣ mark.offset ∧
      x.symbol name = some (o.addressOf i + mark.offset : Nat) ∧
      o.addressOf i + mark.offset < 0x100000000

namespace Object

theorem symbol_of_link {o : Object} {areas : List Area} {x : Executable}
    (hform : o.WellFormed areas) (hx : o.link = .ok x) (name : String) :
    x.symbol name = if isProgramSymbol name then (o.symbols.get? name).map o.valueOf else none := by
  obtain ⟨bytes, _, rfl⟩ := link_eq_ok hform hx
  rw [Executable.symbol, Table.get?_filterKeys, values, Table.get?_filterMap, Option.map_eq_bind]
  rfl

/-- A record begins at the first multiple of its alignment. -/
theorem align_bounds (d : Draft) {alignment : Nat} (hpos : 0 < alignment) :
    d.bytes.length ≤ (d.align alignment).bytes.length ∧
      (d.align alignment).bytes.length < d.bytes.length + alignment ∧
      alignment ∣ (d.align alignment).bytes.length := by
  have hlength : (d.align alignment).bytes.length =
      d.bytes.length + padding alignment d.bytes.length := by
    rw [Draft.align, Draft.emit, List.length_append, List.length_replicate]
  rw [hlength]
  exact ⟨Nat.le_add_right _ _, Nat.add_lt_add_left (Nat.mod_lt _ hpos) _,
    dvd_add_padding hpos _⟩

theorem mark_address_lt {o : Object} {areas : List Area} {x : Executable}
    (hform : o.WellFormed areas) (hx : o.link = .ok x) (hsize : x.content.length < 0x18000000)
    {m : Mark} (hm : m ∈ o.marks) : o.addressOf m.index + m.offset < 0x100000000 := by
  obtain ⟨s, hs, hle⟩ := hform.mark m hm
  obtain ⟨bytes, hrelocated, rfl⟩ := link_eq_ok hform hx
  have hend := fileOffset_add_le hs
  have haddress := addressOf_le hs
  rw [length_image hrelocated.sized] at hsize
  omega

theorem keys_of_link {p : Program} {o : Object} {x : Executable}
    (hnames : ∀ name ∈ p.names, isProgramSymbol name = true) (ho : ofProgram p = .ok o)
    (hx : o.link = .ok x) : x.symbols.keys.Perm p.names := by
  obtain ⟨count, hdefines⟩ := ofProgram_defines ho
  rw [List.perm_ext_iff_of_nodup x.symbols.nodup_keys hdefines.nodup]
  intro name
  have hcontains : x.symbols.contains name = (x.symbol name).isSome := rfl
  rw [Table.mem_keys_iff, hcontains, symbol_of_link (ofProgram_wellFormed ho) hx]
  by_cases hname : isProgramSymbol name = true
  · rw [if_pos hname, Option.isSome_map, ← Table.contains, hdefines.contains_iff]
    constructor
    · rintro (hmem | hmem | hmem)
      · exact hmem
      · obtain ⟨n, _, rfl⟩ := List.mem_map.mp hmem
        rw [isProgramSymbol_literalLabel] at hname
        cases hname
      · cases not_contains_empty name hmem
    · exact .inl
  · rw [if_neg hname]
    constructor
    · intro hsome
      cases hsome
    · intro hmem
      exact (hname (hnames name hmem)).elim

end Object

theorem RecordKind.alignment_pos (kind : RecordKind) : 0 < kind.alignment := by
  cases kind with
  | data width => cases width <;> decide
  | space filled => exact Nat.one_pos
  | align => exact Nat.one_pos
  | instruction => exact Nat.two_pos

theorem Program.mem_names_of_label {p : Program} {i j : Nat} {a : Area} {r : Record} {name : String}
    (ha : p.areas[i]? = some a) (hr : a.records[j]? = some r) (hname : r.label = some name) :
    name ∈ p.names := by
  refine List.mem_append_right _ (List.mem_flatMap.mpr ⟨a, List.mem_of_getElem? ha, ?_⟩)
  exact List.mem_filterMap.mpr ⟨r, List.mem_of_getElem? hr, hname⟩

theorem Object.symbolsOf_of_link {p : Program} {o : Object} {x : Executable}
    (hnames : ∀ name ∈ p.names, isProgramSymbol name = true) (ho : ofProgram p = .ok o)
    (hx : o.link = .ok x) (hsize : x.content.length < 0x18000000) :
    x.SymbolsOf p o := by
  have hform := ofProgram_wellFormed ho
  have hsymbol := symbol_of_link hform hx
  constructor
  case names => exact keys_of_link hnames ho hx
  case constant =>
    intro c hc
    rw [hsymbol, ofProgram_constant ho c hc, hnames]
    · rfl
    · exact List.mem_append_left _ (List.mem_map_of_mem hc)
  case label =>
    intro i j a r name ha hr hname
    obtain ⟨d, hd, hmark, haddress⟩ := ofProgram_label ho ha hr hname
    have hmem := Program.mem_names_of_label ha hr hname
    obtain ⟨hle, hlt, hdvd⟩ := align_bounds d r.kind.alignment_pos
    have hvalue : x.symbol name =
        some (o.addressOf i + (d.align r.kind.alignment).bytes.length : Nat) := by
      rw [hsymbol, haddress, hnames name hmem]
      rfl
    exact ⟨d, _, hd, hmark, rfl, rfl, hle, hlt, hdvd, hvalue,
      mark_address_lt hform hx hsize (List.mem_of_getElem? hmark)⟩

/-- The symbols of an executable are the names of its source with their values, and no name is
defined twice; one that is refused as a duplicate occurs twice. -/
theorem assemble_symbols (source : String) (p : Program) (hp : Source.parse source = .ok p) :
    (∀ x, assemble source = .ok x → x.content.length < 0x18000000 →
      p.names.Nodup ∧ ∃ o, Object.ofProgram p = .ok o ∧ o.link = .ok x ∧ x.SymbolsOf p o) ∧
    ∀ line name, assemble source = .error (.duplicateSymbol line name) →
      2 ≤ p.names.count name := by
  have hnames := Source.parse_names hp
  have hassemble : assemble source = Object.ofProgram p >>= Object.link := by
    rw [assemble, hp]
    rfl
  rw [hassemble]
  constructor
  · intro x hx hsize
    obtain ⟨o, ho, hx⟩ := bind_ok_iff.mp hx
    obtain ⟨count, hdefines⟩ := Object.ofProgram_defines ho
    exact ⟨hdefines.nodup, o, ho, hx, Object.symbolsOf_of_link hnames ho hx hsize⟩
  · intro line name he
    rcases bind_error_iff.mp he with he | ⟨o, ho, he⟩
    · exact Object.ofProgram_duplicate hnames he
    · rcases Object.link_eq_error (Object.ofProgram_wellFormed ho) he with he | ⟨_, he, _⟩
      · cases he
      · cases he

/-- A constant, labels in code and in data, and a literal; and a label with the name of a
constant. -/
theorem assemble_symbols_kinds :
    let source := " AREA text, CODE\nn EQU 5\nx DCB 1\ny LDR R1, =x\n" ++
      " AREA vars, DATA\n DCB n\nz DCD x\n"
    let twice := "n EQU 5\nn NOP\n"
    (∃ (p : Program) (x : Executable) (o : Object), Source.parse source = .ok p ∧
      assemble source = .ok x ∧ p.names = ["n", "x", "y", "z"] ∧ x.symbols.entries =
        [("n", 5), ("x", 0x08000008), ("y", 0x0800000A), ("z", 0x20000004)] ∧ x.SymbolsOf p o) ∧
    assemble twice = .error (.duplicateSymbol 1 "n") ∧
    ∃ p : Program, Source.parse twice = .ok p ∧ 2 ≤ p.names.count "n" := by
  intro source twice
  have hp : (Source.parse source).toOption.map Program.names = some ["n", "x", "y", "z"] := by
    decide +kernel
  have hx : (assemble source).toOption.map (fun x => (x.content.length, x.symbols.entries)) =
      some (32, [("n", 5), ("x", 0x08000008), ("y", 0x0800000A), ("z", 0x20000004)]) := by
    decide +kernel
  have htwice : assemble twice = .error (.duplicateSymbol 1 "n") := by decide +kernel
  constructor
  · cases hparse : Source.parse source with
    | error e =>
      rw [hparse] at hp
      cases hp
    | ok p =>
      cases hassemble : assemble source with
      | error e =>
        rw [hassemble] at hx
        cases hx
      | ok x =>
        rw [hparse] at hp
        rw [hassemble] at hx
        obtain ⟨hlength, hentries⟩ := Prod.mk.inj (Option.some.inj hx)
        obtain ⟨_, o, _, _, hsymbols⟩ :=
          (assemble_symbols source p hparse).1 x hassemble (by omega)
        exact ⟨p, x, o, rfl, rfl, Option.some.inj hp, hentries, hsymbols⟩
  · refine ⟨htwice, ?_⟩
    cases hparse : Source.parse twice with
    | error e =>
      have hp : (Source.parse twice).toOption.isSome = true := by decide +kernel
      rw [hparse] at hp
      cases hp
    | ok p => exact ⟨p, rfl, (assemble_symbols twice p hparse).2 1 "n" htwice⟩

end Thumb
