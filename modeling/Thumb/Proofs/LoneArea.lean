import Thumb.Proofs.LiteralName

namespace Thumb

/-- The texts of a target that may name literals. -/
def Target.texts : Target → List String
  | .record r => r.operands
  | .symbol name => [name]

def Target.renumber (first : Nat) : Target → Target
  | .record r => .record { r with operands := r.operands.map (Thumb.renumber first) }
  | .symbol name => .symbol (Thumb.renumber first name)

def Relocation.moveTo (index first : Nat) (r : Relocation) : Relocation :=
  { r with index, target := r.target.renumber first }

def Literal.renumber (first : Nat) (l : Literal) : Literal :=
  { l with label := Thumb.renumber first l.label }

def Record.Plain (r : Record) : Prop :=
  ∀ text ∈ r.label.toList ++ r.operands, Thumb.Plain text

namespace Record.Plain

variable {r : Record}

theorem label (h : r.Plain) {name : String} (hname : r.label = some name) : Thumb.Plain name :=
  h name (List.mem_append_left _ (by rw [hname]; exact .head _))

theorem operand (h : r.Plain) {op : String} (hop : op ∈ r.operands) : Thumb.Plain op :=
  h op (List.mem_append_right _ hop)

end Record.Plain

namespace Object.Draft

/-- A draft of a section by itself: its literals are the first ones, and no other text has their
mark. -/
structure Tidy (d : Draft) : Prop where
  numbered : d.Numbered 0
  value : ∀ l ∈ d.pool, Plain l.value
  target : ∀ r ∈ d.object.relocations, ∀ text ∈ r.target.texts, Ordinary d.literals text

theorem Tidy.length_pool {d : Draft} (h : d.Tidy) : d.literals = d.pool.length := by
  rw [h.numbered.literals, Nat.zero_add]

theorem Tidy.ordinary {d : Draft} (h : d.Tidy) {l : Literal} (hl : l ∈ d.pool) :
    Ordinary d.literals l.label := by
  obtain ⟨k, hk⟩ := List.mem_iff_getElem?.mp hl
  have hlt := (List.getElem?_eq_some_iff.mp hk).1
  refine .inr ⟨k, h.length_pool ▸ hlt, ?_⟩
  rw [h.numbered.label hk, Nat.zero_add]

theorem Tidy.congr {d d' : Draft} (h : d.Tidy) (hpool : d'.pool = d.pool)
    (hliterals : d'.literals = d.literals)
    (hrelocations : d'.object.relocations = d.object.relocations) : d'.Tidy where
  numbered := by
    refine ⟨by rw [hpool, hliterals, h.numbered.literals], ?_⟩
    intro k l hl
    rw [hpool] at hl
    exact h.numbered.label hl
  value := by
    rw [hpool]
    exact h.value
  target := by
    rw [hrelocations, hliterals]
    exact h.target

/-- A draft that has in its section what another draft has in its only one. -/
structure Embeds (b d e : Draft) : Prop where
  tidy : d.Tidy
  constants : e.constants = d.constants
  index : e.index = b.index
  bytes : e.bytes = d.bytes
  pool : e.pool = d.pool.map (Literal.renumber b.literals)
  literals : e.literals = b.literals + d.literals
  relocations : e.object.relocations =
    b.object.relocations ++ d.object.relocations.map (Relocation.moveTo b.index b.literals)
  contains {count : Nat} {name : String} (hname : Ordinary count name) :
    e.object.symbols.contains (renumber b.literals name) = true ↔
      d.object.symbols.contains name = true ∨
        b.object.symbols.contains (renumber b.literals name) = true

namespace Embeds

variable {b d e : Draft}

theorem emit (h : b.Embeds d e) (bytes : List Byte) : b.Embeds (d.emit bytes) (e.emit bytes) :=
  { h with
    tidy := h.tidy.congr rfl rfl rfl
    bytes := congrArg (· ++ bytes) h.bytes }

theorem align (h : b.Embeds d e) (alignment : Nat) :
    b.Embeds (d.align alignment) (e.align alignment) := by
  rw [Draft.align, Draft.align, h.bytes]
  exact h.emit _

theorem mark (h : b.Embeds d e) (line : Nat) : b.Embeds (d.mark line) (e.mark line) :=
  { h with tidy := h.tidy.congr rfl rfl rfl }

theorem label (h : b.Embeds d e) {count : Nat} {name : String} (hname : Ordinary count name)
    (line : Nat) (hfresh : b.object.symbols.contains (renumber b.literals name) = false) :
    Agree b.Embeds (d.label name line) (e.label (renumber b.literals name) line) := by
  have hcontains := h.contains hname
  rw [hfresh, Bool.false_eq_true, or_false, Bool.coe_iff_coe] at hcontains
  unfold Draft.label define
  rw [hcontains]
  cases d.object.symbols.contains name with
  | true => exact .error _ _
  | false =>
    refine .ok { h with tidy := h.tidy.congr rfl rfl rfl, contains := ?_ }
    intro count' name' hname'
    rw [Table.contains_insert, Table.contains_insert, hname'.renumber_inj hname,
      h.contains hname', or_assoc]

theorem relocate (h : b.Embeds d e) (kind : SectionKind) (length : Nat) (target : Target)
    (htarget : ∀ text ∈ target.texts, Ordinary d.literals text) (line : Nat) :
    b.Embeds (d.relocate kind length target line)
      (e.relocate kind length (target.renumber b.literals) line) := by
  refine { h with tidy := ?_, relocations := ?_ }
  · refine ⟨⟨h.tidy.numbered.literals, h.tidy.numbered.label⟩, h.tidy.value, ?_⟩
    intro r hr
    rcases List.mem_append.mp hr with hr | hr
    · exact h.tidy.target r hr
    · cases List.mem_singleton.mp hr
      exact htarget
  · simp only [Draft.relocate, List.map_append, h.relocations, List.append_assoc]
    rw [List.map_singleton, Relocation.moveTo, h.index, h.bytes]

theorem datum (h : b.Embeds d e) (width : Width) (mnemonic : String) {operand : String}
    (hop : Plain operand) (line : Nat) :
    Agree b.Embeds (d.datum width mnemonic operand line) (e.datum width mnemonic operand line) := by
  unfold Draft.datum
  rw [h.constants]
  cases d.constants.value? operand with
  | some value => exact .bind_left _ fun bytes => .ok (h.emit bytes)
  | none =>
    dsimp only
    cases Operand.isLabel operand with
    | false => exact .error _ _
    | true =>
      have htarget := h.relocate .data width.bytes (.symbol (Text.trimmed operand))
        (fun _ htext => List.mem_singleton.mp htext ▸ .inl hop.trimmed) line
      rw [Target.renumber, hop.trimmed.renumber] at htarget
      exact .ok (htarget.emit _)

theorem data (h : b.Embeds d e) (width : Width) {r : Record} (hr : r.Plain) :
    Agree b.Embeds (d.data width r) (e.data width r) := by
  unfold Draft.data
  split
  · exact .error _ _
  · refine Agree.foldlM ?_ h
    intro operand hop d e h
    have hdatum := h.datum width r.mnemonic (hr.operand hop) r.line
    cases width with
    | halfword => exact hdatum
    | word => exact hdatum
    | byte =>
      unfold dataOperand
      cases unquote? operand.toList with
      | none => exact hdatum
      | some text => exact .ok (h.emit _)

theorem space (h : b.Embeds d e) (filled : Bool) (r : Record) :
    Agree b.Embeds (d.space filled r) (e.space filled r) := by
  unfold Draft.space
  extract_lets fill fill'
  have hfill (x : String × Option String) : Agree b.Embeds (fill x) (fill' x) := by
    unfold fill fill'
    have hbyte : e.fillByte r x.2 = d.fillByte r x.2 := by
      unfold fillByte
      rw [h.constants]
    have hcount : e.count? x.1 = d.count? x.1 := by
      rw [count?, count?, h.constants]
    dsimp only
    rw [hcount, hbyte, h.bytes]
    cases d.count? x.1 with
    | none => exact .error _ _
    | some count =>
      dsimp only
      split
      · exact .error _ _
      · exact .bind_left _ fun bytes => .ok (h.emit _)
  clear_value fill fill'
  split
  · exact hfill _
  · exact hfill _
  · exact .error _ _

theorem alignTo (h : b.Embeds d e) (r : Record) : Agree b.Embeds (d.alignTo r) (e.alignTo r) := by
  unfold Draft.alignTo count?
  rw [h.constants]
  split
  · exact .ok (h.align 4)
  · split
    · exact .ok (h.align _)
    · exact .error _ _
  · exact .error _ _

/-- Equal values share a literal as they do in the section by itself. -/
theorem literal (h : b.Embeds d e) {value : String} (hvalue : Plain value) (line : Nat) :
    (e.literal value line).1 = renumber b.literals (d.literal value line).1 ∧
    Ordinary (d.literal value line).2.literals (d.literal value line).1 ∧
    b.Embeds (d.literal value line).2 (e.literal value line).2 := by
  have hnumbered := literal_numbered h.tidy.numbered value line
  have hfind : e.pool.find? (·.value = value) =
      (d.pool.find? (·.value = value)).map (Literal.renumber b.literals) := by
    rw [h.pool, List.find?_map]
    rfl
  unfold Draft.literal at hnumbered ⊢
  rw [hfind]
  cases hfound : d.pool.find? (·.value = value) with
  | some l => exact ⟨rfl, h.tidy.ordinary (List.mem_of_find?_eq_some hfound), h⟩
  | none =>
    rw [hfound] at hnumbered
    have hlabel : literalLabel e.literals = renumber b.literals (literalLabel d.literals) := by
      rw [renumber_literalLabel, h.literals]
    refine ⟨hlabel, .inr ⟨_, Nat.lt_succ_self _, rfl⟩, { h with
      tidy := ⟨hnumbered, ?_, ?_⟩, pool := ?_, literals := ?_ }⟩
    · intro l hl
      rcases List.mem_append.mp hl with hl | hl
      · exact h.tidy.value l hl
      · cases List.mem_singleton.mp hl
        exact hvalue
    · intro r hr text htext
      exact (h.tidy.target r hr text htext).mono (Nat.le_succ _)
    · show e.pool ++ [⟨literalLabel e.literals, value, line⟩] = _
      rw [List.map_append, ← h.pool, hlabel]
      rfl
    · show e.literals + 1 = _
      rw [h.literals, Nat.add_assoc]

theorem operand (h : b.Embeds d e) (line : Nat) {op : String} (hop : Plain op) :
    (e.operand line op).1 = renumber b.literals (d.operand line op).1 ∧
    Ordinary (d.operand line op).2.literals (d.operand line op).1 ∧
    b.Embeds (d.operand line op).2 (e.operand line op).2 := by
  unfold Draft.operand
  rw [h.constants]
  split
  case h_1 value htrim =>
    refine h.literal ?_ line
    rw [Plain, String.toList_ofList]
    intro hmem
    refine hop (Text.trim_subset _ ?_)
    rw [htrim]
    exact .tail _ (Text.trim_subset _ hmem)
  case h_2 =>
    have hplain := hop.substitute d.constants
    exact ⟨(hplain.renumber _).symm, .inl hplain, h⟩

theorem operands (h : b.Embeds d e) (line : Nat) (ops : List String) (hops : ∀ op ∈ ops, Plain op) :
    (e.operands line ops).1 = (d.operands line ops).1.map (renumber b.literals) ∧
    (∀ op ∈ (d.operands line ops).1, Ordinary (d.operands line ops).2.literals op) ∧
    b.Embeds (d.operands line ops).2 (e.operands line ops).2 := by
  induction ops generalizing d e with
  | nil => exact ⟨rfl, nofun, h⟩
  | cons op ops ih =>
    obtain ⟨hop, hops⟩ := List.forall_mem_cons.mp hops
    obtain ⟨hfirst, hordinary, h'⟩ := h.operand line hop
    obtain ⟨hrest, hordinaries, h''⟩ := ih h' hops
    have hle := ((d.operand line op).2.operands_pool line ops).length_le
    rw [← h'.tidy.length_pool, ← h''.tidy.length_pool] at hle
    refine ⟨by simp only [Draft.operands, hfirst, hrest, List.map_cons], ?_, h''⟩
    exact List.forall_mem_cons.mpr ⟨hordinary.mono hle, hordinaries⟩

end Embeds

theorem instruction_eq_ok {d : Draft} {r : Record} {form : Form} {opcode : List Halfword}
    (hselect : Form.select r.mnemonic (d.operands r.line r.operands).1 = .ok form)
    (hencode : form.encode (d.operands r.line r.operands).1 none = .ok opcode) :
    d.instruction r = .ok
      ((if form.needsLabels then
        (d.operands r.line r.operands).2.relocate .code (halfwordBytes opcode).length
          (.record { r with operands := (d.operands r.line r.operands).1 }) r.line
      else (d.operands r.line r.operands).2).emit (halfwordBytes opcode)) := by
  simp only [instruction, bind_ok_iff, mapError_ok_iff]
  exact ⟨form, hselect, opcode, hencode, rfl⟩

namespace Embeds

variable {b d e : Draft}

theorem instruction (h : b.Embeds d e) {r : Record} (hr : r.Plain) :
    Agree b.Embeds (d.instruction r) (e.instruction r) := by
  obtain ⟨hops, hordinary, h'⟩ := h.operands r.line r.operands fun _ => hr.operand
  have hsame : Form.SameTargets none none (d.operands r.line r.operands).1
      (e.operands r.line r.operands).1 := by
    rw [hops]
    refine List.forall₂_map_right_iff.mpr (List.forall₂_same.mpr ?_)
    intro op hop
    exact ⟨(hordinary op hop).sameName_renumber _, Operand.target_none _ _⟩
  apply Agree.of_ok
  · intro d' hd'
    obtain ⟨form, opcode, hselect, hencode, rfl⟩ := instruction_cases hd'
    obtain ⟨hselect', hencode'⟩ := hsame.encode hselect hencode
    refine ⟨_, instruction_eq_ok hselect' hencode', ?_⟩
    cases form.needsLabels with
    | false => exact h'.emit _
    | true =>
      have htarget := h'.relocate .code (halfwordBytes opcode).length
        (.record { r with operands := (d.operands r.line r.operands).1 }) hordinary r.line
      rw [Target.renumber, ← hops] at htarget
      exact htarget.emit _
  · intro e' he'
    obtain ⟨form, opcode, hselect, hencode, _⟩ := instruction_cases he'
    obtain ⟨hselect', hencode'⟩ := hsame.symm.encode hselect hencode
    exact ⟨_, instruction_eq_ok hselect' hencode'⟩

theorem body (h : b.Embeds d e) {r : Record} (hr : r.Plain) :
    Agree b.Embeds (d.body r) (e.body r) := by
  unfold Draft.body
  cases r.kind with
  | data width => exact h.data width hr
  | space filled => exact h.space filled r
  | align => exact h.alignTo r
  | instruction => exact h.instruction hr

theorem place (h : b.Embeds d e) {r : Record} (hr : r.Plain)
    (hfresh : ∀ name ∈ r.label, b.object.symbols.contains name = false) :
    Agree b.Embeds (d.place r) (e.place r) := by
  unfold Draft.place
  cases hlabel : r.label with
  | none => exact .ok (h.align _)
  | some name =>
    have hname := hr.label hlabel
    have hplaced := (h.align r.kind.alignment).label (Or.inl hname : Ordinary 0 name) r.line
    rw [hname.renumber] at hplaced
    exact hplaced (hfresh name hlabel)

theorem record (h : b.Embeds d e) {r : Record} (hr : r.Plain)
    (hfresh : ∀ name ∈ r.label, b.object.symbols.contains name = false) :
    Agree b.Embeds (d.record r) (e.record r) := by
  rw [record_eq, record_eq]
  exact (h.place hr hfresh).bind fun d e h => (h.mark r.line).body hr

theorem records (h : b.Embeds d e) {rs : List Record} (hrs : ∀ r ∈ rs, r.Plain)
    (hfresh : ∀ name ∈ rs.filterMap (·.label), b.object.symbols.contains name = false) :
    Agree b.Embeds (rs.foldlM Draft.record d) (rs.foldlM Draft.record e) := by
  refine Agree.foldlM ?_ h
  intro r hr d e h
  refine h.record (hrs r hr) ?_
  intro name hname
  exact hfresh name (List.mem_filterMap.mpr ⟨r, hr, hname⟩)

theorem poolBase (h : b.Embeds d e) (kind : SectionKind) :
    b.Embeds (d.poolBase kind) (e.poolBase kind) := by
  cases kind with
  | code => exact (h.emit _).align 4
  | data => exact h.align 4

theorem flushPool (h : b.Embeds d e) (kind : SectionKind)
    (hfresh : ∀ n < d.literals, b.object.symbols.contains (literalLabel (b.literals + n)) = false) :
    Agree b.Embeds (d.flushPool kind) (e.flushPool kind) := by
  by_cases hpool : d.pool = []
  · have hpool' : e.pool = [] := by rw [h.pool, hpool, List.map_nil]
    rw [Draft.flushPool, Draft.flushPool, hpool, hpool']
    exact .ok h
  · have hpool' : e.pool ≠ [] := by
      rw [h.pool]
      exact mt List.map_eq_nil_iff.mp hpool
    rw [flushPool_eq d kind hpool, flushPool_eq e kind hpool', h.pool, List.foldlM_map]
    refine Agree.foldlM ?_ (h.poolBase kind)
    intro l hl d' e' h'
    have hvalue := h.tidy.value l hl
    refine (h'.label (h.tidy.ordinary hl) l.line ?_).bind fun d e h =>
      h.datum .word "DCD" hvalue l.line
    obtain ⟨k, hk⟩ := List.mem_iff_getElem?.mp hl
    have hlt := (List.getElem?_eq_some_iff.mp hk).1
    rw [h.tidy.numbered.label hk, Nat.zero_add, renumber_literalLabel]
    exact hfresh k (h.tidy.length_pool ▸ hlt)

theorem start (hbytes : b.bytes = []) (hpool : b.pool = []) :
    b.Embeds { constants := b.constants } b where
  tidy := ⟨numbered_of_pool (d := { constants := b.constants }) rfl, nofun, nofun⟩
  constants := rfl
  index := rfl
  bytes := hbytes
  pool := hpool
  literals := rfl
  relocations := (List.append_nil _).symm
  contains _ := by
    constructor
    · exact .inr
    · rintro (hempty | hold)
      · cases hempty
      · exact hold

end Embeds

section Pool

variable {d d' : Draft} {first : Nat}

theorem poolLiteral_contains {l : Literal} (h : d.poolLiteral l = .ok d') :
    d.object.symbols.contains l.label = false ∧
      ∀ {name}, d'.object.symbols.contains name = true ↔
        name = l.label ∨ d.object.symbols.contains name = true := by
  obtain ⟨d₁, hlabel, hdatum⟩ := bind_ok_iff.mp h
  obtain ⟨o, ho, hlabel⟩ := bind_ok_iff.mp hlabel
  cases hlabel
  have hfills := datum_fills { d with object := o } .word "DCD" l.value l.line
  rw [hdatum] at hfills
  obtain ⟨_, _, hcontains, hnew⟩ := define_kept ho
  refine ⟨hnew, ?_⟩
  intro name
  rw [hfills.symbols_eq]
  exact hcontains

theorem poolLiterals_fresh {pool : List Literal} (h : pool.foldlM poolLiteral d = .ok d')
    {l : Literal} (hl : l ∈ pool) : d.object.symbols.contains l.label = false := by
  induction pool generalizing d with
  | nil => cases hl
  | cons l' pool ih =>
    obtain ⟨d₁, hfirst, h⟩ := bind_ok_iff.mp h
    obtain ⟨hfresh, hcontains⟩ := poolLiteral_contains hfirst
    rcases List.mem_cons.mp hl with rfl | hl
    · exact hfresh
    · have hlater := ih h hl
      rw [Bool.eq_false_iff] at hlater ⊢
      exact fun hold => hlater (hcontains.mpr (.inr hold))

theorem flushPool_fresh {kind : SectionKind} (h : d.flushPool kind = .ok d') (hd : d.Numbered first)
    {n : Nat} (hn : n < d.pool.length) :
    d.object.symbols.contains (literalLabel (first + n)) = false := by
  have hne : d.pool ≠ [] := List.ne_nil_of_length_pos (Nat.zero_lt_of_lt hn)
  have hl := List.getElem?_eq_getElem hn
  rw [flushPool_eq d kind hne] at h
  rw [← hd.label hl, ← d.object_poolBase kind]
  exact poolLiterals_fresh h (List.mem_of_getElem? hl)

theorem poolLiterals_symbol {pool : List Literal} (h : pool.foldlM poolLiteral d = .ok d')
    (hlabel : ∀ {k l}, pool[k]? = some l → l.label = literalLabel (first + k)) :
    d'.bytes.length = d.bytes.length + 4 * pool.length ∧
    ∀ n < pool.length, d'.object.symbols.get? (literalLabel (first + n)) =
      some (.address (some d.index) (d.bytes.length + 4 * n : Nat)) := by
  induction pool generalizing d first with
  | nil =>
    cases h
    exact ⟨rfl, nofun⟩
  | cons l pool ih =>
    obtain ⟨d₁, hfirst, h⟩ := bind_ok_iff.mp h
    obtain ⟨hsymbol, word, _, hlen, hbytes, _⟩ := poolLiteral_cases hfirst
    have hlabels : ∀ {k l}, pool[k]? = some l → l.label = literalLabel (first + 1 + k) := by
      intro k l hl
      rw [hlabel (k := k + 1) hl, Nat.add_right_comm, Nat.add_assoc]
    obtain ⟨hsize, hothers⟩ := ih h hlabels
    rw [hbytes, List.length_append, hlen] at hsize hothers
    rw [List.length_cons]
    refine ⟨by omega, ?_⟩
    intro n hn
    cases n with
    | zero =>
      rw [hlabel (k := 0) rfl] at hsymbol
      exact (poolLiterals_defines h hlabels).kept hsymbol
    | succ n =>
      have hother := hothers n (Nat.lt_of_succ_lt_succ hn)
      rw [(poolLiteral_extends hfirst).index_eq, Nat.add_assoc first, Nat.add_comm 1 n] at hother
      rw [hother, Nat.mul_succ, Nat.add_comm (4 * n), ← Nat.add_assoc]

theorem flushPool_symbol {kind : SectionKind} (h : d.flushPool kind = .ok d')
    (hd : d.Numbered first) {n : Nat} (hn : n < d.pool.length) :
    d'.object.symbols.get? (literalLabel (first + n)) =
      some (.address (some d.index) (d'.bytes.length - 4 * (d.pool.length - n) : Nat)) := by
  have hne : d.pool ≠ [] := List.ne_nil_of_length_pos (Nat.zero_lt_of_lt hn)
  rw [flushPool_eq d kind hne] at h
  obtain ⟨hsize, hsymbol⟩ := poolLiterals_symbol h hd.label
  rw [hsymbol n hn, (d.poolBase_extends kind).index_eq, hsize]
  congr 3
  omega

/-- The literals of an area are new also to what is there before it. -/
theorem literal_fresh {b e₁ e : Draft} {a : Area} (hrecords : a.records.foldlM record b = .ok e₁)
    (hflush : e₁.flushPool a.kind = .ok e) (hpool : b.pool = []) {n : Nat}
    (hn : n < e₁.pool.length) :
    b.object.symbols.contains (literalLabel (b.literals + n)) = false :=
  (records_defines hrecords).not_contains
    (flushPool_fresh hflush (records_numbered hrecords (numbered_of_pool hpool)) hn)

theorem literals_fresh {areas : List Area} {b d : Draft} (h : areas.foldlM area b = .ok d)
    (hpool : b.pool = []) {n : Nat} (hle : b.literals ≤ n) (hlt : n < d.literals) :
    b.object.symbols.contains (literalLabel n) = false := by
  induction areas generalizing b with
  | nil =>
    cases h
    omega
  | cons a areas ih =>
    obtain ⟨b₁, harea, h⟩ := bind_ok_iff.mp h
    obtain ⟨count, hdefines, hpool₁, hcount⟩ := area_defines harea hpool
    by_cases hn : n < b₁.literals
    · obtain ⟨e₁, hrecords, harea⟩ := bind_ok_iff.mp harea
      obtain ⟨e, hflush, harea⟩ := bind_ok_iff.mp harea
      cases harea
      have hliterals : (e.finish a).literals = b.literals + e₁.pool.length :=
        (literals_flushPool hflush).trans
          (records_numbered hrecords (numbered_of_pool hpool)).literals
      have hnew := literal_fresh hrecords hflush hpool (n := n - b.literals) (by omega)
      rwa [Nat.add_sub_cancel' hle] at hnew
    · exact hdefines.not_contains (ih h hpool₁ (Nat.le_of_not_lt hn))

end Pool

/-- The section of an area by itself. -/
def alone (constants : Constants) (a : Area) : Except AssemblyError Draft := do
  (← a.records.foldlM record { constants }).flushPool a.kind

theorem alone_of_area {b e₁ e : Draft} {a : Area} (hrecords : a.records.foldlM record b = .ok e₁)
    (hflush : e₁.flushPool a.kind = .ok e) (hbytes : b.bytes = []) (hpool : b.pool = [])
    (hplain : ∀ r ∈ a.records, r.Plain) : ∃ d, alone b.constants a = .ok d ∧ b.Embeds d e := by
  have hdefines := records_defines hrecords
  obtain ⟨d₁, hd₁, h₁⟩ := ((Embeds.start hbytes hpool).records hplain hdefines.fresh).exists_left
    hrecords
  have hfresh : ∀ n < d₁.literals,
      b.object.symbols.contains (literalLabel (b.literals + n)) = false := by
    intro n hn
    rw [h₁.tidy.length_pool, ← List.length_map, ← h₁.pool] at hn
    exact literal_fresh hrecords hflush hpool hn
  obtain ⟨d, hd, h⟩ := (h₁.flushPool a.kind hfresh).exists_left hflush
  exact ⟨d, bind_ok_iff.mpr ⟨d₁, hd₁, hd⟩, h⟩

theorem Embeds.literal_symbol {b d e₁ e : Draft} {a : Area} (h : b.Embeds d e)
    (hrecords : a.records.foldlM Draft.record b = .ok e₁) (hflush : e₁.flushPool a.kind = .ok e)
    (hpool : b.pool = []) {n : Nat} (hn : n < d.literals) :
    e.object.symbols.get? (literalLabel (b.literals + n)) =
      some (.address (some b.index) (d.bytes.length - 4 * (d.literals - n) : Nat)) := by
  have hnumbered := records_numbered hrecords (numbered_of_pool hpool)
  have hcount : e₁.pool.length = d.literals := by
    have hliterals := hnumbered.literals
    rw [← literals_flushPool hflush, h.literals] at hliterals
    exact (Nat.add_left_cancel hliterals).symm
  have hsymbol := flushPool_symbol hflush hnumbered (hcount ▸ hn)
  rwa [(records_extends hrecords).index_eq, hcount, h.bytes] at hsymbol

theorem area_of_alone {b d : Draft} {a : Area} (h : alone b.constants a = .ok d)
    (hbytes : b.bytes = []) (hpool : b.pool = []) (hplain : ∀ r ∈ a.records, r.Plain)
    (hlabels : ∀ name ∈ a.records.filterMap (·.label), b.object.symbols.contains name = false)
    (hliterals : ∀ n < d.literals,
      b.object.symbols.contains (literalLabel (b.literals + n)) = false) :
    ∃ e, b.area a = .ok (e.finish a) ∧ b.Embeds d e := by
  obtain ⟨d₁, hd₁, hflush⟩ := bind_ok_iff.mp h
  obtain ⟨e₁, he₁, h₁⟩ := ((Embeds.start hbytes hpool).records hplain hlabels).exists_right hd₁
  rw [literals_flushPool hflush] at hliterals
  obtain ⟨e, he, h⟩ := (h₁.flushPool a.kind hliterals).exists_right hflush
  exact ⟨e, bind_ok_iff.mpr ⟨e₁, he₁, bind_ok_iff.mpr ⟨e, he, rfl⟩⟩, h⟩

/-- The section of an area by itself, as far as it has one. -/
def piece (constants : Constants) (a : Area) : Draft :=
  match alone constants a with
  | .ok d => d
  | .error _ => {}

theorem piece_eq {constants : Constants} {a : Area} {d : Draft} (h : alone constants a = .ok d) :
    piece constants a = d := by
  rw [piece, h]

theorem bytes_areas {areas : List Area} {d d' : Draft} (h : areas.foldlM area d = .ok d')
    (hd : d.bytes = []) : d'.bytes = [] := by
  refine foldlM_rel (R := fun d d' : Draft => d.bytes = [] → d'.bytes = []) (fun _ => id)
    (fun h h' => h' ∘ h) ?_ h hd
  intro a _ d d' ha _
  obtain ⟨d₁, d₂, _, _, rfl⟩ := area_cases ha
  rfl

theorem bytes_constants {cs : List Constant} {d d' : Draft} (h : cs.foldlM constant d = .ok d') :
    d'.bytes = d.bytes := by
  refine foldlM_rel (R := fun d d' : Draft => d'.bytes = d.bytes) (fun _ => rfl)
    (fun h h' => h'.trans h) ?_ h
  intro c _ d d' hc
  obtain ⟨o, _, hc⟩ := bind_ok_iff.mp hc
  cases hc
  rfl

theorem literals_areas {areas : List Area} {b d : Draft} (h : areas.foldlM area b = .ok d)
    (hbytes : b.bytes = []) (hpool : b.pool = [])
    (hplain : ∀ a ∈ areas, ∀ r ∈ a.records, r.Plain) :
    d.literals = b.literals + (areas.map fun a => (piece b.constants a).literals).sum := by
  induction areas generalizing b with
  | nil =>
    cases h
    rfl
  | cons a areas ih =>
    obtain ⟨hplainA, hplain⟩ := List.forall_mem_cons.mp hplain
    obtain ⟨b₁, harea, h⟩ := bind_ok_iff.mp h
    have hconstants := constants_area harea
    obtain ⟨e₁, hrecords, harea⟩ := bind_ok_iff.mp harea
    obtain ⟨e, hflush, harea⟩ := bind_ok_iff.mp harea
    cases harea
    obtain ⟨d₁, halone, hembeds⟩ := alone_of_area hrecords hflush hbytes hpool hplainA
    have hnext : (e.finish a).literals = b.literals + d₁.literals := hembeds.literals
    rw [ih h rfl rfl hplain, hconstants, hnext, List.map_cons, List.sum_cons, piece_eq halone,
      Nat.add_assoc]

/-- An area defines no other plain name than its labels. -/
theorem label_fresh_of_area {b b' : Draft} {a : Area} (h : b.area a = .ok b') (hpool : b.pool = [])
    {name : String} (hname : Plain name) (hlabel : name ∉ a.records.filterMap (·.label))
    (hfresh : b.object.symbols.contains name = false) :
    b'.object.symbols.contains name = false := by
  obtain ⟨count, hdefines, _⟩ := area_defines h hpool
  rw [Bool.eq_false_iff, Ne, hdefines.contains_iff]
  rintro (hnew | hnew | hold)
  · exact hlabel hnew
  · obtain ⟨n, _, rfl⟩ := List.mem_map.mp hnew
    exact not_plain_literalLabel n hname
  · rw [hfresh] at hold
    cases hold

theorem literal_fresh_of_area {b b' : Draft} {a : Area} (h : b.area a = .ok b')
    (hpool : b.pool = []) (hplain : ∀ r ∈ a.records, r.Plain) {n : Nat} (hn : b'.literals ≤ n)
    (hfresh : b.object.symbols.contains (literalLabel n) = false) :
    b'.object.symbols.contains (literalLabel n) = false := by
  obtain ⟨count, hdefines, _, hcount⟩ := area_defines h hpool
  rw [Bool.eq_false_iff, Ne, hdefines.contains_iff]
  rintro (hnew | hnew | hold)
  · obtain ⟨r, hr, hlabel⟩ := List.mem_filterMap.mp hnew
    exact not_plain_literalLabel n ((hplain r hr).label hlabel)
  · obtain ⟨m, hm, heq⟩ := List.mem_map.mp hnew
    rw [List.mem_range'_1, ← hcount, literalLabel_injective heq] at hm
    omega
  · rw [hfresh] at hold
    cases hold

/-- Areas can be added one after the other if each has a section by itself and no name is defined
twice. -/
theorem areas_of_alone {areas : List Area} {b : Draft}
    (halone : ∀ a ∈ areas, alone b.constants a = .ok (piece b.constants a))
    (hplain : ∀ a ∈ areas, ∀ r ∈ a.records, r.Plain) (hbytes : b.bytes = []) (hpool : b.pool = [])
    (hlabels : ∀ name ∈ areas.flatMap (fun a => a.records.filterMap (·.label)),
      b.object.symbols.contains name = false)
    (hnodup : (areas.flatMap fun a => a.records.filterMap (·.label)).Nodup)
    (hliterals : ∀ n < (areas.map fun a => (piece b.constants a).literals).sum,
      b.object.symbols.contains (literalLabel (b.literals + n)) = false) :
    ∃ d, areas.foldlM area b = .ok d := by
  induction areas generalizing b with
  | nil => exact ⟨b, rfl⟩
  | cons a areas ih =>
    obtain ⟨ha, halone⟩ := List.forall_mem_cons.mp halone
    obtain ⟨hplainA, hplain⟩ := List.forall_mem_cons.mp hplain
    rw [List.flatMap_cons] at hlabels hnodup
    rw [List.map_cons, List.sum_cons] at hliterals
    obtain ⟨_, hnodup, hdisjoint⟩ := List.nodup_append.mp hnodup
    obtain ⟨e, harea, h⟩ := area_of_alone ha hbytes hpool hplainA
      (fun name hname => hlabels name (List.mem_append_left _ hname))
      (fun n hn => hliterals n (Nat.lt_add_right _ hn))
    have hconstants := constants_area harea
    have hnext : (e.finish a).literals = b.literals + (piece b.constants a).literals := h.literals
    have hlabels' : ∀ name ∈ areas.flatMap (fun a => a.records.filterMap (·.label)),
        (e.finish a).object.symbols.contains name = false := by
      intro name hname
      have hfresh := hlabels name (List.mem_append_right _ hname)
      have hnot : name ∉ a.records.filterMap (·.label) :=
        fun hold => hdisjoint name hold name hname rfl
      obtain ⟨a', ha', hname⟩ := List.mem_flatMap.mp hname
      obtain ⟨r, hr, hname⟩ := List.mem_filterMap.mp hname
      exact label_fresh_of_area harea hpool ((hplain a' ha' r hr).label hname) hnot hfresh
    have hliterals' : ∀ n < (areas.map fun a => (piece b.constants a).literals).sum,
        (e.finish a).object.symbols.contains (literalLabel ((e.finish a).literals + n)) =
          false := by
      intro n hn
      refine literal_fresh_of_area harea hpool hplainA (Nat.le_add_right _ _) ?_
      rw [hnext, Nat.add_assoc]
      exact hliterals _ (Nat.add_lt_add_left hn _)
    rw [← hconstants] at halone hliterals'
    obtain ⟨d, hd⟩ := ih halone hplain rfl rfl hlabels' hnodup hliterals'
    rw [List.foldlM_cons, harea]
    exact ⟨d, hd⟩

end Object.Draft

def Program.Plain (p : Program) : Prop :=
  ∀ a ∈ p.areas, ∀ r ∈ a.records, r.Plain

namespace Object

/-- An object with the section of an area by itself as one of its sections. -/
structure Holds (o : Object) (k first : Nat) (d : Draft) : Prop where
  tidy : d.Tidy
  size : ∃ s, o.sections[k]? = some s ∧ s.size = d.bytes.length
  body : o.body k = d.bytes
  moved : ∀ r ∈ d.object.relocations, r.moveTo k first ∈ o.relocations
  relocation : ∀ r ∈ o.relocations, r.index = k →
    ∃ r' ∈ d.object.relocations, r = r'.moveTo k first
  literal : ∀ n < d.literals, o.symbols.get? (literalLabel (first + n)) =
    some (.address (some k) (d.bytes.length - 4 * (d.literals - n) : Nat))

section Program

variable {p : Program} {o : Object} {c : Draft} {i j : Nat} {a : Area}

theorem ofProgram_holds (ho : ofProgram p = .ok o)
    (hc : p.constants.foldlM Draft.constant {} = .ok c) (hplain : p.Plain)
    (ha : p.areas[i]? = some a) :
    Draft.alone c.constants a = .ok (Draft.piece c.constants a) ∧
      ∃ first, o.Holds i first (Draft.piece c.constants a) := by
  obtain ⟨c', b, e₁, e, d₂, hconstants, htake, hrecords, hflush, hdrop, rfl⟩ :=
    Draft.ofProgram_split ho ha
  cases hc.symm.trans hconstants
  obtain ⟨_, hpool⟩ := Draft.defines_before hc htake
  have hbytes := Draft.bytes_areas htake (Draft.bytes_constants hc)
  obtain ⟨d, halone, h⟩ := Draft.alone_of_area hrecords hflush hbytes hpool
    (hplain a (List.mem_of_getElem? ha))
  rw [Draft.constants_areas htake] at halone
  have hform := Draft.areas_wellFormed htake (Draft.constants_wellFormed hc)
  have hindex := Draft.index_eq_of_take ha hform
  have hcont := Draft.areas_continues hdrop
  have hext := (Draft.records_extends hrecords).trans (Draft.flushPool_extends hflush)
  obtain ⟨hsection, hbody⟩ := Draft.body_of_finish hext hcont
  obtain ⟨later, hlater, hbehind⟩ := hcont.relocations
  have hall : d₂.object.relocations = b.object.relocations ++
      d.object.relocations.map (Relocation.moveTo i b.literals) ++ later := by
    rw [hlater, ← hindex, ← h.relocations]
    rfl
  rw [Draft.piece_eq halone]
  refine ⟨halone, b.literals, ?_⟩
  rw [hindex] at hsection hbody
  constructor
  case tidy => exact h.tidy
  case size => exact ⟨_, hsection, congrArg List.length h.bytes⟩
  case body => rw [hbody, h.bytes]
  case moved =>
    intro r hr
    rw [hall]
    exact List.mem_append_left _ (List.mem_append_right _ (List.mem_map_of_mem hr))
  case relocation =>
    intro r hr hk
    rw [hall, List.mem_append, List.mem_append] at hr
    rcases hr with (hr | hr) | hr
    · have hlt : r.index < b.index := hform.index_lt_of_relocation hr
      omega
    · obtain ⟨r', hr', rfl⟩ := List.mem_map.mp hr
      exact ⟨r', hr', rfl⟩
    · have hge := hbehind r hr
      have hnext : (e.finish a).index = e.index + 1 := List.length_append
      have hsame := h.index
      omega
  case literal =>
    intro n hn
    obtain ⟨_, hrest, _⟩ := Draft.areas_defines hdrop rfl
    rw [← hindex]
    exact hrest.kept (h.literal_symbol hrecords hflush hpool hn)

theorem before_alone (hc : p.constants.foldlM Draft.constant {} = .ok c) (hplain : p.Plain)
    (ha : p.areas[i]? = some a) {d : Draft} (hd : Draft.before p i j = .ok d) :
    ∃ d', (a.records.take j).foldlM Draft.record { constants := c.constants } = .ok d' ∧
      d.bytes = d'.bytes := by
  obtain ⟨c', hc', hd⟩ := bind_ok_iff.mp hd
  cases hc.symm.trans hc'
  obtain ⟨b, htake, hd⟩ := bind_ok_iff.mp hd
  rw [ha] at hd
  have hrecords : (a.records.take j).foldlM Draft.record b = .ok d := hd
  obtain ⟨_, hpool⟩ := Draft.defines_before hc htake
  have hbytes := Draft.bytes_areas htake (Draft.bytes_constants hc)
  have hplain : ∀ r ∈ a.records.take j, r.Plain := fun r hr =>
    hplain a (List.mem_of_getElem? ha) r (List.mem_of_mem_take hr)
  obtain ⟨d', hd', h⟩ := ((Draft.Embeds.start hbytes hpool).records hplain
    (Draft.records_defines hrecords).fresh).exists_left hrecords
  rw [Draft.constants_areas htake] at hd'
  exact ⟨d', hd', h.bytes⟩

end Program

end Object

end Thumb
