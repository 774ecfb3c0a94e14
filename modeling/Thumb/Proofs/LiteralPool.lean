import Thumb.Proofs.OperandText
import Thumb.Proofs.Symbols

namespace Thumb

namespace Object.Draft

variable {d d' : Draft}

theorem operand_pool (d : Draft) (line : Nat) (op : String) :
    d.pool <+: (d.operand line op).2.pool := by
  unfold operand literal
  split
  · split
    · exact List.prefix_rfl
    · exact List.prefix_append _ _
  · exact List.prefix_rfl

theorem operands_pool (d : Draft) (line : Nat) (ops : List String) :
    d.pool <+: (d.operands line ops).2.pool := by
  induction ops generalizing d with
  | nil => exact List.prefix_rfl
  | cons op ops ih => exact (d.operand_pool line op).trans (ih _)

theorem body_pool {r : Record} (h : d.body r = .ok d') : d.pool <+: d'.pool := by
  obtain ⟨d₁, hd₁, hfills⟩ := d.body_fills r
  rw [h] at hfills
  rw [hfills.pool_eq]
  rcases hd₁ with rfl | rfl
  · exact List.prefix_rfl
  · exact d.operands_pool _ _

theorem record_pool {r : Record} (h : d.record r = .ok d') : d.pool <+: d'.pool := by
  obtain ⟨d₁, ⟨symbols, hd₁⟩, _, hbody⟩ := record_cases h
  have hpool := body_pool hbody
  rw [hd₁] at hpool
  exact hpool

theorem records_pool {rs : List Record} (h : rs.foldlM record d = .ok d') : d.pool <+: d'.pool :=
  foldlM_rel (R := fun d d' : Draft => d.pool <+: d'.pool) (fun _ => List.prefix_rfl)
    (fun h h' => h.trans h') (fun _ _ _ _ => record_pool) h

theorem operand_literal (d : Draft) (line : Nat) {op : String} {value : List Char}
    (h : Text.trim op.toList = '=' :: value) :
    ∃ l ∈ (d.operand line op).2.pool, (d.operand line op).1 = l.label ∧
      l.value = String.ofList (Text.trim value) := by
  have hop : d.operand line op = d.literal (String.ofList (Text.trim value)) line := by
    unfold operand
    rw [h]
    rfl
  rw [hop]
  unfold literal
  split
  case h_1 l hfind =>
    have hvalue := List.find?_some hfind
    exact ⟨l, List.mem_of_find?_eq_some hfind, rfl, of_decide_eq_true hvalue⟩
  case h_2 => exact ⟨_, List.mem_append_right _ (.head _), rfl, rfl⟩

/-- The operands of an instruction are written, and its literals collected, when its place is
reached. -/
theorem record_operands {r : Record} (h : d.record r = .ok d') (hkind : r.kind = .instruction) :
    ∃ e : Draft, (e.operands r.line r.operands).1 = (d.operands r.line r.operands).1 ∧
      (e.operands r.line r.operands).2.pool = d'.pool := by
  obtain ⟨d₁, ⟨symbols, hd₁⟩, _, hbody⟩ := record_cases h
  have hfills := (d₁.mark r.line).instruction_fills r
  have hinstruction : (d₁.mark r.line).instruction r = .ok d' := by
    rw [body, hkind] at hbody
    exact hbody
  rw [hinstruction] at hfills
  refine ⟨d₁.mark r.line, ?_, hfills.pool_eq.symm⟩
  apply operands_congr <;> subst hd₁ <;> rfl

theorem record_literal {r : Record} {t op : String} {rt : Reg} {value : List Char}
    (h : d.record r = .ok d') (hkind : r.kind = .instruction) (hops : r.operands = [t, op])
    (ht : Reg.parse? t = some rt) (hop : Text.trim op.toList = '=' :: value) :
    ∃ l ∈ d'.pool, l.value = String.ofList (Text.trim value) ∧
      (d.operands r.line r.operands).1 = [t, l.label] := by
  obtain ⟨e, hoperands, hpool⟩ := record_operands h hkind
  rw [← hpool, ← hoperands, hops]
  simp only [operands, operand_register _ r.line ht]
  obtain ⟨l, hl, hlabel, hvalue⟩ := operand_literal e r.line hop
  exact ⟨l, hl, hvalue, by rw [hlabel]⟩

theorem datum_cases {width : Width} {mnemonic operand : String} {line : Nat}
    (h : d.datum width mnemonic operand line = .ok d') :
    d'.object.symbols = d.object.symbols ∧
    ∃ piece own, piece.length = width.bytes ∧ d'.bytes = d.bytes ++ piece ∧
      d'.object.relocations = d.object.relocations ++ own ∧
      (∀ v, d.constants.value? operand = some v → width.dataBytes v = .ok piece ∧ own = []) ∧
      (d.constants.value? operand = none → Operand.isLabel operand = true ∧
        own = [⟨.data, d.index, d.bytes.length, width.bytes, .symbol (Text.trimmed operand),
          line⟩]) := by
  unfold datum at h
  split at h
  case h_1 v hv =>
    obtain ⟨bytes, hbytes, h⟩ := bind_ok_iff.mp h
    cases h
    have hdata := dataBytes_of_number hbytes
    refine ⟨rfl, bytes, [], Width.length_of_dataBytes hdata, rfl, (List.append_nil _).symm, ?_, ?_⟩
    · intro v' hv'
      cases hv.symm.trans hv'
      exact ⟨hdata, rfl⟩
    · intro hnone
      cases hv.symm.trans hnone
  case h_2 hnone =>
    split at h
    case isTrue hlabel =>
      cases h
      refine ⟨rfl, List.replicate width.bytes 0, _, List.length_replicate, rfl, rfl, ?_, ?_⟩
      · intro v hv
        cases hnone.symm.trans hv
      · exact fun _ => ⟨hlabel, rfl⟩
    case isFalse => cases h

theorem poolLiteral_cases {l : Literal} (h : d.poolLiteral l = .ok d') :
    d'.object.symbols.get? l.label = some (.address (some d.index) d.bytes.length) ∧
    ∃ word own, word.length = 4 ∧ d'.bytes = d.bytes ++ word ∧
      d'.object.relocations = d.object.relocations ++ own ∧
      (∀ v, d.constants.value? l.value = some v →
        Width.word.dataBytes v = .ok word ∧ own = []) ∧
      (d.constants.value? l.value = none → Operand.isLabel l.value = true ∧
        own = [⟨.data, d.index, d.bytes.length, 4, .symbol (Text.trimmed l.value), l.line⟩]) := by
  obtain ⟨d₁, hlabel, hdatum⟩ := bind_ok_iff.mp h
  obtain ⟨o, ho, hlabel⟩ := bind_ok_iff.mp hlabel
  cases hlabel
  have hsymbol := (define_kept ho).1
  obtain ⟨_, rfl⟩ := define_eq_ok.mp ho
  obtain ⟨hsymbols, hcases⟩ := datum_cases hdatum
  rw [hsymbols]
  exact ⟨hsymbol, hcases⟩

theorem constants_area {a : Area} (h : d.area a = .ok d') : d'.constants = d.constants := by
  obtain ⟨d₁, d₂, hrecords, hpool, rfl⟩ := area_cases h
  exact ((records_extends hrecords).trans hpool).constants

theorem constants_areas {areas : List Area} (h : areas.foldlM area d = .ok d') :
    d'.constants = d.constants :=
  foldlM_rel (R := fun d d' : Draft => d'.constants = d.constants) (fun _ => rfl)
    (fun h h' => h'.trans h) (fun _ _ _ _ => constants_area) h

end Object.Draft

namespace Object

/-- An object with a literal at an offset of a section: a number, or a word for the value of a
symbol. -/
structure LiteralAt (o : Object) (k offset : Nat) (constants : Constants) (l : Literal) : Prop where
  inside : ∃ s, o.sections[k]? = some s ∧ offset + 4 ≤ s.size
  label : ∃ n, l.label = literalLabel n
  symbol : o.symbols.get? l.label = some (.address (some k) offset)
  number : ∀ v, constants.value? l.value = some v →
    Width.word.dataBytes v = .ok (((o.body k).drop offset).take 4) ∧
    ∀ r ∈ o.relocations, ∀ n < 4, ¬r.Covers k (offset + n)
  named : constants.value? l.value = none → Operand.isLabel l.value = true ∧
    ⟨.data, k, offset, 4, .symbol (Text.trimmed l.value), l.line⟩ ∈ o.relocations

theorem literalAt_of_pool {p : Program} {i : Nat} {a : Area} {c d e d₁ d₂ : Draft}
    (ha : p.areas[i]? = some a) (hconstants : p.constants.foldlM Draft.constant {} = .ok c)
    (htake : (p.areas.take i).foldlM Draft.area c = .ok d)
    (hrecords : a.records.foldlM Draft.record d = .ok e) (hpool : e.flushPool a.kind = .ok d₁)
    (hdrop : (p.areas.drop (i + 1)).foldlM Draft.area (d₁.finish a) = .ok d₂) {l : Literal}
    (hl : l ∈ e.pool) : ∃ offset, d₂.object.LiteralAt i offset c.constants l := by
  obtain ⟨n, hn⟩ := List.mem_iff_getElem?.mp hl
  rw [Draft.flushPool_eq e a.kind (List.ne_nil_of_mem hl)] at hpool
  obtain ⟨e₁, e₂, hearlier, hliteral, hlater⟩ := foldlM_getElem? hn hpool
  -- What is there before the literal, the literal, and what comes after it.
  have hform := Draft.areas_wellFormed htake (Draft.constants_wellFormed hconstants)
  have hext := (Draft.records_extends hrecords).trans
    ((e.poolBase_extends a.kind).trans (Draft.poolLiterals_extends hearlier))
  have hstep := Draft.poolLiteral_extends hliteral
  have hext' := Draft.poolLiterals_extends hlater
  have hcont := Draft.areas_continues hdrop
  have hindex₀ := Draft.index_eq_of_take ha hform
  have hindex := hext.index_eq.trans hindex₀
  have hconstants' : e₁.constants = c.constants :=
    hext.constants.trans (Draft.constants_areas htake)
  obtain ⟨hsection, hbody⟩ := Draft.body_of_finish (hext.trans (hstep.trans hext')) hcont
  obtain ⟨more, hmore⟩ := hext'.bytes
  obtain ⟨hsymbol, word, own, hlen, hbytes, hrelocs, hnumber, hnamed⟩ :=
    Draft.poolLiteral_cases hliteral
  obtain ⟨hown, hothers⟩ := Draft.not_covers_of_step hform hext hstep hext' hcont hrelocs
  rw [hconstants', hindex] at hnamed
  rw [hconstants'] at hnumber
  rw [hindex₀] at hsection hbody hothers
  rw [hbytes] at hmore
  rw [hindex] at hsymbol
  have hword : (((d₂.object.body i).drop e₁.bytes.length).take 4) = word := by
    rw [hbody, ← hmore, List.append_assoc, List.drop_left, ← hlen, List.take_left]
  obtain ⟨_, hempty⟩ := Draft.defines_before hconstants htake
  have hnumbered := Draft.records_numbered hrecords (Draft.numbered_of_pool hempty)
  refine ⟨e₁.bytes.length, ?_⟩
  constructor
  case inside =>
    refine ⟨_, hsection, ?_⟩
    rw [← hmore, List.length_append, List.length_append, hlen]
    exact Nat.le_add_right _ _
  case label => exact ⟨_, hnumbered.label hn⟩
  case symbol =>
    have hlabels : ∀ {k l}, (e.pool.drop (n + 1))[k]? = some l →
        l.label = literalLabel (d.literals + (n + 1) + k) := by
      intro k l hl
      rw [List.getElem?_drop] at hl
      rw [hnumbered.label hl, Nat.add_assoc d.literals]
    obtain ⟨_, hrest, _⟩ := Draft.areas_defines hdrop rfl
    exact hrest.kept ((Draft.poolLiterals_defines hlater hlabels).kept hsymbol)
  case number =>
    intro v hv
    obtain ⟨hdata, rfl⟩ := hnumber v hv
    refine ⟨hword ▸ hdata, ?_⟩
    intro r' hr' k hk
    rcases hothers r' hr' with hnone | hfree
    · cases hnone
    · apply hfree _ (Nat.le_add_right _ _)
      rw [hbytes, List.length_append, hlen]
      exact Nat.add_lt_add_left hk _
  case named =>
    intro hnone
    obtain ⟨hlabel, rfl⟩ := hnamed hnone
    exact ⟨hlabel, hown _ (.head _)⟩

theorem ofProgram_literal {p : Program} {o : Object} (ho : ofProgram p = .ok o) {i j : Nat}
    {a : Area} {r : Record} (ha : p.areas[i]? = some a) (hr : a.records[j]? = some r)
    {d d' : Draft} (hd : Draft.before p i j = .ok d) (hd' : d.record r = .ok d') {l : Literal}
    (hl : l ∈ d'.pool) :
    ∃ c offset, p.constants.foldlM Draft.constant {} = .ok c ∧
      o.LiteralAt i offset c.constants l := by
  obtain ⟨c, d₀, e, d₁, d₂, hconstants, htake, hrecords, hpool, hdrop, rfl⟩ :=
    Draft.ofProgram_split ho ha
  obtain ⟨d₃, d₄, hbefore, hrecord, hafter⟩ := foldlM_getElem? hr hrecords
  cases hd.symm.trans (Draft.before_eq ha hconstants htake hbefore)
  cases hd'.symm.trans hrecord
  have hl := (Draft.records_pool hafter).subset hl
  obtain ⟨offset, hliteral⟩ := literalAt_of_pool ha hconstants htake hrecords hpool hdrop hl
  exact ⟨c, offset, hconstants, hliteral⟩

/-- Areas define addresses only. -/
theorem constant_of_areas {areas : List Area} {d d' : Draft} {name : String} {v : Int}
    (h : areas.foldlM Draft.area d = .ok d')
    (hmem : (name, .constant v) ∈ d'.object.symbols.entries) :
    (name, .constant v) ∈ d.object.symbols.entries := by
  refine foldlM_rel (R := fun d d' : Draft =>
    (name, Symbol.constant v) ∈ d'.object.symbols.entries →
      (name, Symbol.constant v) ∈ d.object.symbols.entries)
    (fun _ => id) (fun h h' => h ∘ h') ?_ h hmem
  intro a _ d d' ha hmem
  obtain ⟨d₁, d₂, hrecords, hpool, rfl⟩ := Draft.area_cases ha
  rcases ((Draft.records_extends hrecords).trans hpool).symbols _ hmem with hold | ⟨n, hnew, _⟩
  · exact hold
  · cases hnew

theorem ofProgram_mem_constants {p : Program} {o : Object} (h : ofProgram p = .ok o) {name : String}
    {v : Int} (hmem : (name, .constant v) ∈ o.symbols.entries) :
    ∃ c ∈ p.constants, c.name = name := by
  obtain ⟨d, hconstants, h⟩ := bind_ok_iff.mp h
  obtain ⟨d', hareas, h⟩ := bind_ok_iff.mp h
  cases h
  have hold := (Table.get?_eq_some_iff _).mpr (constant_of_areas hareas hmem)
  have hcontains := (Table.contains_iff _).mpr ⟨_, hold⟩
  rcases (Draft.constants_defines hconstants).1.contains_iff.mp hcontains with hname | hname | hname
  · exact List.mem_map.mp hname
  · cases hname
  · cases not_contains_empty name hname

theorem constants_get? {cs : List Constant} {d d' : Draft}
    (h : cs.foldlM Draft.constant d = .ok d') (name : String) :
    d'.constants.get? name =
      ((cs.find? (·.name = name)).map (·.value)).or (d.constants.get? name) := by
  induction cs generalizing d with
  | nil =>
    cases h
    rfl
  | cons c cs ih =>
    obtain ⟨d₁, hc, h⟩ := bind_ok_iff.mp h
    have hfresh := (Draft.constants_defines h).1.fresh
    have hdefined := (Draft.constant_defines hc).1
    obtain ⟨o, ho, hc⟩ := bind_ok_iff.mp hc
    cases hc
    rw [ih h, Table.get?_insert]
    by_cases hname : c.name = name
    · have hnone : cs.find? (·.name = name) = none := by
        rw [List.find?_eq_none]
        intro c' hc' hname'
        have hold := hdefined.contains_iff.mpr (.inl (List.mem_singleton.mpr rfl))
        rw [hfresh c.name (List.mem_map.mpr ⟨c', hc', ?_⟩)] at hold
        · cases hold
        · rw [hname]
          exact of_decide_eq_true hname'
      simp [hname, hnone]
    · have hne : ¬compare name c.name = .eq := fun heq =>
        hname (Std.LawfulEqCmp.eq_of_compare heq).symm
      simp [hname, hne]

end Object

namespace Program

/-- The number that an expression stands for: a numeral, or the value of the constant of that name,
after any marks `#`. -/
def number? (p : Program) (expr : String) : Option Int :=
  let name := String.ofList (Source.dropHashes (Text.trim expr.toList))
  (Operand.number? name).or ((p.constants.find? (·.name = name)).map (·.value))

theorem value?_constants {p : Program} {c : Object.Draft}
    (h : p.constants.foldlM Object.Draft.constant {} = .ok c) (expr : String) :
    c.constants.value? expr = p.number? expr := by
  rw [Constants.value?, number?, Object.constants_get? h]
  dsimp only
  rw [show ({} : Object.Draft).constants.get? _ = none from rfl, Option.or_none]

/-- What an expression stands for in the object of a program: a number, or else the address of the
record with that label or of the literal with that label. -/
inductive Denotes (p : Program) (o : Object) (expr : String) : Int → Prop
  | number {v : Int} (value : p.number? expr = some v) : p.Denotes o expr v
  | label {i j : Nat} {a : Area} {r : Record} {m : Mark} (value : p.number? expr = none)
      (area : p.areas[i]? = some a) (record : a.records[j]? = some r)
      (name : r.label = some (Text.trimmed expr))
      (mark : o.marks[p.recordNumber i j]? = some m) :
      p.Denotes o expr (o.addressOf i + m.offset)
  | literal {k : Nat} {offset : Int} (value : p.number? expr = none)
      (name : Object.isProgramSymbol (Text.trimmed expr) = false)
      (symbol : o.symbols.get? (Text.trimmed expr) = some (.address (some k) offset)) :
      p.Denotes o expr (o.addressOf k + offset)

variable {p : Program} {o : Object} {expr : String}

theorem Denotes.eq_valueOf {v : Int} (ho : Object.ofProgram p = .ok o) (h : p.Denotes o expr v) :
    p.number? expr = some v ∨ p.number? expr = none ∧
      ∃ symbol, o.symbols.get? (Text.trimmed expr) = some symbol ∧ o.valueOf symbol = v := by
  cases h with
  | number value => exact .inl value
  | label value area record name mark =>
    obtain ⟨d, _, hmark, hsymbol⟩ := Object.ofProgram_label ho area record name
    cases mark.symm.trans hmark
    exact .inr ⟨value, _, hsymbol, rfl⟩
  | literal value name symbol => exact .inr ⟨value, _, symbol, rfl⟩

theorem Denotes.unique {v v' : Int} (ho : Object.ofProgram p = .ok o) (h : p.Denotes o expr v)
    (h' : p.Denotes o expr v') : v' = v := by
  rcases h.eq_valueOf ho with hv | ⟨hnone, symbol, hsymbol, rfl⟩
  · rcases h'.eq_valueOf ho with hv' | ⟨hnone', _⟩
    · exact Option.some.inj (hv'.symm.trans hv)
    · cases hnone'.symm.trans hv
  · rcases h'.eq_valueOf ho with hv' | ⟨_, symbol', hsymbol', rfl⟩
    · cases hnone.symm.trans hv'
    · cases hsymbol.symm.trans hsymbol'
      rfl

theorem number?_of_constant {c : Constant} (hc : c ∈ p.constants)
    (hlabel : Operand.isLabel expr = true) (hname : c.name = Text.trimmed expr) :
    p.number? expr ≠ none := by
  have hhashes : Source.dropHashes (Text.trim expr.toList) = Text.trim expr.toList := by
    unfold Operand.isLabel at hlabel
    split at hlabel
    · cases hlabel
    case h_2 first rest htrim =>
      have hstart : (first == '#') = false := by
        rw [beq_eq_false_iff_ne]
        rintro rfl
        cases hlabel
      rw [htrim, Source.dropHashes, List.dropWhile_cons_of_neg (by simp [hstart])]
  rw [number?, hhashes]
  intro hnone
  have hfind := Option.map_eq_none_iff.mp (Option.or_eq_none_iff.mp hnone).2
  rw [List.find?_eq_none] at hfind
  exact hfind c hc (decide_eq_true hname)

theorem denotes_of_symbol (ho : Object.ofProgram p = .ok o) (hnone : p.number? expr = none)
    (hlabel : Operand.isLabel expr = true) {symbol : Symbol}
    (hsymbol : o.symbols.get? (Text.trimmed expr) = some symbol) :
    p.Denotes o expr (o.valueOf symbol) := by
  have hconstant {c : Constant} (hc : c ∈ p.constants) : c.name ≠ Text.trimmed expr := fun hname =>
    number?_of_constant hc hlabel hname hnone
  have hform := Object.ofProgram_wellFormed ho
  have hmem := (Table.get?_eq_some_iff _).mp hsymbol
  cases symbol with
  | constant v =>
    obtain ⟨c, hc, hname⟩ := Object.ofProgram_mem_constants ho hmem
    cases hconstant hc hname
  | address base offset =>
    obtain ⟨k, s, rfl, _⟩ := hform.symbol _ base offset hmem
    obtain ⟨count, hdefines⟩ := Object.ofProgram_defines ho
    have hcontains := (Table.contains_iff _).mpr ⟨_, hsymbol⟩
    rcases hdefines.contains_iff.mp hcontains with hname | hname | hname
    · rcases List.mem_append.mp hname with hname | hname
      · obtain ⟨c, hc, hname⟩ := List.mem_map.mp hname
        cases hconstant hc hname
      · obtain ⟨a, ha, hname⟩ := List.mem_flatMap.mp hname
        obtain ⟨r, hr, hname⟩ := List.mem_filterMap.mp hname
        obtain ⟨i, ha⟩ := List.mem_iff_getElem?.mp ha
        obtain ⟨j, hr⟩ := List.mem_iff_getElem?.mp hr
        obtain ⟨d, _, hmark, hsymbol'⟩ := Object.ofProgram_label ho ha hr hname
        cases hsymbol.symm.trans hsymbol'
        exact .label hnone ha hr hname hmark
    · obtain ⟨n, _, hname⟩ := List.mem_map.mp hname
      refine .literal hnone ?_ hsymbol
      rw [← hname]
      exact Object.isProgramSymbol_literalLabel n
    · cases Object.not_contains_empty _ hname

end Program

end Thumb
