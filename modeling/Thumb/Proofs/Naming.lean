import Thumb.Proofs.InstructionPlace
import Thumb.Proofs.Table

namespace Thumb

/-- The names that a program gives to constants and to places, in the order of their definitions. -/
def Program.names (p : Program) : List String :=
  p.constants.map (·.name) ++ p.areas.flatMap fun a => a.records.filterMap (·.label)

def Record.definition (r : Record) : Option (String × Nat) :=
  r.label.map (·, r.line)

/-- The names of a program with the lines that their definitions are reported at. -/
def Program.definitions (p : Program) : List (String × Nat) :=
  p.constants.map (fun c => (c.name, c.line)) ++
    p.areas.flatMap fun a => a.records.filterMap Record.definition

theorem map_definition (rs : List Record) :
    (rs.filterMap Record.definition).map (·.1) = rs.filterMap (·.label) := by
  rw [List.map_filterMap]
  congr
  funext r
  rw [Record.definition, Option.map_map]
  exact congrFun Option.map_id r.label

theorem Program.map_definitions (p : Program) : p.definitions.map (·.1) = p.names := by
  rw [definitions, names, List.map_append, List.map_map, List.map_flatMap]
  simp only [map_definition]
  rfl

/-- A definition among others of a name that one before it defines. -/
def Redefines (definitions : List (String × Nat)) (name : String) (line : Nat) : Prop :=
  ∃ before after, definitions = before ++ (name, line) :: after ∧ name ∈ before.map (·.1)

theorem Redefines.append_right {definitions : List (String × Nat)} {name : String} {line : Nat}
    (h : Redefines definitions name line) (more : List (String × Nat)) :
    Redefines (definitions ++ more) name line := by
  obtain ⟨before, after, rfl, hbefore⟩ := h
  exact ⟨before, after ++ more, List.append_assoc _ _ _, hbefore⟩

theorem Redefines.two_le_count {definitions : List (String × Nat)} {name : String} {line : Nat}
    (h : Redefines definitions name line) : 2 ≤ (definitions.map (·.1)).count name := by
  obtain ⟨before, after, rfl, hbefore⟩ := h
  have hpos := List.count_pos_iff.mpr hbefore
  rw [List.map_append, List.map_cons, List.count_append, List.count_cons_self]
  omega

def AssemblyError.isDuplicate : AssemblyError → Bool
  | .duplicateSymbol .. => true
  | _ => false

def literalLabel (n : Nat) : String :=
  s!"$lit{n}"

theorem toList_literalLabel (n : Nat) :
    (literalLabel n).toList = '$' :: 'l' :: 'i' :: 't' :: Nat.toDigits 10 n := by
  simp only [literalLabel, String.toList_append, Nat.toString_eq_ofList_toDigits,
    String.toList_ofList]
  rfl

theorem literalLabel_injective {m n : Nat} (h : literalLabel m = literalLabel n) : m = n := by
  have hchars := congrArg String.toList h
  rw [toList_literalLabel, toList_literalLabel] at hchars
  simp only [List.cons.injEq, true_and] at hchars
  apply Nat.repr_injective
  rw [Nat.repr, Nat.repr, hchars]

namespace Object

theorem isProgramSymbol_literalLabel (n : Nat) : isProgramSymbol (literalLabel n) = false := by
  rw [isProgramSymbol, toList_literalLabel]
  rfl

/-- What a number of definitions does to the symbols: those of the given labels and of the literals
with the given numbers are new. -/
structure Defines (o : Object) (labels : List String) (literals : List Nat) (o' : Object) :
    Prop where
  kept {name : String} {symbol : Symbol} (h : o.symbols.get? name = some symbol) :
    o'.symbols.get? name = some symbol
  contains_iff {name : String} : o'.symbols.contains name = true ↔
    name ∈ labels ∨ name ∈ literals.map literalLabel ∨ o.symbols.contains name = true
  fresh : ∀ name ∈ labels, o.symbols.contains name = false
  nodup : labels.Nodup

namespace Defines

variable {o o' o'' : Object} {labels labels' : List String} {literals literals' : List Nat}

theorem of_symbols (h : o'.symbols = o.symbols) : o.Defines [] [] o' where
  kept hsymbol := by rw [h, hsymbol]
  contains_iff := by simp [h]
  fresh := nofun
  nodup := .nil

theorem not_contains (h : o.Defines labels literals o') {name : String}
    (hnew : o'.symbols.contains name = false) : o.symbols.contains name = false := by
  rw [Bool.eq_false_iff, Ne, h.contains_iff] at hnew
  rw [Bool.eq_false_iff]
  exact fun hold => hnew (.inr (.inr hold))

theorem trans (h : o.Defines labels literals o') (h' : o'.Defines labels' literals' o'') :
    o.Defines (labels ++ labels') (literals ++ literals') o'' where
  kept hsymbol := h'.kept (h.kept hsymbol)
  contains_iff {name} := by
    rw [h'.contains_iff, h.contains_iff]
    rw [List.map_append, List.mem_append, List.mem_append]
    tauto
  fresh name hname := by
    rcases List.mem_append.mp hname with hname | hname
    · exact h.fresh name hname
    · exact h.not_contains (h'.fresh name hname)
  nodup := by
    rw [List.nodup_append]
    refine ⟨h.nodup, h'.nodup, ?_⟩
    rintro name hname _ hname' rfl
    have hnew := h'.fresh name hname'
    rw [h.contains_iff.mpr (.inl hname)] at hnew
    cases hnew

end Defines

variable {o o' : Object}

theorem define_kept {name : String} {symbol : Symbol} {line : Nat}
    (h : o.define name symbol line = .ok o') :
    o'.symbols.get? name = some symbol ∧
    (∀ {name' symbol'}, o.symbols.get? name' = some symbol' →
      o'.symbols.get? name' = some symbol') ∧
    (∀ {name'}, o'.symbols.contains name' = true ↔
      name' = name ∨ o.symbols.contains name' = true) ∧
    o.symbols.contains name = false := by
  obtain ⟨hnew, rfl⟩ := Draft.define_eq_ok.mp h
  refine ⟨?_, ?_, Table.contains_insert _ _ _ _, hnew⟩
  · rw [Table.get?_insert, if_pos Std.compare_self]
  · intro name' symbol' hsymbol
    have hne : name' ≠ name := by
      rintro rfl
      rw [Table.contains, hsymbol] at hnew
      cases hnew
    rw [Table.get?_insert, if_neg (mt Std.LawfulEqCmp.eq_of_compare hne), hsymbol]

theorem define_label {name : String} {symbol : Symbol} {line : Nat}
    (h : o.define name symbol line = .ok o') : o.Defines [name] [] o' := by
  obtain ⟨_, hkept, hcontains, hnew⟩ := define_kept h
  refine ⟨hkept, ?_, ?_, List.nodup_singleton name⟩
  · intro name'
    rw [hcontains]
    simp
  · intro name' hname
    cases List.mem_singleton.mp hname
    exact hnew

theorem define_literal {n : Nat} {symbol : Symbol} {line : Nat}
    (h : o.define (literalLabel n) symbol line = .ok o') : o.Defines [] [n] o' := by
  obtain ⟨_, hkept, hcontains, _⟩ := define_kept h
  refine ⟨hkept, ?_, nofun, .nil⟩
  intro name'
  rw [hcontains]
  simp

theorem define_error {name : String} {symbol : Symbol} {line : Nat} {e : AssemblyError}
    (h : o.define name symbol line = .error e) :
    e = .duplicateSymbol line name ∧ o.symbols.contains name = true := by
  unfold define at h
  split at h
  case isTrue hold =>
    cases h
    exact ⟨rfl, hold⟩
  case isFalse => cases h

namespace Draft

/-- What adds data to a draft adds bytes and relocations and nothing else, and does not fail because
of a definition. -/
inductive Fills (d : Draft) : Except AssemblyError Draft → Prop
  | ok (bytes : List Byte) (relocations : List Relocation) :
      d.Fills (.ok { d with bytes, object := { d.object with relocations } })
  | error {e : AssemblyError} (h : e.isDuplicate = false) : d.Fills (.error e)

namespace Fills

variable {d d' : Draft}

theorem foldlM {α : Type} {f : Draft → α → Except AssemblyError Draft} {l : List α}
    (hf : ∀ a d, Fills d (f d a)) : d.Fills (l.foldlM f d) := by
  induction l generalizing d with
  | nil => exact .ok d.bytes d.object.relocations
  | cons a l ih =>
    have hfirst := hf a d
    rw [List.foldlM_cons]
    generalize f d a = x at hfirst ⊢
    cases hfirst with
    | error h => exact .error h
    | ok bytes relocations =>
      have hrest := ih (d := { d with bytes, object := { d.object with relocations } })
      change d.Fills (l.foldlM f _)
      generalize l.foldlM f _ = y at hrest ⊢
      cases hrest with
      | error h => exact .error h
      | ok bytes relocations => exact .ok bytes relocations

theorem symbols_eq (h : d.Fills (.ok d')) : d'.object.symbols = d.object.symbols := by
  cases h
  rfl

theorem pool_eq (h : d.Fills (.ok d')) : d'.pool = d.pool := by
  cases h
  rfl

theorem literals_eq (h : d.Fills (.ok d')) : d'.literals = d.literals := by
  cases h
  rfl

theorem isDuplicate_eq {e : AssemblyError} (h : d.Fills (.error e)) : e.isDuplicate = false := by
  cases h
  assumption

end Fills

theorem number_error {width : Width} {value : Int} {mnemonic operand : String} {line : Nat}
    {e : AssemblyError} (h : number width value mnemonic operand line = .error e) :
    e.isDuplicate = false := by
  unfold number at h
  split at h
  · cases h
  · cases h
    rfl

theorem datum_fills (d : Draft) (width : Width) (mnemonic operand : String) (line : Nat) :
    d.Fills (d.datum width mnemonic operand line) := by
  unfold datum
  split
  case h_1 value _ =>
    cases hn : number width value mnemonic operand line with
    | error e => exact .error (number_error hn)
    | ok bytes => exact .ok _ _
  case h_2 =>
    split
    · exact .ok _ _
    · exact .error rfl

theorem data_fills (d : Draft) (width : Width) (r : Record) : d.Fills (d.data width r) := by
  unfold data
  split
  · exact .error rfl
  · apply Fills.foldlM
    intro operand d
    unfold dataOperand
    split
    · exact .ok _ _
    · exact d.datum_fills _ _ _ _

theorem fillByte_error {d : Draft} {r : Record} {fill : Option String} {e : AssemblyError}
    (h : d.fillByte r fill = .error e) : e.isDuplicate = false := by
  unfold fillByte at h
  split at h
  · cases h
  · split at h
    · exact number_error h
    · cases h
      rfl

theorem space_fills (d : Draft) (filled : Bool) (r : Record) : d.Fills (d.space filled r) := by
  unfold space
  extract_lets rest
  have hrest (x : String × Option String) : d.Fills (rest x) := by
    unfold rest
    split
    case _ operand fill =>
      split
      · exact .error rfl
      · split
        · exact .error rfl
        · cases hfill : d.fillByte r fill with
          | error e => exact .error (fillByte_error hfill)
          | ok bytes => exact .ok _ _
  clear_value rest
  split
  · exact hrest _
  · exact hrest _
  · exact .error rfl

theorem alignTo_fills (d : Draft) (r : Record) : d.Fills (d.alignTo r) := by
  unfold alignTo
  split
  · exact .ok _ _
  · split
    · exact .ok _ _
    · exact .error rfl
  · exact .error rfl

theorem instruction_fills (d : Draft) (r : Record) :
    (d.operands r.line r.operands).2.Fills (d.instruction r) := by
  cases hd : d.instruction r with
  | ok d' =>
    obtain ⟨form, opcode, _, _, rfl⟩ := instruction_cases hd
    cases form.needsLabels with
    | false => exact .ok _ _
    | true => exact .ok _ _
  | error e =>
    simp only [instruction, bind_error_iff, mapError_error_iff] at hd
    rcases hd with ⟨_, _, rfl⟩ | ⟨form, _, ⟨_, _, rfl⟩ | ⟨opcode, _, hd⟩⟩
    · exact .error rfl
    · exact .error rfl
    · cases hd

theorem body_fills (d : Draft) (r : Record) :
    ∃ d₁ : Draft, (d₁ = d ∨ d₁ = (d.operands r.line r.operands).2) ∧ d₁.Fills (d.body r) := by
  unfold body
  split
  · exact ⟨d, .inl rfl, d.data_fills _ r⟩
  · exact ⟨d, .inl rfl, d.space_fills _ r⟩
  · exact ⟨d, .inl rfl, d.alignTo_fills r⟩
  · exact ⟨_, .inr rfl, d.instruction_fills r⟩

/-- The literals of the next section have the numbers from a first one on. -/
structure Numbered (first : Nat) (d : Draft) : Prop where
  literals : d.literals = first + d.pool.length
  label {k : Nat} {l : Literal} (h : d.pool[k]? = some l) : l.label = literalLabel (first + k)

theorem literal_numbered {first : Nat} {d : Draft} (h : d.Numbered first) (value : String)
    (line : Nat) : (d.literal value line).2.Numbered first := by
  unfold literal
  split
  · exact h
  · constructor
    · simp only [List.length_append, List.length_singleton]
      rw [h.literals, Nat.add_assoc]
    · intro k l hl
      rw [List.getElem?_append] at hl
      split at hl
      · exact h.label hl
      · have hk := (List.getElem?_eq_some_iff.mp hl).1
        rw [List.length_singleton] at hk
        obtain rfl : k = d.pool.length := by omega
        rw [Nat.sub_self] at hl
        cases hl
        rw [← h.literals]
        rfl

theorem operand_numbered {first : Nat} {d : Draft} (h : d.Numbered first) (line : Nat)
    (op : String) : (d.operand line op).2.Numbered first := by
  unfold operand
  split
  · exact literal_numbered h _ line
  · exact h

theorem operands_numbered {first : Nat} {d : Draft} (h : d.Numbered first) (line : Nat)
    (ops : List String) : (d.operands line ops).2.Numbered first := by
  induction ops generalizing d with
  | nil => exact h
  | cons op ops ih => exact ih (operand_numbered h line op)

theorem object_operands (d : Draft) (line : Nat) (ops : List String) :
    (d.operands line ops).2.object = d.object := by
  obtain ⟨pool, literals, heq⟩ := d.operands_eq line ops
  rw [heq]

section Body

variable {d d' : Draft} {r : Record}

theorem symbols_body (h : d.body r = .ok d') : d'.object.symbols = d.object.symbols := by
  obtain ⟨d₁, hd₁, hfills⟩ := d.body_fills r
  rw [h] at hfills
  rw [hfills.symbols_eq]
  rcases hd₁ with rfl | rfl
  · rfl
  · rw [object_operands]

theorem body_numbered {first : Nat} (h : d.body r = .ok d') (hd : d.Numbered first) :
    d'.Numbered first := by
  obtain ⟨d₁, hd₁, hfills⟩ := d.body_fills r
  rw [h] at hfills
  have hd₁ : d₁.Numbered first := by
    rcases hd₁ with rfl | rfl
    · exact hd
    · exact operands_numbered hd _ _
  cases hfills
  exact ⟨hd₁.literals, hd₁.label⟩

theorem body_error {e : AssemblyError} (h : d.body r = .error e) : e.isDuplicate = false := by
  obtain ⟨d₁, _, hfills⟩ := d.body_fills r
  rw [h] at hfills
  exact hfills.isDuplicate_eq

end Body

/-- Aligns a draft for a record and defines the label of the record there. -/
def place (d : Draft) (r : Record) : Except AssemblyError Draft :=
  match r.label with
  | some name => (d.align r.kind.alignment).label name r.line
  | none => .ok (d.align r.kind.alignment)

theorem record_eq (d : Draft) (r : Record) :
    d.record r = d.place r >>= fun d => (d.mark r.line).body r := by
  unfold record place
  cases r.label with
  | some name => rfl
  | none => rfl

section Record

variable {d d' : Draft} {r : Record}

theorem place_defines (h : d.place r = .ok d') : d.object.Defines r.label.toList [] d'.object := by
  unfold place at h
  split at h
  case h_1 name hname =>
    obtain ⟨o, ho, h⟩ := bind_ok_iff.mp h
    cases h
    rw [hname]
    exact define_label ho
  case h_2 hname =>
    cases h
    rw [hname]
    exact .of_symbols rfl

theorem place_numbered {first : Nat} (h : d.place r = .ok d') (hd : d.Numbered first) :
    d'.Numbered first := by
  unfold place at h
  split at h
  · obtain ⟨o, _, h⟩ := bind_ok_iff.mp h
    cases h
    exact ⟨hd.literals, hd.label⟩
  · cases h
    exact ⟨hd.literals, hd.label⟩

theorem place_symbol {name : String} (h : d.place r = .ok d') (hname : r.label = some name) :
    d'.object.symbols.get? name =
      some (.address (some d.index) (d.align r.kind.alignment).bytes.length) := by
  rw [place, hname] at h
  obtain ⟨o, ho, h⟩ := bind_ok_iff.mp h
  cases h
  exact (define_kept ho).1

theorem constants_place (h : d.place r = .ok d') : d'.constants = d.constants := by
  unfold place at h
  split at h
  · exact (label_extends h).constants
  · cases h
    rfl

theorem place_error {e : AssemblyError} (h : d.place r = .error e) :
    ∃ name, r.label = some name ∧ e = .duplicateSymbol r.line name ∧
      d.object.symbols.contains name = true := by
  unfold place at h
  split at h
  case h_1 name hname =>
    rcases bind_error_iff.mp h with h | ⟨o, _, h⟩
    · exact ⟨name, hname, define_error h⟩
    · cases h
  case h_2 => cases h

theorem record_defines (h : d.record r = .ok d') :
    d.object.Defines r.label.toList [] d'.object := by
  rw [record_eq] at h
  obtain ⟨d₁, hplace, hbody⟩ := bind_ok_iff.mp h
  have hsymbols := symbols_body hbody
  have hlabel := (place_defines hplace).trans (.of_symbols hsymbols)
  rwa [List.append_nil] at hlabel

theorem record_numbered {first : Nat} (h : d.record r = .ok d') (hd : d.Numbered first) :
    d'.Numbered first := by
  rw [record_eq] at h
  obtain ⟨d₁, hplace, hbody⟩ := bind_ok_iff.mp h
  have hd₁ := place_numbered hplace hd
  exact body_numbered hbody ⟨hd₁.literals, hd₁.label⟩

theorem record_symbol {name : String} (h : d.record r = .ok d') (hname : r.label = some name) :
    d'.object.symbols.get? name =
      some (.address (some d.index) (d.align r.kind.alignment).bytes.length) := by
  rw [record_eq] at h
  obtain ⟨d₁, hplace, hbody⟩ := bind_ok_iff.mp h
  have hplaced := place_symbol hplace hname
  rw [symbols_body hbody]
  exact hplaced

theorem record_error {e : AssemblyError} (h : d.record r = .error e) (he : e.isDuplicate = true) :
    ∃ name, r.label = some name ∧ e = .duplicateSymbol r.line name ∧
      d.object.symbols.contains name = true := by
  rw [record_eq] at h
  rcases bind_error_iff.mp h with h | ⟨d₁, _, h⟩
  · exact place_error h
  · rw [body_error h] at he
    cases he

theorem records_defines {rs : List Record} (h : rs.foldlM record d = .ok d') :
    d.object.Defines (rs.filterMap (·.label)) [] d'.object := by
  induction rs generalizing d with
  | nil =>
    cases h
    exact .of_symbols rfl
  | cons r rs ih =>
    obtain ⟨d₁, hr, h⟩ := bind_ok_iff.mp h
    have hall := (record_defines hr).trans (ih h)
    rw [List.filterMap_cons]
    cases hlabel : r.label with
    | none =>
      rw [hlabel] at hall
      exact hall
    | some name =>
      rw [hlabel] at hall
      exact hall

theorem records_numbered {first : Nat} {rs : List Record} (h : rs.foldlM record d = .ok d')
    (hd : d.Numbered first) : d'.Numbered first :=
  foldlM_rel (R := fun d d' : Draft => d.Numbered first → d'.Numbered first) (fun _ => id)
    (fun h h' => h' ∘ h) (fun _ _ _ _ => record_numbered) h hd

end Record

section Pool

variable {d d' : Draft} {first n : Nat}

theorem poolLiteral_defines {l : Literal} (h : d.poolLiteral l = .ok d')
    (hl : l.label = literalLabel n) : d.object.Defines [] [n] d'.object := by
  obtain ⟨d₁, hlabel, hdatum⟩ := bind_ok_iff.mp h
  obtain ⟨o, ho, hlabel⟩ := bind_ok_iff.mp hlabel
  cases hlabel
  rw [hl] at ho
  have hfills := datum_fills { d with object := o } .word "DCD" l.value l.line
  rw [hdatum] at hfills
  exact (define_literal ho).trans (.of_symbols hfills.symbols_eq)

theorem poolLiteral_error {l : Literal} {e : AssemblyError} (h : d.poolLiteral l = .error e)
    (he : e.isDuplicate = true) : d.object.symbols.contains l.label = true := by
  rcases bind_error_iff.mp h with h | ⟨d₁, _, h⟩
  · rcases bind_error_iff.mp h with h | ⟨o, _, h⟩
    · exact (define_error h).2
    · cases h
  · have hfills := d₁.datum_fills .word "DCD" l.value l.line
    rw [h] at hfills
    rw [hfills.isDuplicate_eq] at he
    cases he

theorem poolLiterals_defines {pool : List Literal} (h : pool.foldlM poolLiteral d = .ok d')
    (hlabel : ∀ {k l}, pool[k]? = some l → l.label = literalLabel (first + k)) :
    d.object.Defines [] (List.range' first pool.length) d'.object := by
  induction pool generalizing d first with
  | nil =>
    cases h
    exact .of_symbols rfl
  | cons l pool ih =>
    obtain ⟨d₁, hl, h⟩ := bind_ok_iff.mp h
    rw [List.length_cons, List.range'_succ]
    refine (poolLiteral_defines hl (hlabel (k := 0) rfl)).trans (ih h ?_)
    intro k l' hl'
    rw [hlabel (k := k + 1) hl', Nat.add_right_comm, Nat.add_assoc]

theorem object_poolBase (d : Draft) (kind : SectionKind) : (d.poolBase kind).object = d.object := by
  cases kind with
  | code => rfl
  | data => rfl

theorem flushPool_defines {kind : SectionKind} (h : d.flushPool kind = .ok d')
    (hd : d.Numbered first) :
    d.object.Defines [] (List.range' first d.pool.length) d'.object := by
  by_cases hpool : d.pool = []
  · rw [flushPool, hpool] at h
    cases h
    rw [hpool]
    exact .of_symbols rfl
  · rw [flushPool_eq d kind hpool] at h
    rw [← d.object_poolBase kind]
    exact poolLiterals_defines h hd.label

theorem literals_poolLiteral {l : Literal} (h : d.poolLiteral l = .ok d') :
    d'.literals = d.literals := by
  obtain ⟨d₁, hlabel, hdatum⟩ := bind_ok_iff.mp h
  obtain ⟨o, _, hlabel⟩ := bind_ok_iff.mp hlabel
  cases hlabel
  have hfills := datum_fills { d with object := o } .word "DCD" l.value l.line
  rw [hdatum] at hfills
  exact hfills.literals_eq

theorem literals_flushPool {kind : SectionKind} (h : d.flushPool kind = .ok d') :
    d'.literals = d.literals := by
  by_cases hpool : d.pool = []
  · rw [flushPool, hpool] at h
    cases h
    rfl
  · rw [flushPool_eq d kind hpool] at h
    have hkept := foldlM_rel (R := fun d d' : Draft => d'.literals = d.literals) (fun _ => rfl)
      (fun h h' => h'.trans h) (fun _ _ _ _ => literals_poolLiteral) h
    rw [hkept]
    cases kind with
    | code => rfl
    | data => rfl

end Pool

section Program

variable {d d' : Draft}

theorem numbered_of_pool (h : d.pool = []) : d.Numbered d.literals := by
  constructor
  · rw [h, List.length_nil, Nat.add_zero]
  · intro k l hl
    rw [h] at hl
    cases hl

theorem area_defines {a : Area} (h : d.area a = .ok d') (hd : d.pool = []) :
    ∃ count, d.object.Defines (a.records.filterMap (·.label)) (List.range' d.literals count)
        d'.object ∧ d'.pool = [] ∧ d'.literals = d.literals + count := by
  obtain ⟨e, hrecords, h⟩ := bind_ok_iff.mp h
  obtain ⟨e', hpool, h⟩ := bind_ok_iff.mp h
  cases h
  have hnumbered := records_numbered hrecords (numbered_of_pool hd)
  have hall := (records_defines hrecords).trans (flushPool_defines hpool hnumbered)
  rw [List.append_nil, List.nil_append] at hall
  refine ⟨e.pool.length, ⟨hall.kept, hall.contains_iff, hall.fresh, hall.nodup⟩, rfl, ?_⟩
  exact (literals_flushPool hpool).trans hnumbered.literals

theorem areas_defines {areas : List Area} (h : areas.foldlM area d = .ok d') (hd : d.pool = []) :
    ∃ count, d.object.Defines (areas.flatMap fun a => a.records.filterMap (·.label))
        (List.range' d.literals count) d'.object ∧ d'.pool = [] ∧
      d'.literals = d.literals + count := by
  induction areas generalizing d with
  | nil =>
    cases h
    exact ⟨0, .of_symbols rfl, hd, rfl⟩
  | cons a areas ih =>
    obtain ⟨d₁, ha, h⟩ := bind_ok_iff.mp h
    obtain ⟨count, hfirst, hpool, hcount⟩ := area_defines ha hd
    obtain ⟨count', hrest, hpool', hcount'⟩ := ih h hpool
    have hall := hfirst.trans hrest
    rw [hcount, List.range'_append_1] at hall
    refine ⟨count + count', hall, hpool', ?_⟩
    rw [hcount', hcount, Nat.add_assoc]

theorem constant_defines {c : Constant} (h : d.constant c = .ok d') :
    d.object.Defines [c.name] [] d'.object ∧ d'.pool = d.pool ∧ d'.literals = d.literals := by
  obtain ⟨o, ho, h⟩ := bind_ok_iff.mp h
  cases h
  exact ⟨define_label ho, rfl, rfl⟩

theorem constants_defines {cs : List Constant} (h : cs.foldlM constant d = .ok d') :
    d.object.Defines (cs.map (·.name)) [] d'.object ∧ d'.pool = d.pool ∧
      d'.literals = d.literals := by
  induction cs generalizing d with
  | nil =>
    cases h
    exact ⟨.of_symbols rfl, rfl, rfl⟩
  | cons c cs ih =>
    obtain ⟨d₁, hc, h⟩ := bind_ok_iff.mp h
    obtain ⟨hfirst, hpool, hliterals⟩ := constant_defines hc
    obtain ⟨hrest, hpool', hliterals'⟩ := ih h
    exact ⟨hfirst.trans hrest, hpool'.trans hpool, hliterals'.trans hliterals⟩

theorem defines_before {cs : List Constant} {areas : List Area} {c : Draft}
    (hconstants : cs.foldlM constant {} = .ok c) (hareas : areas.foldlM area c = .ok d) :
    ({} : Object).Defines
        (cs.map (·.name) ++ areas.flatMap fun a => a.records.filterMap (·.label))
        (List.range' 0 d.literals) d.object ∧ d.pool = [] := by
  obtain ⟨hfirst, hpool, hliterals⟩ := constants_defines hconstants
  obtain ⟨count, hrest, hpool', hcount⟩ := areas_defines hareas hpool
  rw [hliterals] at hrest hcount
  rw [hcount, show ({} : Draft).literals = 0 from rfl, Nat.zero_add]
  exact ⟨hfirst.trans hrest, hpool'⟩

end Program

end Draft

theorem not_contains_empty (name : String) : ¬({} : Object).symbols.contains name = true :=
  nofun

theorem ofProgram_defines {p : Program} (h : ofProgram p = .ok o) :
    ∃ count, ({} : Object).Defines p.names (List.range' 0 count) o := by
  obtain ⟨c, hconstants, h⟩ := bind_ok_iff.mp h
  obtain ⟨d, hareas, h⟩ := bind_ok_iff.mp h
  cases h
  exact ⟨d.literals, (Draft.defines_before hconstants hareas).1⟩

/-- A literal has a new label, unless a label of the program takes it. -/
theorem flushPool_error {d : Draft} {labels : List String} {first : Nat} {kind : SectionKind}
    {e : AssemblyError} (h : d.flushPool kind = .error e) (hd : d.Numbered first)
    (hdefined : ({} : Object).Defines labels (List.range' 0 first) d.object)
    (hlabels : ∀ name ∈ labels, isProgramSymbol name = true) : e.isDuplicate = false := by
  have hpool : d.pool ≠ [] := by
    intro hpool
    rw [Draft.flushPool, hpool] at h
    cases h
  rw [Draft.flushPool_eq d kind hpool] at h
  obtain ⟨k, l, d₁, hl, hbefore, hfail⟩ := foldlM_error h
  rw [Bool.eq_false_iff]
  intro he
  have hk := (List.getElem?_eq_some_iff.mp hl).1
  -- The literals before it in the pool have smaller numbers.
  have hbelow : ∀ {k' l'}, (d.pool.take k)[k']? = some l' →
      l'.label = literalLabel (first + k') := by
    intro k' l' hl'
    have hk' := (List.getElem?_eq_some_iff.mp hl').1
    rw [List.length_take_of_le hk.le] at hk'
    rw [List.getElem?_take_of_lt hk'] at hl'
    exact hd.label hl'
  have hprefix := Draft.poolLiterals_defines hbefore hbelow
  rw [Draft.object_poolBase, List.length_take_of_le hk.le] at hprefix
  have hall := hdefined.trans hprefix
  have hold := Draft.poolLiteral_error hfail he
  rw [hd.label hl, hall.contains_iff, List.append_nil] at hold
  rcases hold with hold | hold | hold
  · have huser := hlabels _ hold
    rw [isProgramSymbol_literalLabel] at huser
    cases huser
  · obtain ⟨n, hn, heq⟩ := List.mem_map.mp hold
    rw [literalLabel_injective heq, List.mem_append, List.mem_range'_1, List.mem_range'_1] at hn
    omega
  · exact not_contains_empty _ hold

/-- A name that an area refuses as defined twice is that of one of its records, and is defined
before or by an earlier record. -/
theorem area_duplicate {d : Draft} {a : Area} {before : List (String × Nat)} {line : Nat}
    {name : String} (h : d.area a = .error (.duplicateSymbol line name)) (hpool : d.pool = [])
    (hdefined : ({} : Object).Defines (before.map (·.1)) (List.range' 0 d.literals) d.object)
    (hnames : ∀ name ∈ before.map (·.1) ++ a.records.filterMap (·.label),
      isProgramSymbol name = true) :
    Redefines (before ++ a.records.filterMap Record.definition) name line := by
  rcases bind_error_iff.mp h with h | ⟨e, hrecords, h⟩
  · obtain ⟨j, r, e, hr, hbefore, hfail⟩ := foldlM_error h
    obtain ⟨name, hlabel, heq, hold⟩ := Draft.record_error hfail rfl
    cases heq
    obtain ⟨hj, rfl⟩ := List.getElem?_eq_some_iff.mp hr
    have hdefined := hdefined.trans (Draft.records_defines hbefore)
    have hnow : a.records[j].definition = some (name, a.records[j].line) := by
      rw [Record.definition, hlabel, Option.map_some]
    have hmem : name ∈ a.records.filterMap (·.label) :=
      List.mem_filterMap.mpr ⟨_, List.getElem_mem hj, hlabel⟩
    refine ⟨before ++ (a.records.take j).filterMap Record.definition,
      (a.records.drop (j + 1)).filterMap Record.definition, ?_, ?_⟩
    · nth_rw 1 [← List.take_append_drop j a.records]
      rw [List.filterMap_append, List.drop_eq_getElem_cons hj, List.filterMap_cons_some hnow,
        List.append_assoc]
    · rw [List.map_append, map_definition]
      rw [hdefined.contains_iff, List.append_nil] at hold
      rcases hold with hold | hold | hold
      · exact hold
      · obtain ⟨n, _, rfl⟩ := List.mem_map.mp hold
        have huser := hnames _ (List.mem_append_right _ hmem)
        rw [isProgramSymbol_literalLabel] at huser
        cases huser
      · cases not_contains_empty _ hold
  · rcases bind_error_iff.mp h with h | ⟨e', _, h⟩
    · have hnumbered := Draft.records_numbered hrecords (Draft.numbered_of_pool hpool)
      have hdefined := hdefined.trans (Draft.records_defines hrecords)
      rw [List.append_nil] at hdefined
      cases flushPool_error h hnumbered hdefined hnames
    · cases h

theorem ofProgram_redefines {p : Program} {line : Nat} {name : String}
    (hnames : ∀ name ∈ p.names, isProgramSymbol name = true)
    (h : ofProgram p = .error (.duplicateSymbol line name)) :
    Redefines p.definitions name line := by
  rcases bind_error_iff.mp h with h | ⟨c, hconstants, h⟩
  · obtain ⟨i, c, d, hi, hbefore, hfail⟩ := foldlM_error h
    obtain ⟨hlt, rfl⟩ := List.getElem?_eq_some_iff.mp hi
    rcases bind_error_iff.mp hfail with hfail | ⟨o, _, hfail⟩
    · obtain ⟨heq, hold⟩ := define_error hfail
      cases heq
      apply Redefines.append_right
      refine ⟨(p.constants.take i).map fun c => (c.name, c.line),
        (p.constants.drop (i + 1)).map fun c => (c.name, c.line), ?_, ?_⟩
      · nth_rw 1 [← List.take_append_drop i p.constants]
        rw [List.map_append, List.drop_eq_getElem_cons hlt, List.map_cons]
      · rw [(Draft.constants_defines hbefore).1.contains_iff] at hold
        rw [List.map_map]
        rcases hold with hold | hold | hold
        · exact hold
        · cases hold
        · cases not_contains_empty _ hold
    · cases hfail
  · rcases bind_error_iff.mp h with h | ⟨d, _, h⟩
    · obtain ⟨i, a, d, ha, hareas, hfail⟩ := foldlM_error h
      obtain ⟨hdefined, hpool⟩ := Draft.defines_before hconstants hareas
      obtain ⟨hi, rfl⟩ := List.getElem?_eq_some_iff.mp ha
      have hbefore := Program.map_definitions ⟨p.areas.take i, p.constants⟩
      rw [Program.names] at hbefore
      rw [← hbefore] at hdefined
      rw [Program.names, ← List.take_append_drop i p.areas, List.flatMap_append,
        List.drop_eq_getElem_cons hi, List.flatMap_cons, ← List.append_assoc, ← List.append_assoc,
        ← hbefore] at hnames
      have htwice := area_duplicate hfail hpool hdefined
        fun name hname => hnames name (List.mem_append_left _ hname)
      rw [Program.definitions, ← List.take_append_drop i p.areas, List.flatMap_append,
        List.drop_eq_getElem_cons hi, List.flatMap_cons, ← List.append_assoc, ← List.append_assoc]
      exact htwice.append_right _
    · cases h

theorem ofProgram_duplicate {p : Program} {line : Nat} {name : String}
    (hnames : ∀ name ∈ p.names, isProgramSymbol name = true)
    (h : ofProgram p = .error (.duplicateSymbol line name)) : 2 ≤ p.names.count name := by
  rw [← p.map_definitions]
  exact (ofProgram_redefines hnames h).two_le_count

end Object

end Thumb
