import Thumb.Proofs.DataRange
import Thumb.Proofs.DefinitionLine
import Thumb.Proofs.LiteralName

namespace Thumb

namespace Operand

/-- A computation that needs the address of a label, and fails for want of it only. -/
structure Seeks {α : Type} (labels : Labels) (op : String) (x : Except OperandError α) : Prop where
  found {a : α} (h : x = .ok a) : labels.targets.get? (Text.trimmed op) ≠ none
  missing {name : String} (h : x = .error (.unknownLabel name)) :
    name = Text.trimmed op ∧ labels.targets.get? name = none

section Seeks

variable {α β : Type} {labels : Labels} {op : String} {x : Except OperandError α}
  {f : α → Except OperandError β}

theorem Seeks.bind (h : Seeks labels op x) (hf : ∀ a name, f a ≠ .error (.unknownLabel name)) :
    Seeks labels op (x >>= f) := by
  constructor
  · intro b hb
    obtain ⟨a, ha, _⟩ := bind_ok_iff.mp hb
    exact h.found ha
  · intro name he
    rcases bind_error_iff.mp he with he | ⟨a, _, he⟩
    · exact h.missing he
    · exact absurd he (hf a name)

theorem Seeks.after (hx : ∀ name, x ≠ .error (.unknownLabel name))
    (hf : ∀ a, Seeks labels op (f a)) : Seeks labels op (x >>= f) := by
  constructor
  · intro b hb
    obtain ⟨a, _, hb⟩ := bind_ok_iff.mp hb
    exact (hf a).found hb
  · intro name he
    rcases bind_error_iff.mp he with he | ⟨a, _, he⟩
    · exact absurd he (hx name)
    · exact (hf a).missing he

theorem labelOffset_seeks (aligned : Bool) :
    Seeks labels op (labelOffset op (some labels) aligned) := by
  have hoffset : (if aligned then labels.alignedOffset? (Text.trimmed op)
      else labels.offset? (Text.trimmed op)) = none ↔
      labels.targets.get? (Text.trimmed op) = none := by
    cases aligned with
    | true => exact Option.map_eq_none_iff
    | false => exact Option.map_eq_none_iff
  unfold labelOffset
  dsimp only
  constructor
  · intro a h hnone
    rw [hoffset.mpr hnone] at h
    cases h
  · intro name h
    split at h
    · cases h
    case h_2 hnone =>
      cases h
      exact ⟨rfl, hoffset.mp hnone⟩

theorem boundedOffset_ne (label name : String) (offset : Int) (scale : Nat) (min max : Int) :
    boundedOffset label offset scale min max ≠ .error (.unknownLabel name) := by
  intro he
  unfold boundedOffset at he
  split at he
  · cases he
  · split at he
    · cases he
    · split at he
      · cases he
      · cases he

theorem signedLabelField_seeks (bits scale : Nat) :
    Seeks labels op (signedLabelField op (some labels) bits scale) := by
  apply (labelOffset_seeks false).bind
  intro offset name he
  rcases bind_error_iff.mp he with he | ⟨field, _, he⟩
  · exact boundedOffset_ne _ _ _ _ _ _ he
  · cases he

theorem alignedLabelField_seeks (bits : Nat) :
    Seeks labels op (alignedLabelField op (some labels) bits) := by
  apply (labelOffset_seeks true).bind
  intro offset name he
  rcases bind_error_iff.mp he with he | ⟨field, _, he⟩
  · exact boundedOffset_ne _ _ _ _ _ _ he
  · cases he

end Seeks

theorem lowRegister_ne (op name : String) : lowRegister op ≠ .error (.unknownLabel name) := by
  intro he
  rcases bind_error_iff.mp he with he | ⟨r, _, he⟩
  · unfold register at he
    split at he
    · cases he
    · cases he
  · split at he
    · cases he
    · cases he

end Operand

namespace Form

open Operand

variable {f : Form} {operands : List String}

/-- The last operand of a form with labels is the label that it needs. -/
theorem parse_seeks (hf : f.needsLabels = true) (htakes : f.takes operands = true) :
    ∃ op, operands.getLast? = some op ∧ isLabel op = true ∧
      ∀ labels, Seeks labels op (f.parse operands (some labels)) := by
  cases f
  case adr | loadLiteral =>
    rcases operands with _ | ⟨d, _ | ⟨label, _ | ⟨c, rest⟩⟩⟩
    case cons.cons.nil =>
      refine ⟨label, rfl, (Bool.and_eq_true_iff.mp htakes).2, ?_⟩
      intro labels
      apply Seeks.after (lowRegister_ne d)
      intro x
      exact (alignedLabelField_seeks 8).bind (by intro _ _ he; cases he)
    all_goals cases htakes
  case branch | branchLink | branchIf =>
    rcases operands with _ | ⟨label, _ | ⟨c, rest⟩⟩
    case cons.nil =>
      refine ⟨label, rfl, htakes, ?_⟩
      intro labels
      exact (signedLabelField_seeks _ 2).bind (by intro _ _ he; cases he)
    all_goals cases htakes
  all_goals cases hf

theorem encode_seeks (hf : f.needsLabels = true) {mnemonic : String}
    (hselect : select mnemonic operands = .ok f) :
    ∃ op, operands.getLast? = some op ∧ isLabel op = true ∧
      ∀ labels, Seeks labels op (encodeInstruction mnemonic operands (some labels)) := by
  have htakes := (Bool.and_eq_true_iff.mp (canEncode_of_select hselect)).2
  obtain ⟨op, hlast, hlabel, hseeks⟩ := parse_seeks hf htakes
  refine ⟨op, hlast, hlabel, ?_⟩
  intro labels
  rw [encodeInstruction_of_select hselect]
  exact (hseeks labels).bind (by intro _ _ he; cases he)

end Form

theorem Constants.substitute_of_isLabel {constants : Constants} {op : String}
    (h : Operand.isLabel (constants.substitute op) = true) : constants.substitute op = op := by
  have hnone : '#' ∉ op.toList := by
    intro hmem
    have hspelled : '#' ∈ (constants.substitute op).toList := by
      rw [toList_substitute, mem_spelled_iff (by decide) (by decide)]
      exact hmem
    cases Operand.isNameChar_of_isLabel h '#' (Text.mem_trim hspelled (by decide))
  apply String.toList_injective
  rw [toList_substitute, ← List.append_nil op.toList, spelled_append hnone, spelled_nil]

namespace Object.Draft

theorem operands_append (d : Draft) (line : Nat) (front : List String) (op : String) :
    d.operands line (front ++ [op]) =
      ((d.operands line front).1 ++ [((d.operands line front).2.operand line op).1],
        ((d.operands line front).2.operand line op).2) := by
  induction front generalizing d with
  | nil => rfl
  | cons first front ih =>
    rw [List.cons_append, operands, operands]
    simp only [ih, List.cons_append]

theorem operands_last (d : Draft) (line : Nat) {ops : List String} {op' : String}
    (h : (d.operands line ops).1.getLast? = some op') :
    ∃ (e : Draft) (op : String), ops.getLast? = some op ∧
      e.operand line op = (op', (d.operands line ops).2) := by
  rcases List.eq_nil_or_concat ops with rfl | ⟨front, op, hops⟩
  · cases h
  · rw [List.concat_eq_append] at hops
    subst hops
    rw [operands_append] at h ⊢
    rw [List.getLast?_concat, Option.some_inj] at h
    exact ⟨(d.operands line front).2, op, List.getLast?_concat, Prod.ext h rfl⟩

end Object.Draft

/-- The name that is left to linking: that of a symbol, or the label of an instruction. -/
def Relocation.name? (rel : Relocation) : Option String :=
  match rel.target with
  | .symbol name => some name
  | .record r => r.operands.getLast?.map Text.trimmed

/-- Whether a constant will do for that name. -/
def Relocation.takesConstants (rel : Relocation) : Bool :=
  rel.kind = .data

/-- How a record mentions a name: as a value, for which a constant will do, or as the label of an
instruction, for which it will not. -/
inductive Record.Mentions (r : Record) (name : String) : Bool → Prop
  | value {width : Width} {operand mnemonic : String} (wants : r.Wants width operand mnemonic)
      (text : Text.trimmed operand = name) : r.Mentions name true
  | label {operand : String} (kind : r.kind = .instruction)
      (last : r.operands.getLast? = some operand) (text : Text.trimmed operand = name) :
      r.Mentions name false

namespace Object

def knows (o : Object) (constants : Bool) (name : String) : Bool :=
  match o.symbols.get? name with
  | none => false
  | some (.constant _) => constants
  | some (.address ..) => true

variable {p : Program} {o : Object} {name : String}

theorem values_eq_none : o.values.get? name = none ↔ o.knows true name = false := by
  rw [values, Table.get?_filterMap, knows]
  cases o.symbols.get? name with
  | none => simp
  | some symbol =>
    cases symbol with
    | constant v => simp
    | address base offset => simp

theorem labelTargets_eq_none :
    (o.labelTargets o.values).get? name = none ↔ o.knows false name = false := by
  rw [o.labelTargets_values 0, labelsAt, Table.get?_filterMap, knows]
  cases o.symbols.get? name with
  | none => simp
  | some symbol =>
    cases symbol with
    | constant v => simp
    | address base offset => simp

/-- A relocation that waits for a name: it resolves only if there is a symbol for it, and fails for
want of it only. The name stands in an operand of the line, or is that of a literal. -/
structure Awaits (p : Program) (o : Object) (rel : Relocation) (name : String) : Prop where
  waits : rel.name? = some name
  found {site : Word} {new : List Byte}
    (h : resolve o.values (o.labelTargets o.values) site rel = .ok new) :
    o.knows rel.takesConstants name = true
  missing {site : Word} {line : Nat} {missed : String}
    (h : resolve o.values (o.labelTargets o.values) site rel =
      .error (.unresolvedSymbol line missed)) :
    line = rel.line ∧ missed = name ∧ o.knows rel.takesConstants name = false
  mentioned : (∃ r ∈ p.records, r.line = rel.line ∧ r.Mentions name rel.takesConstants) ∨
    isProgramSymbol name = false ∧ o.knows rel.takesConstants name = true

theorem awaits_datum {r : Record} {index offset : Nat} {width : Width} {operand mnemonic : String}
    (hr : r ∈ p.records) (wants : r.Wants width operand mnemonic) :
    Awaits p o ⟨.data, index, offset, width.bytes, .symbol (Text.trimmed operand), r.line⟩
      (Text.trimmed operand) := by
  constructor
  case waits => rfl
  case found =>
    intro site new h
    simp only [resolve] at h
    split at h
    case h_1 => cases h
    case h_2 value hvalue =>
      rw [← Bool.not_eq_false]
      intro hunknown
      rw [values_eq_none.mpr hunknown] at hvalue
      cases hvalue
  case missing =>
    intro site line missed h
    simp only [resolve] at h
    split at h
    case h_1 hnone =>
      cases h
      exact ⟨rfl, rfl, values_eq_none.mp hnone⟩
    case h_2 =>
      unfold Draft.number at h
      split at h
      · cases h
      · cases h
  case mentioned => exact .inl ⟨r, hr, rfl, .value wants rfl⟩

/-- An instruction that needs a label is resolved only if that is an address. -/
theorem resolveRecord_seeks {r : Record} {op : String} (site : Word)
    (h : ∀ labels,
      Operand.Seeks labels op (encodeInstruction r.mnemonic r.operands (some labels))) :
    (∀ new, resolveRecord r ⟨site, o.labelTargets o.values⟩ = .ok new →
      o.knows false (Text.trimmed op) = true) ∧
    ∀ line missed,
      resolveRecord r ⟨site, o.labelTargets o.values⟩ = .error (.unresolvedSymbol line missed) →
        line = r.line ∧ missed = Text.trimmed op ∧ o.knows false (Text.trimmed op) = false := by
  unfold resolveRecord
  constructor
  · intro new hnew
    split at hnew
    case h_1 opcode hopcode =>
      rw [← Bool.not_eq_false]
      intro hunknown
      exact (h _).found hopcode (labelTargets_eq_none.mpr hunknown)
    case h_2 => cases hnew
    case h_3 => cases hnew
  · intro line missed he
    split at he
    case h_1 => cases he
    case h_2 label hunknown =>
      cases he
      obtain ⟨rfl, hnone⟩ := (h _).missing hunknown
      exact ⟨rfl, rfl, labelTargets_eq_none.mp hnone⟩
    case h_3 => cases he

/-- An instruction has its label from an operand, or it is that of a literal, which is defined. -/
theorem mentioned_of_operands (ho : ofProgram p = .ok o) {i j : Nat} {a : Area} {r : Record}
    {d d' : Draft} (ha : p.areas[i]? = some a) (hr : a.records[j]? = some r)
    (hd : Draft.before p i j = .ok d) (hrecord : d.record r = .ok d')
    (hkind : r.kind = .instruction) {op' : String}
    (hlast : (d.operands r.line r.operands).1.getLast? = some op')
    (hlabel : Operand.isLabel op' = true) :
    r.Mentions (Text.trimmed op') false ∨
      isProgramSymbol (Text.trimmed op') = false ∧ o.knows false (Text.trimmed op') = true := by
  obtain ⟨e₀, hoperands, hpool⟩ := Draft.record_operands hrecord hkind
  rw [← hoperands] at hlast
  obtain ⟨e, op, hop, hwritten⟩ := e₀.operands_last r.line hlast
  by_cases hmarked : ∃ value, Text.trim op.toList = '=' :: value
  · obtain ⟨value, hmarked⟩ := hmarked
    obtain ⟨l, hl, hname, _⟩ := e.operand_literal r.line hmarked
    rw [hwritten] at hl hname
    dsimp only at hl hname
    rw [hpool] at hl
    obtain ⟨c, offset, _, hliteral⟩ := ofProgram_literal ho ha hr hd hrecord hl
    obtain ⟨n, hn⟩ := hliteral.label
    have hsymbol := hliteral.symbol
    rw [hn] at hname hsymbol
    rw [hname, trimmed_literalLabel]
    exact .inr ⟨isProgramSymbol_literalLabel n, by rw [knows, hsymbol]⟩
  · -- A constant would leave its mark `#` in the label.
    have hplain : e.operand r.line op = (e.constants.substitute op, e) := by
      unfold Draft.operand
      split
      case h_1 value heq => exact absurd ⟨value, heq⟩ hmarked
      case h_2 => rfl
    obtain rfl : op' = e.constants.substitute op :=
      congrArg Prod.fst (hwritten.symm.trans hplain)
    rw [Constants.substitute_of_isLabel hlabel]
    exact .inl (.label hkind hop rfl)

theorem awaits_instruction (ho : ofProgram p = .ok o) {i j : Nat} {a : Area} {r : Record}
    {d d' : Draft} (ha : p.areas[i]? = some a) (hr : a.records[j]? = some r)
    (hd : Draft.before p i j = .ok d) (hrecord : d.record r = .ok d')
    (hkind : r.kind = .instruction) {rel : Relocation} (hold : rel ∉ d.object.relocations)
    (hnew : rel ∈ d'.object.relocations) : ∃ name, Awaits p o rel name := by
  obtain ⟨form, opcode, hselect, _, _, hrelocations⟩ := Draft.record_instruction hrecord hkind
  rw [hrelocations] at hnew
  rcases List.mem_append.mp hnew with hnew | hnew
  · exact absurd hnew hold
  · split at hnew
    case isFalse => cases hnew
    case isTrue hneeds =>
      cases List.mem_singleton.mp hnew
      -- Only forms with labels are left to linking, and their label comes last.
      obtain ⟨op, hlast, hlabel, hseeks⟩ := Form.encode_seeks hneeds hselect
      have hresolve (site : Word) := resolveRecord_seeks (o := o)
        (r := { r with operands := (d.operands r.line r.operands).1 }) site hseeks
      refine ⟨Text.trimmed op, ?_⟩
      constructor
      case waits =>
        show (d.operands r.line r.operands).1.getLast?.map Text.trimmed = _
        rw [hlast, Option.map_some]
      case found =>
        intro site new h
        exact (hresolve site).1 new h
      case missing =>
        intro site line missed h
        exact (hresolve site).2 line missed h
      case mentioned =>
        have hmem : r ∈ p.records := List.mem_flatMap.mpr
          ⟨a, List.mem_of_getElem? ha, List.mem_of_getElem? hr⟩
        rcases mentioned_of_operands ho ha hr hd hrecord hkind hlast hlabel with
          hmentions | hliteral
        · exact .inl ⟨r, hmem, rfl, hmentions⟩
        · exact .inr hliteral

theorem mem_of_flushPool {d d' : Draft} {kind : SectionKind} (h : d.flushPool kind = .ok d')
    {rel : Relocation} (hkind : rel.kind = .code) (hrel : rel ∈ d'.object.relocations) :
    rel ∈ d.object.relocations := by
  by_cases hpool : d.pool = []
  · rw [Draft.flushPool, hpool] at h
    cases h
    exact hrel
  · rw [Draft.flushPool_eq d kind hpool] at h
    rw [← d.object_poolBase kind]
    refine foldlM_rel (R := fun d d' : Draft =>
      rel ∈ d'.object.relocations → rel ∈ d.object.relocations) (fun _ => id)
      (fun h h' => h ∘ h') ?_ h hrel
    intro l _ e e' hl hrel
    obtain ⟨_, _, own, _, _, hrelocations, hnumber, hnamed⟩ := Draft.poolLiteral_cases hl
    rw [hrelocations] at hrel
    rcases List.mem_append.mp hrel with hrel | hrel
    · exact hrel
    · cases hvalue : e.constants.value? l.value with
      | some v =>
        obtain ⟨_, rfl⟩ := hnumber v hvalue
        cases hrel
      | none =>
        obtain ⟨_, rfl⟩ := hnamed hvalue
        cases List.mem_singleton.mp hrel
        cases hkind

theorem exists_instruction (ho : ofProgram p = .ok o) {rel : Relocation}
    (hrel : rel ∈ o.relocations) (hcode : rel.kind = .code) :
    ∃ i j a r d d', p.areas[i]? = some a ∧ a.records[j]? = some r ∧
      Draft.before p i j = .ok d ∧ d.record r = .ok d' ∧ r.kind = .instruction ∧
      rel ∉ d.object.relocations ∧ rel ∈ d'.object.relocations := by
  obtain ⟨c, hc, ho⟩ := bind_ok_iff.mp ho
  obtain ⟨d, hd, ho⟩ := bind_ok_iff.mp ho
  cases ho
  -- The area, and in it the record, with which the relocation comes.
  have hnone : rel ∉ c.object.relocations := by
    rw [(Draft.constants_start hc).2]
    exact List.not_mem_nil
  obtain ⟨i, a, d₀, d₁, ha, htake, harea, hold, hnew⟩ :=
    foldlM_new (P := fun d : Draft => rel ∈ d.object.relocations) hd hnone hrel
  obtain ⟨e, hrecords, harea⟩ := bind_ok_iff.mp harea
  obtain ⟨e', hpool, harea⟩ := bind_ok_iff.mp harea
  cases harea
  have hbody := mem_of_flushPool hpool hcode hnew
  obtain ⟨j, r, d₂, d₃, hr, hbefore, hrecord, hold, hnew⟩ :=
    foldlM_new (P := fun d : Draft => rel ∈ d.object.relocations) hrecords hold hbody
  refine ⟨i, j, a, r, d₂, d₃, ha, hr, Draft.before_eq ha hc htake hbefore, hrecord, ?_, hold, hnew⟩
  have haccounts := d₂.record_accounts (List.mem_singleton_self r)
  rw [hrecord] at haccounts
  cases haccounts with
  | ok _ relocations =>
    rcases relocations rel hnew with hrel | ⟨r', hr', hleaves⟩
    · exact absurd hrel hold
    · cases List.mem_singleton.mp hr'
      cases hleaves with
      | code kind => exact kind
      | data => cases hcode

theorem exists_awaits (ho : ofProgram p = .ok o) {rel : Relocation} (hrel : rel ∈ o.relocations) :
    ∃ name, Awaits p o rel name := by
  obtain ⟨c, _, a, ha, r, hr, hleaves⟩ := leaves_of_ofProgram ho hrel
  cases hleaves with
  | data wants => exact ⟨_, awaits_datum (List.mem_flatMap.mpr ⟨a, ha, hr⟩) wants⟩
  | code =>
    obtain ⟨i, j, a, r, d, d', ha, hr, hd, hrecord, hkind, hold, hnew⟩ :=
      exists_instruction ho hrel rfl
    exact awaits_instruction ho ha hr hd hrecord hkind hold hnew

section Link

variable {rel : Relocation} (ho : ofProgram p = .ok o)

include ho

theorem knows_of_link {x : Executable} (hx : o.link = .ok x) (hrel : rel ∈ o.relocations)
    (hname : rel.name? = some name) : o.knows rel.takesConstants name = true := by
  have hform := ofProgram_wellFormed ho
  obtain ⟨name', hawaits⟩ := exists_awaits ho hrel
  cases hname.symm.trans hawaits.waits
  obtain ⟨bytes, hrelocated, _⟩ := link_eq_ok hform hx
  obtain ⟨new, hnew, _⟩ := hrelocated.inside rel hrel
  obtain ⟨hsound, _⟩ := hform.relocation rel hrel
  rcases resolve_cases o hsound rfl with ⟨new', hresolve, _⟩ | ⟨_, _, _, hnone⟩
  · rw [← o.labelTargets_values] at hresolve
    exact hawaits.found hresolve
  · exact absurd hnew (hnone new)

theorem exists_mention (hrel : rel ∈ o.relocations) (hname : rel.name? = some name)
    (hprogram : isProgramSymbol name = true) :
    ∃ r ∈ p.records, r.line = rel.line ∧ r.Mentions name rel.takesConstants := by
  obtain ⟨name', hawaits⟩ := exists_awaits ho hrel
  cases hname.symm.trans hawaits.waits
  rcases hawaits.mentioned with hmentions | ⟨hliteral, _⟩
  · exact hmentions
  · rw [hprogram] at hliteral
    cases hliteral

theorem exists_mention_of_link {line : Nat}
    (h : o.link = .error (.unresolvedSymbol line name)) :
    ∃ r ∈ p.records, ∃ constants, r.line = line ∧ r.Mentions name constants ∧
      o.knows constants name = false := by
  obtain ⟨rel, hrel, site, hresolve⟩ := link_unresolved (ofProgram_wellFormed ho) h rfl
  obtain ⟨name', hawaits⟩ := exists_awaits ho hrel
  obtain ⟨rfl, rfl, hunknown⟩ := hawaits.missing hresolve
  rcases hawaits.mentioned with ⟨r, hr, hline, hmentions⟩ | ⟨_, hknown⟩
  · exact ⟨r, hr, _, hline, hmentions, hunknown⟩
  · rw [hunknown] at hknown
    cases hknown

end Link

/-- Before linking, no error is about a missing name. -/
theorem ofProgram_error {e : AssemblyError} (h : ofProgram p = .error e) :
    e.isPlain = true ∨ e.isValue = true := by
  rcases bind_error_iff.mp h with h | ⟨c, hc, h⟩
  · exact .inl (Draft.constants_error h)
  · rcases bind_error_iff.mp h with h | ⟨d, _, h⟩
    · have haccounts := Draft.program_accounts hc
      rw [h] at haccounts
      cases haccounts with
      | misfit => exact .inr rfl
      | other hplain => exact .inl hplain
    · cases h

theorem symbol_of_constant (ho : ofProgram p = .ok o) (h : name ∈ p.constants.map (·.name)) :
    ∃ v, o.symbols.get? name = some (.constant v) := by
  obtain ⟨c, hc, rfl⟩ := List.mem_map.mp h
  exact ⟨c.value, ofProgram_constant ho c hc⟩

theorem symbol_of_label (ho : ofProgram p = .ok o) (h : name ∈ p.records.filterMap (·.label)) :
    ∃ base offset, o.symbols.get? name = some (.address base offset) := by
  obtain ⟨r, hr, hname⟩ := List.mem_filterMap.mp h
  obtain ⟨a, ha, hr⟩ := List.mem_flatMap.mp hr
  obtain ⟨i, ha⟩ := List.mem_iff_getElem?.mp ha
  obtain ⟨j, hr⟩ := List.mem_iff_getElem?.mp hr
  obtain ⟨d, _, _, hsymbol⟩ := ofProgram_label ho ha hr hname
  exact ⟨_, _, hsymbol⟩

theorem label_of_symbol (ho : ofProgram p = .ok o) (hname : isProgramSymbol name = true)
    {base : Option Nat} {offset : Int} (h : o.symbols.get? name = some (.address base offset)) :
    name ∈ p.records.filterMap (·.label) := by
  obtain ⟨count, hdefines⟩ := ofProgram_defines ho
  have hcontains := (Table.contains_iff _).mpr ⟨_, h⟩
  rcases hdefines.contains_iff.mp hcontains with hmem | hmem | hmem
  · rcases List.mem_append.mp hmem with hmem | hmem
    · obtain ⟨v, hv⟩ := symbol_of_constant ho hmem
      cases h.symm.trans hv
    · rwa [Program.records, List.filterMap_flatMap]
  · obtain ⟨n, _, rfl⟩ := List.mem_map.mp hmem
    rw [isProgramSymbol_literalLabel] at hname
    cases hname
  · cases not_contains_empty _ hmem

end Object

namespace Source

/-- A name that no line defines, but perhaps one of a constant where that will not do. -/
def Undefined (lines : List (List Char)) (constants : Bool) (name : String) : Prop :=
  ∀ i, NamedAt lines i name → constants = false ∧ holdsConstant lines i = true

section Names

variable {source : String} {p : Program} {o : Object} {name : String} {constants : Bool}

theorem mem_of_carried {lines : List (List Char)} {constant : Bool} {l : List (String × Nat)}
    (h : List.Forall₂ (Carried lines) (namesFrom constant 0 lines) l) :
    name ∈ l.map (·.1) ↔ ∃ i, NamedAt lines i name ∧ holdsConstant lines i = constant := by
  have hsame : l.map (·.1) = (namesFrom constant 0 lines).map (·.1) := by
    generalize namesFrom constant 0 lines = names at h
    induction h with
    | nil => rfl
    | cons hcarried _ ih => rw [List.map_cons, List.map_cons, hcarried.name, ih]
  rw [hsame, List.mem_map]
  constructor
  · rintro ⟨⟨name', i⟩, hmem, rfl⟩
    exact ⟨i, mem_namesFrom.mp hmem⟩
  · rintro ⟨i, h⟩
    exact ⟨(name, i), mem_namesFrom.mpr h, rfl⟩

theorem mem_constants_iff (hp : parse source = .ok p) :
    name ∈ p.constants.map (·.name) ↔ ∃ i, NamedAt (toEnd (Text.lines source.toList)) i name ∧
      holdsConstant (toEnd (Text.lines source.toList)) i = true := by
  rw [← mem_of_carried (parse_carried hp).1, List.map_map]
  rfl

theorem mem_labels_iff (hp : parse source = .ok p) :
    name ∈ p.records.filterMap (·.label) ↔
      ∃ i, NamedAt (toEnd (Text.lines source.toList)) i name ∧
        holdsConstant (toEnd (Text.lines source.toList)) i = false := by
  rw [← mem_of_carried (parse_carried hp).2, map_definition]

theorem undefined_of_knows (hp : parse source = .ok p) (ho : Object.ofProgram p = .ok o)
    (h : o.knows constants name = false) :
    Undefined (toEnd (Text.lines source.toList)) constants name := by
  intro i hi
  cases hconstant : holdsConstant (toEnd (Text.lines source.toList)) i with
  | true =>
    obtain ⟨v, hv⟩ := Object.symbol_of_constant ho ((mem_constants_iff hp).mpr ⟨i, hi, hconstant⟩)
    rw [Object.knows, hv] at h
    exact ⟨h, rfl⟩
  | false =>
    obtain ⟨_, _, hv⟩ := Object.symbol_of_label ho ((mem_labels_iff hp).mpr ⟨i, hi, hconstant⟩)
    rw [Object.knows, hv] at h
    cases h

/-- A name that no line defines has no symbol, unless it is like that of a literal. -/
theorem not_knows_of_undefined (hp : parse source = .ok p) (ho : Object.ofProgram p = .ok o)
    (hname : Object.isProgramSymbol name = true)
    (h : Undefined (toEnd (Text.lines source.toList)) constants name) :
    o.knows constants name = false := by
  unfold Object.knows
  split
  case h_1 => rfl
  case h_2 v hv =>
    obtain ⟨c, hc, rfl⟩ := Object.ofProgram_mem_constants ho ((Table.get?_eq_some_iff _).mp hv)
    obtain ⟨i, hi, _⟩ := (mem_constants_iff hp).mp (List.mem_map_of_mem hc)
    exact (h i hi).1
  case h_3 base offset hv =>
    obtain ⟨i, hi, hplace⟩ := (mem_labels_iff hp).mp (Object.label_of_symbol ho hname hv)
    rw [(h i hi).2] at hplace
    cases hplace

theorem exists_line (hp : parse source = .ok p) {r : Record} (hr : r ∈ p.records)
    (h : r.Mentions name constants) :
    ∃ raw, (toEnd (Text.lines source.toList))[r.line]? = some raw ∧ RecordOf (raw, r.line) r := by
  obtain ⟨ss, hss, rfl⟩ := map_ok_iff.mp hp
  have htranscribes := transcribes_of_tellsAll (tellsAll_of_statements hss)
  cases hholds : holdsRecord (toEnd (Text.lines source.toList)) r.line with
  | false =>
    -- The record of a lone label has no operand but its number.
    obtain ⟨label, heq⟩ := htranscribes.others r hr hholds
    have hspace : r.kind = .space false := by
      rw [heq]
      rfl
    cases h with
    | value wants =>
      cases wants with
      | data kind => cases hspace.symm.trans kind
      | fill kind => cases hspace.symm.trans kind
      | literal kind => cases hspace.symm.trans kind
    | label kind => cases hspace.symm.trans kind
  | true =>
    have hmem : r ∈ (build ss).records.filter
        (holdsRecord (toEnd (Text.lines source.toList)) ·.line) :=
      List.mem_filter.mpr ⟨hr, hholds⟩
    obtain ⟨⟨raw, k⟩, he, hrecord⟩ := exists_of_mem (List.Forall₂.flip htranscribes.records) hmem
    have hline : r.line = k := hrecord.line
    subst hline
    exact ⟨raw, List.mem_zipIdx_iff_getElem?.mp (List.mem_filter.mp he).1, hrecord⟩

end Names

end Source

/-- A source that is refused for a missing name mentions it in an operand of the line that the error
tells, and no line defines it; only for the label of an instruction does a constant not count. Where
something that is left to linking waits for such a name, the source is never accepted. -/
theorem assemble_unresolved (source : String) :
    let lines := Source.toEnd (Text.lines source.toList)
    (∀ line name, assemble source = .error (.unresolvedSymbol line name) →
      ∃ raw r constants, lines[line]? = some raw ∧ Source.RecordOf (raw, line) r ∧
        r.Mentions name constants ∧ Source.Undefined lines constants name) ∧
    ∀ p o rel name, Source.parse source = .ok p → Object.ofProgram p = .ok o →
      rel ∈ o.relocations → rel.name? = some name → Object.isProgramSymbol name = true →
      (∃ raw r, lines[rel.line]? = some raw ∧ Source.RecordOf (raw, rel.line) r ∧
        r.Mentions name rel.takesConstants) ∧
      (Source.Undefined lines rel.takesConstants name → ∀ x, assemble source ≠ .ok x) := by
  intro lines
  constructor
  · intro line name h
    rcases bind_error_iff.mp h with h | ⟨p, hp, h⟩
    · obtain ⟨_, _, heq⟩ := Source.statements_error (map_error_iff.mp h)
      cases heq
    · rcases bind_error_iff.mp h with h | ⟨o, ho, h⟩
      · rcases Object.ofProgram_error h with he | he
        · cases he
        · cases he
      · obtain ⟨r, hr, constants, rfl, hmentions, hunknown⟩ := Object.exists_mention_of_link ho h
        obtain ⟨raw, hraw, hrecord⟩ := Source.exists_line hp hr hmentions
        exact ⟨raw, r, constants, hraw, hrecord, hmentions,
          Source.undefined_of_knows hp ho hunknown⟩
  · intro p o rel name hp ho hrel hname hprogram
    constructor
    · obtain ⟨r, hr, hline, hmentions⟩ := Object.exists_mention ho hrel hname hprogram
      obtain ⟨raw, hraw, hrecord⟩ := Source.exists_line hp hr hmentions
      rw [hline] at hraw hrecord
      exact ⟨raw, r, hraw, hrecord, hmentions⟩
    · intro hundefined x hx
      obtain ⟨p', hp', hx⟩ := bind_ok_iff.mp hx
      cases hp.symm.trans hp'
      obtain ⟨o', ho', hx⟩ := bind_ok_iff.mp hx
      cases ho.symm.trans ho'
      have hknown := Object.knows_of_link ho hx hrel hname
      rw [Source.not_knows_of_undefined hp ho hprogram hundefined] at hknown
      cases hknown

/-- A branch to a constant, and a literal of a name that is not there. -/
theorem assemble_unresolved_kinds :
    let branch := " B n\nn EQU 4\n"
    let load := "x LDR R0, =y\n DCD x\n"
    let lines := Source.toEnd (Text.lines branch.toList)
    let lines' := Source.toEnd (Text.lines load.toList)
    assemble branch = .error (.unresolvedSymbol 0 "n") ∧
    (∃ raw r constants, lines[0]? = some raw ∧ Source.RecordOf (raw, 0) r ∧
      r.Mentions "n" constants ∧ Source.Undefined lines constants "n") ∧
    ∃ p o rel, Source.parse load = .ok p ∧ Object.ofProgram p = .ok o ∧ rel ∈ o.relocations ∧
      rel.name? = some "y" ∧
      (∃ raw r, lines'[rel.line]? = some raw ∧ Source.RecordOf (raw, rel.line) r ∧
        r.Mentions "y" rel.takesConstants) ∧
      Source.Undefined lines' rel.takesConstants "y" ∧ ∀ x, assemble load ≠ .ok x := by
  intro branch load lines lines'
  have hbranch : assemble branch = .error (.unresolvedSymbol 0 "n") := by decide
  refine ⟨hbranch, (assemble_unresolved branch).1 0 "n" hbranch, ?_⟩
  let area : Area := {
    name := ".text", kind := .code, readOnly := true
    records := [⟨some "x", "LDR", ["R0", "=y"], 0⟩, ⟨none, "DCD", ["x"], 1⟩] }
  let rel : Relocation := ⟨.data, 0, 12, 4, .symbol "y", 0⟩
  have hp : Source.parse load = .ok { areas := [area] } := by decide
  have hrel : (Object.ofProgram { areas := [area] }).toOption.any (rel ∈ ·.relocations) = true := by
    decide
  have hundefined : Source.Undefined lines' rel.takesConstants "y" := by
    have hlines : lines' = ["x LDR R0, =y".toList, " DCD x".toList] := by decide
    have hlabels : ∀ raw ∈ lines', Source.lineLabel raw ≠ some "y" := by
      rw [hlines]
      decide
    rintro i ⟨raw, hraw, hlabel⟩
    exact absurd hlabel (hlabels raw (List.mem_of_getElem? hraw))
  cases ho : Object.ofProgram { areas := [area] } with
  | error e =>
    rw [ho] at hrel
    cases hrel
  | ok o =>
    rw [ho] at hrel
    have hmem : rel ∈ o.relocations := of_decide_eq_true hrel
    obtain ⟨hmentions, hnever⟩ :=
      (assemble_unresolved load).2 _ o rel "y" hp ho hmem rfl (by decide)
    exact ⟨_, o, rel, hp, ho, hmem, rfl, hmentions, hundefined, hnever hundefined⟩

/-- A branch to a constant is refused as one to a name that is not defined, and an instruction may
have the label of a literal, which no line defines. -/
theorem assemble_unresolved_defined :
    let branch := "N EQU 0x08000008\n B N\n"
    let load := " LDR R0, $lit0\n LDR R1, =5\n"
    let lines := Source.toEnd (Text.lines branch.toList)
    let lines' := Source.toEnd (Text.lines load.toList)
    assemble branch = .error (.unresolvedSymbol 1 "N") ∧ Source.NamedAt lines 0 "N" ∧
    ∃ p o rel x, Source.parse load = .ok p ∧ Object.ofProgram p = .ok o ∧ rel ∈ o.relocations ∧
      rel.line = 0 ∧ rel.name? = some "$lit0" ∧ (∀ i, ¬Source.NamedAt lines' i "$lit0") ∧
      assemble load = .ok x := by
  intro branch load lines lines'
  have hlines : lines = ["N EQU 0x08000008".toList, " B N".toList] := by decide
  refine ⟨by decide, ⟨"N EQU 0x08000008".toList, by rw [hlines]; rfl, by decide⟩, ?_⟩
  let record : Record := ⟨none, "LDR", ["R0", "$lit0"], 0⟩
  let area : Area := {
    name := ".text", kind := .code, readOnly := true
    records := [record, ⟨none, "LDR", ["R1", "=5"], 1⟩] }
  let rel : Relocation := ⟨.code, 0, 0, 2, .record record, 0⟩
  have hp : Source.parse load = .ok { areas := [area] } := by decide
  have hrel : (Object.ofProgram { areas := [area] }).toOption.any (rel ∈ ·.relocations) = true := by
    decide
  have hx : (assemble load).toOption.isSome = true := by decide
  have hnone : ∀ i, ¬Source.NamedAt lines' i "$lit0" := by
    have hlines' : lines' = [" LDR R0, $lit0".toList, " LDR R1, =5".toList] := by decide
    have hlabels : ∀ raw ∈ lines', Source.lineLabel raw ≠ some "$lit0" := by
      rw [hlines']
      decide
    rintro i ⟨raw, hraw, hlabel⟩
    exact absurd hlabel (hlabels raw (List.mem_of_getElem? hraw))
  cases ho : Object.ofProgram { areas := [area] } with
  | error e =>
    rw [ho] at hrel
    cases hrel
  | ok o =>
    rw [ho] at hrel
    cases hload : assemble load with
    | error e =>
      rw [hload] at hx
      cases hx
    | ok x => exact ⟨_, o, rel, x, hp, ho, of_decide_eq_true hrel, rfl, rfl, hnone, rfl⟩

end Thumb
