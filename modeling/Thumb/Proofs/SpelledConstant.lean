import Thumb.Proofs.AcceptedOperand
import Thumb.Proofs.LoneArea
import Thumb.Proofs.Respelling
import Thumb.Proofs.Transcription

namespace Thumb

open Source (Respelled)

theorem isSolid_repr (i : Int) : ∀ c ∈ i.repr.toList, Source.isSolid c = true := by
  intro c hc
  rcases isDigit_or_minus i c hc with h | rfl
  · simp [Source.isSolid, Operand.isNameChar, Char.isAlphanum, h]
  · rfl

namespace Constants

variable {constants : Constants}

theorem isNameChar_of_isNameChar {c : Char} (h : isNameChar c = true) :
    Operand.isNameChar c = true := by
  unfold isNameChar at h
  unfold Operand.isNameChar
  rw [h]
  rfl

theorem isSolid_of_isNameChar {name : List Char} (h : ∀ c ∈ name, isNameChar c = true) :
    ∀ c ∈ name, Source.isSolid c = true := by
  intro c hc
  rw [Source.isSolid, isNameChar_of_isNameChar (h c hc)]
  rfl

theorem not_isLabel_takeWhile {cs : List Char}
    (hhead : ∀ c ∈ cs.head?, Operand.isNameStart c = false) :
    Operand.isLabel (String.ofList (cs.takeWhile isNameChar)) = false := by
  have hsolid := isSolid_of_isNameChar fun c (hc : c ∈ cs.takeWhile isNameChar) =>
    List.mem_takeWhile_imp hc
  have hchars : ∀ c ∈ cs.takeWhile isNameChar, Text.isBlank c = false :=
    fun c hc => Source.isBlank_of_isSolid (hsolid c hc)
  rw [Operand.isLabel, String.toList_ofList, Text.trim_eq_self hchars]
  cases cs with
  | nil => rfl
  | cons c cs =>
    rw [List.takeWhile_cons]
    cases isNameChar c with
    | false => rfl
    | true => simp [hhead c rfl]

theorem not_isNameStart_of_repr {i : Int} {cs : List Char} :
    ∀ c ∈ (i.repr.toList ++ cs).head?, Operand.isNameStart c = false := by
  intro c hc
  rw [List.head?_append_of_ne_nil _ (toList_repr_ne_nil i)] at hc
  rcases isDigit_or_minus i c (List.mem_of_head? hc) with h | rfl
  · rw [Bool.eq_false_iff]
    intro hstart
    simp only [Operand.isNameStart, Char.isAlpha, Char.isUpper, Char.isLower, Bool.or_eq_true,
      Bool.and_eq_true, decide_eq_true_eq, UInt32.le_iff_toNat_le, beq_iff_eq, ge_iff_le] at hstart
    change (((65 ≤ c.toNat ∧ c.toNat ≤ 90 ∨ 97 ≤ c.toNat ∧ c.toNat ≤ 122) ∨ c = '_') ∨ c = '.') ∨
      c = '$' at hstart
    have hrange : 48 ≤ c.toNat ∧ c.toNat ≤ 57 := by
      simpa [Char.isDigit, UInt32.le_iff_toNat_le] using h
    rcases hstart with ((hstart | rfl) | rfl) | rfl
    · omega
    all_goals cases h
  · rfl

theorem spelled_eq_of_respelled {name cs cs' : List Char} {i : Int}
    (hname : ∀ c ∈ name, isNameChar c = true)
    (hget : constants.get? (String.ofList name) = some i)
    (hlabels : ∀ n v, constants.get? n = some v → Operand.isLabel n = true)
    (h : Respelled name i.repr.toList cs cs') : constants.spelled cs' = constants.spelled cs := by
  induction h with
  | nil => rfl
  | @cons c cs cs' rest ih =>
    by_cases hc : c = '#'
    · -- The name after this mark ends before the next one, so it is the same on both sides.
      rw [hc, spelled_hash, spelled_hash, rest.takeWhile_of_hash rfl]
      cases constants.get? (String.ofList (cs.takeWhile isNameChar)) with
      | none => exact congrArg _ ih
      | some v =>
        rw [spelled_cut cs, spelled_cut cs', rest.takeWhile_of_hash rfl] at ih
        rw [List.append_cancel_left ih]
    · rw [spelled_cons hc, spelled_cons hc, ih]
  | @name cs cs' ends rest ih =>
    have hstop : ∀ c ∈ cs.head?, isNameChar c = false := by
      intro c hc
      rw [Bool.eq_false_iff]
      intro hnamed
      have hend := ends c hc
      rw [isNameChar_of_isNameChar hnamed] at hend
      cases hend
    obtain ⟨htake, hdrop⟩ := cut_append hstop name
    -- The digits are looked up as well, but no constant has such a name.
    have hnumber : constants.get?
        (String.ofList ((i.repr.toList ++ cs').takeWhile isNameChar)) = none := by
      rw [Option.eq_none_iff_forall_ne_some]
      intro v hv
      have hlabel := hlabels _ v hv
      rw [not_isLabel_takeWhile not_isNameStart_of_repr] at hlabel
      cases hlabel
    have hsolid : '#' ∉ i.repr.toList := by
      intro hmem
      rcases isDigit_or_minus i _ hmem with h | h <;> cases h
    rw [spelled_hash, spelled_hash, htake, hdrop, List.takeWhile_eq_self_iff.mpr hname,
      List.dropWhile_eq_nil_iff.mpr hname, hget, hnumber, List.nil_append,
      spelled_append hsolid, ih]

end Constants


namespace Source

variable {name value : List Char}

/-- Records that differ in the operands of an instruction. -/
inductive SameRecord (name value : List Char) : Record → Record → Prop
  | refl (r : Record) : SameRecord name value r r
  | instruction {r : Record} {ops : List String} (kind : r.kind = .instruction)
      (operands : List.Forall₂ (SameOperand name value) r.operands ops) :
      SameRecord name value r { r with operands := ops }

inductive SameArea (name value : List Char) (a : Area) : Area → Prop
  | records {rs : List Record} (h : List.Forall₂ (SameRecord name value) a.records rs) :
      SameArea name value a { a with records := rs }

structure SameProgram (name value : List Char) (p p' : Program) : Prop where
  constants : p'.constants = p.constants
  areas : List.Forall₂ (SameArea name value) p.areas p'.areas

structure SameDraft (name value : List Char) (d d' : Draft) : Prop where
  program : SameProgram name value d.program d'.program
  pending : d'.pending = d.pending

theorem SameArea.refl (a : Area) : SameArea name value a a :=
  .records (List.forall₂_same.mpr fun r _ => .refl r)

theorem kind_of_not_mem {r : Record} (h : r.mnemonic ∉ dataDirectives) : r.kind = .instruction := by
  unfold Record.kind
  split
  case h_8 => rfl
  all_goals
    rename_i heq
    rw [heq] at h
    exact absurd (by decide) h

theorem exists_concat {α β : Type} {R : α → β → Prop} {l : List α} {a : α} {l' : List β}
    (h : List.Forall₂ R (l ++ [a]) l') :
    ∃ m b, l' = m ++ [b] ∧ List.Forall₂ R l m ∧ R a b := by
  have hreverse := List.forall₂_reverse_iff.mpr h
  rw [List.reverse_append, List.reverse_singleton, List.singleton_append] at hreverse
  obtain ⟨b, m, hb, hm, heq⟩ := List.forall₂_cons_left_iff.mp hreverse
  refine ⟨m.reverse, b, ?_, ?_, hb⟩
  · rw [← List.reverse_reverse l', heq, List.reverse_cons]
  · rwa [← List.forall₂_reverse_iff, List.reverse_reverse]

namespace SameDraft

variable {d d' : Draft}

theorem pushRecord (h : SameDraft name value d d') {r r' : Record}
    (hr : SameRecord name value r r') :
    SameDraft name value (d.pushRecord r) (d'.pushRecord r') := by
  have hareas := h.program.areas
  obtain ⟨⟨areas, constants⟩, pending⟩ := d
  obtain ⟨⟨areas', constants'⟩, pending'⟩ := d'
  refine ⟨⟨h.program.constants, ?_⟩, h.pending⟩
  rcases List.eq_nil_or_concat areas with rfl | ⟨earlier, a, rfl⟩
  · cases hareas
    exact .cons (.records (.cons hr .nil)) .nil
  · rw [List.concat_eq_append] at hareas ⊢
    obtain ⟨earlier', a', rfl, hearlier, ⟨hrecords⟩⟩ := exists_concat hareas
    simp only [Draft.pushRecord, List.getLast?_concat, List.dropLast_concat]
    refine List.rel_append hearlier (.cons ?_ .nil)
    exact .records (List.rel_append hrecords (.cons hr .nil))

theorem settled (h : SameDraft name value d d') :
    SameDraft name value { d with pending := none } { d' with pending := none } :=
  ⟨h.program, rfl⟩

theorem flush (h : SameDraft name value d d') : SameDraft name value d.flush d'.flush := by
  unfold Draft.flush
  rw [h.pending]
  cases d.pending with
  | none => exact h
  | some entry => exact h.settled.pushRecord (.refl _)

theorem await (h : SameDraft name value d d') (label : String) (line : Nat) :
    SameDraft name value (d.await label line) (d'.await label line) :=
  ⟨h.flush.program, rfl⟩

theorem addRecord (h : SameDraft name value d d') (label : Option String) {mnemonic : String}
    {ops ops' : List String} (line : Nat)
    (hr : ∀ label,
      SameRecord name value ⟨label, mnemonic, ops, line⟩ ⟨label, mnemonic, ops', line⟩) :
    SameDraft name value (d.addRecord label mnemonic ops line)
      (d'.addRecord label mnemonic ops' line) := by
  cases label with
  | some label => exact h.flush.pushRecord (hr _)
  | none =>
    unfold Draft.addRecord
    rw [h.pending]
    exact h.settled.pushRecord (hr _)

theorem add (h : SameDraft name value d d') (line : Nat) {s s' : Statement}
    (hs : SameStatement name value s s') :
    SameDraft name value (d.add line s) (d'.add line s') := by
  cases hs with
  | record instruction operands =>
    exact h.addRecord _ line fun label => .instruction (kind_of_not_mem instruction) operands
  | refl =>
    cases s with
    | blank => exact h
    | label label => exact h.await label line
    | record label mnemonic ops => exact h.addRecord label line fun _ => .refl _
    | constant constant v =>
      refine ⟨⟨?_, h.program.areas⟩, h.pending⟩
      exact congrArg (· ++ [(⟨constant, v, line⟩ : Constant)]) h.program.constants
    | area area =>
      refine ⟨⟨h.flush.program.constants, ?_⟩, h.flush.pending⟩
      exact List.rel_append h.flush.program.areas (.cons (.refl area) .nil)
    | finish label =>
      cases label with
      | none => exact h
      | some label => exact h.await label line

end SameDraft

def SameStatements (name value : List Char) :
    List (Nat × Statement) → List (Nat × Statement) → Prop :=
  List.Forall₂ fun e e' => e'.1 = e.1 ∧ SameStatement name value e.2 e'.2

def SpelledOut (name value : List Char) (source source' : String) : Prop :=
  List.Forall₂ (fun raw raw' => raw' = raw ∨ SpellsOut name value raw raw')
    (Text.lines source.toList) (Text.lines source'.toList)

section Parse

variable (hname : ∀ c ∈ name, isSolid c = true) (hvalue : ∀ c ∈ value, isSolid c = true)

include hname hvalue

theorem statements_agree {lines lines' : List (List Char)}
    (h : List.Forall₂ (fun raw raw' => raw' = raw ∨ SpellsOut name value raw raw') lines lines')
    (n : Nat) :
    Agree (SameStatements name value) (statements n lines) (statements n lines') := by
  induction h generalizing n with
  | nil => exact .ok .nil
  | @cons raw raw' lines lines' hraw _ ih =>
    have hline : Agree (SameStatement name value) (parseStatement raw) (parseStatement raw') := by
      rcases hraw with rfl | hraw
      · exact .refl .refl _
      · exact hraw.parseStatement hname hvalue
    have hrest {s s' : Statement} (hs : SameStatement name value s s') :
        Agree (SameStatements name value) ((statements (n + 1) lines).map ((n, s) :: ·))
          ((statements (n + 1) lines').map ((n, s') :: ·)) :=
      (ih (n + 1)).map fun _ _ hss => .cons ⟨rfl, hs⟩ hss
    unfold statements
    generalize parseStatement raw = x at hline ⊢
    generalize parseStatement raw' = y at hline ⊢
    cases hline with
    | error e e' => exact .error _ _
    | @ok s s' hs =>
      cases hs with
      | record instruction operands => exact hrest (.record instruction operands)
      | refl =>
        cases s with
        | finish label => exact .ok (.cons ⟨rfl, .refl _⟩ .nil)
        | _ => exact hrest (.refl _)

theorem parse_agree {source source' : String} (h : SpelledOut name value source source') :
    Agree (SameProgram name value) (parse source) (parse source') := by
  have hfold {add : Draft → Nat × Statement → Draft} (hadd : ∀ d s, add d s = d.add s.1 s.2)
      {ss ss' : List (Nat × Statement)}
      (hss : SameStatements name value ss ss')
      {d d' : Draft} (hd : SameDraft name value d d') :
      SameDraft name value (ss.foldl add d) (ss'.foldl add d') := by
    induction hss generalizing d d' with
    | nil => exact hd
    | cons hs _ ih =>
      rw [List.foldl_cons, List.foldl_cons, hadd, hadd, hs.1]
      exact ih (hd.add _ hs.2)
  have hss := statements_agree hname hvalue h 0
  refine hss.map fun ss ss' hss => ?_
  exact (hfold (fun _ _ => rfl) hss ⟨⟨rfl, .nil⟩, rfl⟩).flush.program

end Parse

end Source

namespace Object.Draft

open Source (SameOperand SameRecord SameArea isLiteral)

variable {name value : List Char} {constants : Constants}

theorem operand_of_not_literal (d : Draft) (line : Nat) {op : String} (h : isLiteral op = false) :
    d.operand line op = (d.constants.substitute op, d) := by
  unfold operand
  split
  case h_1 rest htrim =>
    rw [isLiteral, htrim] at h
    cases h
  case h_2 => rfl

theorem constants_operand (d : Draft) (line : Nat) (op : String) :
    (d.operand line op).2.constants = d.constants := by
  unfold operand literal
  split
  · split
    · rfl
    · rfl
  · rfl

theorem substitute_mem_operands (d : Draft) (line : Nat) {op : String} (hop : isLiteral op = false)
    {ops : List String} (h : op ∈ ops) : d.constants.substitute op ∈ (d.operands line ops).1 := by
  induction ops generalizing d with
  | nil => cases h
  | cons first ops ih =>
    simp only [operands]
    rcases List.mem_cons.mp h with rfl | h
    · rw [d.operand_of_not_literal line hop]
      exact .head _
    · rw [← d.constants_operand line first]
      exact .tail _ (ih _ h)

/-- Constants for which respelled operands come to the same. -/
structure Equates (constants : Constants) (name value : List Char) : Prop where
  literal : ∀ op op', SameOperand name value op op' → isLiteral op' = isLiteral op
  substitute : ∀ op op', SameOperand name value op op' →
    constants.substitute op' = constants.substitute op

section

variable (hequates : Equates constants name value)

include hequates

theorem operand_eq {d : Draft} (hd : d.constants = constants) (line : Nat) {op op' : String}
    (h : SameOperand name value op op') : d.operand line op' = d.operand line op := by
  cases hliteral : isLiteral op with
  | true => rw [h.literal hliteral]
  | false =>
    rw [d.operand_of_not_literal line hliteral,
      d.operand_of_not_literal line ((hequates.literal op op' h).trans hliteral), hd,
      hequates.substitute op op' h]

theorem operands_eq_of_same {d : Draft} (hd : d.constants = constants) (line : Nat)
    {ops ops' : List String} (h : List.Forall₂ (SameOperand name value) ops ops') :
    d.operands line ops' = d.operands line ops := by
  induction h generalizing d with
  | nil => rfl
  | cons hop _ ih =>
    simp only [operands, operand_eq hequates hd line hop,
      ih ((d.constants_operand line _).trans hd)]

theorem instruction_agree {d : Draft} (hd : d.constants = constants) {r : Record}
    {ops : List String} (h : List.Forall₂ (SameOperand name value) r.operands ops) :
    Agree Eq (d.instruction r) (d.instruction { r with operands := ops }) := by
  have hops := operands_eq_of_same hequates hd r.line h
  apply Agree.of_ok
  · intro d' hd'
    obtain ⟨form, opcode, hselect, hencode, rfl⟩ := instruction_cases hd'
    rw [← hops] at hselect hencode ⊢
    exact ⟨_, instruction_eq_ok hselect hencode, rfl⟩
  · intro d' hd'
    obtain ⟨form, opcode, hselect, hencode, rfl⟩ := instruction_cases hd'
    dsimp only at hselect hencode
    rw [hops] at hselect hencode
    exact ⟨_, instruction_eq_ok hselect hencode⟩

theorem record_agree {d : Draft} (hd : d.constants = constants) {r r' : Record}
    (h : SameRecord name value r r') : Agree Eq (d.record r) (d.record r') := by
  cases h with
  | refl => exact .refl (fun _ => rfl) _
  | @instruction ops kind operands =>
    have hplace : d.place { r with operands := ops } = d.place r := rfl
    have hkind : Record.kind { r with operands := ops } = .instruction := kind
    rw [record_eq, record_eq, hplace]
    apply (Agree.refl (fun _ => rfl) (d.place r)).bind_of_ok
    rintro d₁ _ hd₁ _ rfl
    have hd' : (d₁.mark r.line).constants = constants := (constants_place hd₁).trans hd
    rw [body, body, kind, hkind]
    exact instruction_agree hequates hd' operands

theorem area_agree {d : Draft} (hd : d.constants = constants) {a a' : Area}
    (h : SameArea name value a a') : Agree Eq (d.area a) (d.area a') := by
  obtain @⟨rs, hrecords⟩ := h
  have hfold : Agree (fun d d' : Draft => d = d' ∧ d.constants = constants)
      (a.records.foldlM record d) (rs.foldlM record d) := by
    apply Agree.foldlM_forall₂ _ ⟨rfl, hd⟩
    refine hrecords.imp fun r r' hr => ?_
    rintro d _ ⟨rfl, hd⟩
    apply (record_agree hequates hd hr).and_left
    exact fun d' hd' => (record_extends hd').constants.trans hd
  apply hfold.bind
  rintro d₁ _ ⟨rfl, _⟩
  exact .refl (fun _ => rfl) (d₁.flushPool a.kind >>= fun d => .ok (d.finish a))

theorem areas_agree {d : Draft} (hd : d.constants = constants) {areas areas' : List Area}
    (h : List.Forall₂ (SameArea name value) areas areas') :
    Agree (fun d d' : Draft => d = d' ∧ d.constants = constants) (areas.foldlM area d)
      (areas'.foldlM area d) := by
  apply Agree.foldlM_forall₂ _ ⟨rfl, hd⟩
  refine h.imp fun a a' ha => ?_
  rintro d _ ⟨rfl, hd⟩
  apply (area_agree hequates hd ha).and_left
  exact fun d' hd' => (constants_area hd').trans hd

end

end Object.Draft

namespace Object

open Source (SameProgram)

variable {name value : List Char} {p p' : Program}

theorem constants_get?_of_mem {cs : List Constant} {d : Draft}
    (h : cs.foldlM Draft.constant {} = .ok d) {c : Constant} (hc : c ∈ cs) :
    d.constants.get? c.name = some c.value := by
  have hnodup := (Draft.constants_defines h).1.nodup
  rw [constants_get? h]
  cases hfind : cs.find? (·.name = c.name) with
  | none => simpa using List.find?_eq_none.mp hfind c hc
  | some c' =>
    have hname : c'.name = c.name := by simpa using List.find?_some hfind
    rw [List.inj_on_of_nodup_map hnodup (List.mem_of_find?_eq_some hfind) hc hname]
    rfl

theorem exists_constant {cs : List Constant} {d : Draft}
    (h : cs.foldlM Draft.constant {} = .ok d) {name : String} {v : Int}
    (hget : d.constants.get? name = some v) : ∃ c ∈ cs, c.name = name := by
  have hnone : ({} : Draft).constants.get? name = none := rfl
  rw [constants_get? h, hnone, Option.or_none, Option.map_eq_some_iff] at hget
  obtain ⟨c, hfind, _⟩ := hget
  exact ⟨c, List.mem_of_find?_eq_some hfind, by simpa using List.find?_some hfind⟩

/-- A constant of letters, digits and underscores may be written as its number. -/
theorem equates_of_constant {d : Draft} (h : p.constants.foldlM Draft.constant {} = .ok d)
    (hlabels : ∀ c ∈ p.constants, Operand.isLabel c.name = true) {c : Constant}
    (hc : c ∈ p.constants) (hname : ∀ x ∈ c.name.toList, Constants.isNameChar x = true) :
    Draft.Equates d.constants c.name.toList c.value.repr.toList := by
  have hget : d.constants.get? (String.ofList c.name.toList) = some c.value := by
    rw [String.ofList_toList]
    exact constants_get?_of_mem h hc
  constructor
  case literal =>
    intro op op' hop
    exact Source.isLiteral_eq (Constants.isSolid_of_isNameChar hname) (isSolid_repr c.value)
      hop.text
  case substitute =>
    intro op op' hop
    rw [← String.toList_inj, Constants.toList_substitute, Constants.toList_substitute]
    apply Constants.spelled_eq_of_respelled hname hget _ hop.text
    intro n v hv
    obtain ⟨c', hc', rfl⟩ := exists_constant h hv
    exact hlabels c' hc'

theorem accepted_of_ofProgram {o : Object} (ho : ofProgram p = .ok o) {r : Record}
    (hr : r ∈ p.records) (hk : r.kind = .instruction) :
    ∃ constants : Constants, ∀ op ∈ r.operands, Source.isLiteral op = false →
      Operand.Accepted (constants.substitute op) := by
  obtain ⟨a, ha, hr⟩ := List.mem_flatMap.mp hr
  obtain ⟨i, hi⟩ := List.getElem?_of_mem ha
  obtain ⟨j, hj⟩ := List.getElem?_of_mem hr
  obtain ⟨_, _, _, _, _, _, _, hrecords, _⟩ := Draft.ofProgram_split ho hi
  obtain ⟨d, _, _, hrecord, _⟩ := foldlM_getElem? hj hrecords
  obtain ⟨form, opcode, hselect, hencode, _⟩ := Draft.record_instruction hrecord hk
  obtain ⟨instr, hinstr, _⟩ := bind_ok_iff.mp hencode
  obtain ⟨_, htakes⟩ := Bool.and_eq_true_iff.mp (Form.canEncode_of_select hselect)
  refine ⟨d.constants, fun op hop hliteral => ?_⟩
  exact Form.accepted_of_parse htakes hinstr _ (d.substitute_mem_operands r.line hliteral hop)

theorem ofProgram_agree (h : SameProgram name value p p')
    (hequates : ∀ d, p.constants.foldlM Draft.constant {} = .ok d →
      Draft.Equates d.constants name value) :
    Agree Eq (ofProgram p) (ofProgram p') := by
  unfold ofProgram
  rw [h.constants]
  apply (Agree.refl (fun _ => rfl) (p.constants.foldlM Draft.constant {})).bind_of_ok
  rintro d _ hd _ rfl
  apply (Draft.areas_agree (hequates d hd) rfl h.areas).bind
  rintro d _ ⟨rfl, _⟩
  exact .ok rfl

end Object

namespace Source

/-- A source that gives a number a name before its end. -/
def NamesNumber (source name : String) (value : Int) : Prop :=
  ∃ raw ∈ toEnd (Text.lines source.toList), parseStatement raw = .ok (.constant name value)

theorem exists_mem_zipIdx {lines : List (List Char)} {raw : List Char} (h : raw ∈ lines)
    {kind : LineKind} (hkind : lineKind raw = kind) :
    ∃ e ∈ lines.zipIdx.filter (lineKind ·.1 = kind), e.1 = raw := by
  obtain ⟨k, hk⟩ := List.getElem?_of_mem h
  refine ⟨(raw, k), List.mem_filter.mpr ⟨?_, decide_eq_true hkind⟩, rfl⟩
  rwa [List.mem_zipIdx_iff_getElem?]

theorem NamesNumber.constant {source name : String} {value : Int}
    (h : NamesNumber source name value) {p : Program} (hp : parse source = .ok p) :
    ∃ c ∈ p.constants, c.name = name ∧ c.value = value := by
  obtain ⟨raw, hraw, hconstant⟩ := h
  obtain ⟨ss, hss, rfl⟩ := map_ok_iff.mp hp
  have hall := (transcribes_of_tellsAll (tellsAll_of_statements hss)).constants
  obtain _ | _ | _ | ⟨kind, label, operands, number⟩ := tells_of_parseStatement hconstant
  obtain ⟨⟨_, k⟩, he, rfl⟩ := exists_mem_zipIdx hraw kind
  obtain ⟨c, hc, hname, ⟨operand, hoperand, hvalue⟩, _⟩ := exists_of_mem hall he
  cases operands.symm.trans hoperand
  exact ⟨c, hc, Option.some.inj (hname.symm.trans label),
    Option.some.inj (hvalue.symm.trans number)⟩

/-- A name has no blanks, so that it is a label as it stands. -/
theorem NamesNumber.isNameChar {source name : String} {value : Int}
    (h : NamesNumber source name value) : ∀ c ∈ name.toList, Operand.isNameChar c = true := by
  obtain ⟨raw, _, hconstant⟩ := h
  have hlabel := (parseStatement_names hconstant name (List.mem_singleton.mpr rfl)).1
  obtain _ | _ | _ | ⟨kind, label, operands, number⟩ := tells_of_parseStatement hconstant
  have hword : ∀ c ∈ (Text.splitBlank (content raw)).1, Text.isBlank c = false := by
    intro c hc
    simpa using List.mem_takeWhile_imp hc
  have hblank : ∀ c ∈ name.toList, Text.isBlank c = false := by
    unfold lineLabel at label
    dsimp only at label
    split at label
    · cases label
      rw [String.toList_ofList]
      exact fun c hc => hword c (List.dropLast_subset _ hc)
    · split at label
      · cases label
      · cases label
        rwa [String.toList_ofList]
  have hchars := Operand.isNameChar_of_isLabel hlabel
  rwa [Text.trim_eq_self hblank] at hchars

/-- The texts `#NAME` and `[Rn, #NAME]`. -/
inductive UsesConstant (name : List Char) (op : String) : Prop
  | immediate (text : Text.trim op.toList = '#' :: name) : UsesConstant name op
  | memory {rn cs : List Char} {n : Reg}
      (text : Text.trim op.toList = '[' :: ((rn ++ ',' :: cs) ++ [']']))
      (base : Reg.ofChars? rn = some n) (offset : Text.trim cs = '#' :: name) : UsesConstant name op

namespace UsesConstant

variable {name : List Char} {op : String}

theorem not_isLiteral (h : UsesConstant name op) : isLiteral op = false := by
  cases h with
  | immediate text => rw [isLiteral, text]; rfl
  | memory text _ _ => rw [isLiteral, text]; rfl

theorem subset (h : UsesConstant name op) : '#' :: name ⊆ op.toList := by
  intro c hc
  apply Text.trim_subset op.toList
  cases h with
  | immediate text => rwa [text]
  | @memory rn cs _ text _ offset =>
    rw [← offset] at hc
    rw [text]
    simp [Text.trim_subset cs hc]

theorem quote_not_mem (h : UsesConstant name op) (hname : '\'' ∉ name) : '\'' ∉ op.toList := by
  intro hmem
  have hmem := Text.mem_trim hmem (by decide)
  have hmark : '\'' ∉ '#' :: name := by simpa using hname
  cases h with
  | immediate text => exact hmark (text ▸ hmem)
  | @memory rn cs _ text base offset =>
    have hbase := Reg.not_mem_of_ofChars? base (c := '\'') (by decide)
    rw [text] at hmem
    have hcs : '\'' ∈ cs := by simpa [hbase] using hmem
    exact hmark (offset ▸ Text.mem_trim hcs (by decide))

end UsesConstant

structure LineMentions (name raw : List Char) : Prop where
  kind : lineKind raw = .record
  instruction : lineWord raw ∉ dataDirectives
  operand : ∃ ops, lineOperands raw = some ops ∧ ∃ op ∈ ops, UsesConstant name op

theorem LineMentions.record {source : String} {name raw : List Char} (h : LineMentions name raw)
    (hraw : raw ∈ toEnd (Text.lines source.toList)) {p : Program} (hp : parse source = .ok p) :
    ∃ r ∈ p.records, r.kind = .instruction ∧ ∃ op ∈ r.operands, UsesConstant name op := by
  obtain ⟨ss, hss, rfl⟩ := map_ok_iff.mp hp
  have hall := (transcribes_of_tellsAll (tellsAll_of_statements hss)).records
  obtain ⟨⟨_, k⟩, he, rfl⟩ := exists_mem_zipIdx hraw h.kind
  obtain ⟨r, hr, hrecord⟩ := exists_of_mem hall he
  obtain ⟨ops, hops, op, hop, hmentions⟩ := h.operand
  cases hops.symm.trans hrecord.operands
  refine ⟨r, List.mem_of_mem_filter hr, kind_of_not_mem ?_, op, hop, hmentions⟩
  rw [hrecord.mnemonic]
  exact h.instruction

end Source

/-- Naming a number. If the name is made of letters, digits and underscores, then a source with the
name after the mark `#` in its instructions and one with the number there make the same executable
or none. If it is not, then a source with the name as an immediate makes none. -/
theorem assemble_named_number (source name : String) (value : Int)
    (h : Source.NamesNumber source name value) :
    ((∀ c ∈ name.toList, Constants.isNameChar c = true) → ∀ source',
      Source.SpelledOut name.toList value.repr.toList source source' →
      ∀ x, assemble source = .ok x ↔ assemble source' = .ok x) ∧
    ((∃ c ∈ name.toList, Constants.isNameChar c = false) →
      (∃ raw ∈ Source.toEnd (Text.lines source.toList), Source.LineMentions name.toList raw) →
      ∀ x, assemble source ≠ .ok x) := by
  constructor
  · intro hname source' hspelled x
    have hsolid := Constants.isSolid_of_isNameChar hname
    apply Agree.ok_iff
    have hparse := Source.parse_agree hsolid (isSolid_repr value) hspelled
    apply hparse.bind_of_ok
    intro p p' hp _ hsame
    have hobject : Agree Eq (Object.ofProgram p) (Object.ofProgram p') := by
      apply Object.ofProgram_agree hsame
      intro d hd
      obtain ⟨c, hc, rfl, rfl⟩ := h.constant hp
      apply Object.equates_of_constant hd _ hc hname
      intro c' hc'
      exact (Source.isName_of_parse hp c'.name
        (List.mem_append_left _ (List.mem_map_of_mem hc'))).1
    apply hobject.bind
    rintro o _ rfl
    exact .refl (fun _ => rfl) _
  · rintro ⟨c, hc, hother⟩ ⟨raw, hraw, hmentions⟩ x hx
    obtain ⟨p, hp, hx⟩ := bind_ok_iff.mp hx
    obtain ⟨o, ho, _⟩ := bind_ok_iff.mp hx
    obtain ⟨r, hr, hkind, op, hop, hmentions⟩ := hmentions.record hraw hp
    obtain ⟨constants, haccepted⟩ := Object.accepted_of_ofProgram ho hr hkind
    have hchars := h.isNameChar
    have hmark : c ∈ ['$', '.'] := by
      have hchar : (Constants.isNameChar c || c == '.' || c == '$') = true := hchars c hc
      rw [hother] at hchar
      simpa [or_comm] using hchar
    have hquote : '\'' ∉ op.toList := hmentions.quote_not_mem fun hmem => by cases hchars _ hmem
    -- Only the characters of names and numbers come or go.
    have hmem {d : Char} (hd : Constants.isNameChar d = false) (hminus : d ≠ '-') :
        d ∈ (constants.substitute op).toList ↔ d ∈ op.toList := by
      rw [Constants.toList_substitute, Constants.mem_spelled_iff hd hminus]
    apply hquote
    rw [← hmem (by decide) (by decide)]
    apply (haccepted op hop hmentions.not_isLiteral).quote hmark
    · rw [hmem (by decide) (by decide)]
      exact hmentions.subset (.head _)
    · rw [hmem hother (by rintro rfl; cases hchars _ hc)]
      exact hmentions.subset (.tail _ hc)

/-- A name that begins like another one, in a memory operand; and a name with a dot, which is taken
for no number. -/
theorem assemble_named_number_offset :
    let source := "N EQU 4\nN2 EQU 8\n MOVS R0, #N2\n LDR R1, [R0, #N] ; #N\n"
    let source' := "N EQU 4\nN2 EQU 8\n MOVS R0, #N2\n LDR R1, [R0, #4] ; #N\n"
    let dotted := "a.b EQU 5\n STR R0, [R1, #a.b]\n"
    (∃ x : Executable, assemble source = .ok x ∧ assemble source' = .ok x ∧
      x.content.drop 8 = [0x08, 0x20, 0x41, 0x68, 0xFF, 0xFF, 0, 0]) ∧
    Source.NamesNumber dotted "a.b" 5 ∧ ∀ x, assemble dotted ≠ .ok x := by
  intro source source' dotted
  have hlines : Text.lines source.toList = ["N EQU 4".toList, "N2 EQU 8".toList,
      " MOVS R0, #N2".toList, " LDR R1, [R0, #N] ; #N".toList] := by
    decide +kernel
  have hlines' : Text.lines source'.toList = ["N EQU 4".toList, "N2 EQU 8".toList,
      " MOVS R0, #N2".toList, " LDR R1, [R0, #4] ; #N".toList] := by
    decide +kernel
  have hdotted : Text.lines dotted.toList = ["a.b EQU 5".toList, " STR R0, [R1, #a.b]".toList] := by
    decide +kernel
  constructor
  · have hnamed : Source.NamesNumber source "N" 4 := by
      refine ⟨"N EQU 4".toList, ?_, by decide +kernel⟩
      rw [hlines]
      decide +kernel
    have hspelled : Source.SpelledOut "N".toList (4 : Int).repr.toList source source' := by
      rw [Source.SpelledOut, hlines, hlines']
      refine .cons (.inl rfl) (.cons (.inl rfl) (.cons (.inl rfl) (.cons (.inr ?_) .nil)))
      constructor
      case kind => decide +kernel
      case instruction => decide +kernel
      case literals => decide +kernel
      case text =>
        refine .replace " LDR R1, [R0, ".toList "] ; #N".toList ?_
        rintro c ⟨⟩
        rfl
    have hcontent : (assemble source).toOption.map (·.content.drop 8) =
        some [0x08, 0x20, 0x41, 0x68, 0xFF, 0xFF, 0, 0] := by
      decide +kernel
    cases hassemble : assemble source with
    | error e =>
      rw [hassemble] at hcontent
      cases hcontent
    | ok x =>
      rw [hassemble] at hcontent
      have hname : ∀ c ∈ "N".toList, Constants.isNameChar c = true :=
        List.forall_mem_singleton.mpr rfl
      have hiff := (assemble_named_number source "N" 4 hnamed).1 hname source' hspelled x
      exact ⟨x, rfl, hiff.mp hassemble, Option.some.inj hcontent⟩
  · have hnamed : Source.NamesNumber dotted "a.b" 5 := by
      refine ⟨"a.b EQU 5".toList, ?_, by decide +kernel⟩
      rw [hdotted]
      decide +kernel
    refine ⟨hnamed, (assemble_named_number dotted "a.b" 5 hnamed).2 ⟨'.', by decide, by decide⟩ ?_⟩
    refine ⟨" STR R0, [R1, #a.b]".toList, ?_, by decide +kernel, by decide +kernel, ?_⟩
    · rw [hdotted]
      decide +kernel
    · refine ⟨["R0", "[R1, #a.b]"], by decide +kernel, "[R1, #a.b]", by decide, ?_⟩
      exact @Source.UsesConstant.memory _ _ "R1".toList " #a.b".toList (.low 1) (by decide +kernel)
        (by decide +kernel) (by decide +kernel)

/-- A constant may have a dot in its name, but no immediate is written with such a name. -/
theorem assemble_dotted_name :
    let source := "a.b EQU 5\n MOVS R0, #a.b\n"
    let source' := "a.b EQU 5\n MOVS R0, #5\n"
    Source.NamesNumber source "a.b" 5 ∧
    Source.SpelledOut "a.b".toList (5 : Int).repr.toList source source' ∧
    (∃ x, assemble source' = .ok x) ∧
    assemble source = .error (.instruction 1 "MOVS" ["R0", "#a.b"] (.invalidNumber "#a.b")) := by
  intro source source'
  have hlines : Text.lines source.toList = ["a.b EQU 5".toList, " MOVS R0, #a.b".toList] := by
    decide +kernel
  have hlines' : Text.lines source'.toList = ["a.b EQU 5".toList, " MOVS R0, #5".toList] := by
    decide +kernel
  refine ⟨⟨"a.b EQU 5".toList, ?_, by decide +kernel⟩, ?_, ?_, by decide +kernel⟩
  · rw [hlines]
    decide +kernel
  · rw [Source.SpelledOut, hlines, hlines']
    refine .cons (.inl rfl) (.cons (.inr ?_) .nil)
    constructor
    case kind => decide +kernel
    case instruction => decide +kernel
    case literals => decide +kernel
    case text => exact .replace " MOVS R0, ".toList [] nofun
  · have hok : (assemble source').toOption.isSome = true := by decide +kernel
    cases hassemble : assemble source' with
    | ok x => exact ⟨x, rfl⟩
    | error e =>
      rw [hassemble] at hok
      cases hok

end Thumb
