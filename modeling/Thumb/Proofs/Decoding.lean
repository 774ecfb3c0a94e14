import Thumb.Machine.Step
import Thumb.Proofs.Encoding

namespace Thumb

theorem find?_eq_some_of_unique {α : Type} {l : List α} {p : α → Bool} {a : α} (hm : a ∈ l)
    (hp : p a = true) (hu : ∀ b ∈ l, p b = true → b = a) : l.find? p = some a := by
  cases h : l.find? p with
  | none => exact absurd hp (List.find?_eq_none.mp h a hm)
  | some b => rw [hu b (List.mem_of_find?_eq_some h) (List.find?_some h)]

namespace Instr

theorem encode_shift_zero (m d : Fin 8) :
    (shiftImm .lsl 0 m d).encode = (moveReg m d).encode := by
  have h : ∀ m d : Fin 8, (shiftImm .lsl 0 m d).encode = (moveReg m d).encode := by decide
  exact h m d

theorem amount_of_moveReg_accepts {amount : BitVec 5} {m d : Fin 8} {rest : List Halfword}
    (h : Form.moveReg.accepts ((shiftImm .lsl amount m d).encode ++ rest) = true) :
    amount = 0 := by
  have hall : ∀ (amount : BitVec 5) (m d : Fin 8),
      Form.moveReg.firstPattern.accepts ((shiftImm .lsl amount m d).encode.headD 0) = true →
        amount = 0 := by
    decide +kernel
  obtain ⟨first, others, hcons⟩ := (shiftImm .lsl amount m d).encode_eq_cons
  apply hall amount m d
  rw [hcons] at h ⊢
  exact Form.accepts_firstPattern h

/-- The form that decoding finds: shifting left by zero is moving. -/
def decodedForm (i : Instr) : Form :=
  match i with
  | .shiftImm .lsl amount _ _ => if amount = 0 then .moveReg else .shiftImm .lsl
  | i => i.form

theorem decodedForm_cases (i : Instr) :
    i.decodedForm = i.form ∨ ∃ m d, i = shiftImm .lsl 0 m d ∧ i.decodedForm = .moveReg := by
  unfold decodedForm
  split
  · split
    case isTrue h => exact .inr ⟨_, _, by rw [h], rfl⟩
    case isFalse h => exact .inl rfl
  · exact .inl rfl

theorem length_decodedForm (i : Instr) : i.decodedForm.layout.length = i.encode.length := by
  rw [length_encode]
  rcases i.decodedForm_cases with h | ⟨m, d, rfl, h⟩ <;> rw [h]
  rfl

theorem accepts_decodedForm (i : Instr) (rest : List Halfword) :
    i.decodedForm.accepts (i.encode ++ rest) = true := by
  rcases i.decodedForm_cases with h | ⟨m, d, rfl, h⟩
  · rw [h]
    exact i.accepts_encode rest
  · rw [h, encode_shift_zero]
    exact (moveReg m d).accepts_encode rest

/-- A form other than the move accepts only the opcodes of its own instructions. -/
theorem form_of_accepts {i : Instr} {rest : List Halfword} {g : Form}
    (hg : g.accepts (i.encode ++ rest) = true) (hmove : i.decodedForm ≠ .moveReg) :
    g = i.form := by
  obtain ⟨first, others, hcons⟩ := i.encode_eq_cons
  have hfirst := i.accepts_encode rest
  have hgfirst := hg
  rw [hcons] at hfirst hgfirst
  rcases g.firstPattern_apart i.form with h | h | ⟨h, hi⟩ | ⟨h, hi⟩
  · exact h
  · have hno := h.not_accepts (Form.accepts_firstPattern hgfirst)
    rw [Form.accepts_firstPattern hfirst] at hno
    cases hno
  · subst g
    cases i with
    | shiftImm op amount m d =>
      cases hi
      cases amount_of_moveReg_accepts hg
      exact (hmove rfl).elim
    | _ => cases hi
  · cases i <;> cases hi
    exact (hmove rfl).elim

theorem lookup?_encode (i : Instr) (rest : List Halfword) :
    Form.lookup? (i.encode ++ rest) = some i.decodedForm := by
  have haccepts := i.accepts_decodedForm rest
  rw [Form.lookup?_eq_find?]
  by_cases hmove : i.decodedForm = .moveReg
  · -- The move shares opcodes with a shift, and stands first.
    rw [hmove] at haccepts ⊢
    exact List.find?_cons_of_pos haccepts
  · apply find?_eq_some_of_unique (Form.mem_all _) haccepts
    intro g _ hg
    rcases i.decodedForm_cases with h | ⟨m, d, _, h⟩
    · rw [h]
      exact form_of_accepts hg hmove
    · exact (hmove h).elim

theorem decode?_encode (i : Instr) {first : Halfword} {others : List Halfword}
    (hi : i.encode = first :: others) {second : Option Halfword}
    (hs : others <+: second.toList) :
    decode? first second = some ⟨i.decodedForm, i.encode⟩ := by
  obtain ⟨rest, hrest⟩ := hs
  have hop : first :: second.toList = i.encode ++ rest := by rw [hi, List.cons_append, hrest]
  simp only [decode?, hop, lookup?_encode, Option.map_some, i.length_decodedForm,
    List.take_left]

/-- The second halfword matters only to an opcode that has one. -/
theorem decode?_of_getElem? (i : Instr) {first : Halfword} {second : Option Halfword}
    (hfirst : i.encode[0]? = some first)
    (hsecond : ∀ h, i.encode[1]? = some h → second = some h) :
    decode? first second = some ⟨i.decodedForm, i.encode⟩ := by
  obtain ⟨head, others, hi⟩ := i.encode_eq_cons
  have hlen := i.form.length_layout_le
  rw [← i.length_encode, hi, List.length_cons] at hlen
  rw [hi] at hfirst hsecond
  cases hfirst
  apply i.decode?_encode hi
  cases others with
  | nil => exact List.nil_prefix
  | cons h hs =>
    obtain rfl : second = some h := hsecond h rfl
    have hnil : hs = [] := List.eq_nil_of_length_eq_zero (by rw [List.length_cons] at hlen; omega)
    rw [hnil]
    exact List.prefix_rfl

theorem decode?_following (i : Instr) {first : Halfword} {others : List Halfword}
    (hi : i.encode = first :: others) (following : Option Halfword) :
    decode? first (others.head?.or following) = some ⟨i.decodedForm, i.encode⟩ := by
  apply i.decode?_of_getElem?
  · rw [hi, List.getElem?_cons_zero]
  · intro h hh
    rw [hi, List.getElem?_cons_succ, ← List.head?_eq_getElem?] at hh
    rw [hh, Option.some_or]

theorem first_ne_endOfCode (i : Instr) {first : Halfword} {others : List Halfword}
    (hi : i.encode = first :: others) : first ≠ AddressMap.endOfCode := by
  have hall : ∀ f ∈ Form.all, f.firstPattern.accepts AddressMap.endOfCode = false := by
    decide
  rintro rfl
  have ha := i.accepts_encode []
  rw [hi] at ha
  have hno := hall i.form i.form.mem_all
  rw [Form.accepts_firstPattern ha] at hno
  cases hno

variable {μ : Type} [Bus μ]

theorem exec_shift_zero (m d : Fin 8) :
    (shiftImm .lsl 0 m d).exec = ((moveReg m d).exec : Exec μ Unit) :=
  rfl

theorem exec_decodedForm (i : Instr) : i.decodedForm.exec i.encode = (i.exec : Exec μ Unit) := by
  rcases i.decodedForm_cases with h | ⟨m, d, rfl, h⟩
  · rw [h, Form.exec, i.decode_encode]
  · have hmove : Form.moveReg.decode (moveReg m d).encode = moveReg m d :=
      (moveReg m d).decode_encode
    rw [h, encode_shift_zero, exec_shift_zero, Form.exec, hmove]

end Instr

/-- Decodes an opcode, which a halfword may follow in memory, and executes what is found. -/
def executeOpcode? {μ : Type} [Bus μ] (opcode : List Halfword) (following : Option Halfword)
    (m : Machine μ) : Option (EStateM.Result Trap (Machine μ) Unit) :=
  match opcode with
  | [] => none
  | first :: others =>
    (decode? first (others.head?.or following)).map fun d => d.form.exec d.opcode m

theorem Instr.executeOpcode?_encode {μ : Type} [Bus μ] (i : Instr) (following : Option Halfword)
    (m : Machine μ) : executeOpcode? i.encode following m = some (i.exec m) := by
  obtain ⟨first, others, hcons⟩ := i.encode_eq_cons
  have hdecode := i.decode?_following hcons following
  rw [hcons] at hdecode ⊢
  rw [executeOpcode?, hdecode, Option.map_some, ← hcons, i.exec_decodedForm]

namespace Form

/-- Whether a form and its operands say to shift left by the constant zero. -/
def ShiftsByZero (f : Form) (operands : List String) : Prop :=
  f = .shiftImm .lsl ∧ ∃ imm, operands.getLast? = some imm ∧ Operand.immediate imm = .ok 0

theorem shiftAmount_ok {op : Shift} {imm : String} {amount : BitVec 5}
    (h : shiftAmount op imm = .ok amount) :
    ∃ n : Int, Operand.immediate imm = .ok n ∧ (if op = .lsl then 0 else 1) ≤ n ∧
      (n ≤ if op = .lsl then 31 else 32) ∧ amount = BitVec.ofInt 5 n := by
  obtain ⟨n, hn, h⟩ := bind_ok_iff.mp h
  refine ⟨n, hn, ?_⟩
  by_cases hop : op = .lsl
  · simp only [if_pos hop] at h ⊢
    split_ifs at h with hrange
    · cases h
    · exact ⟨by omega, by omega, (Except.ok.inj h).symm⟩
  · simp only [if_neg hop] at h ⊢
    split_ifs at h with hrange
    · cases h
    · exact ⟨by omega, by omega, (Except.ok.inj h).symm⟩

theorem shiftAmount_eq_zero_iff {imm : String} {amount : BitVec 5}
    (h : shiftAmount .lsl imm = .ok amount) : amount = 0 ↔ Operand.immediate imm = .ok 0 := by
  obtain ⟨n, hn, hmin, hmax, rfl⟩ := shiftAmount_ok h
  rw [if_pos rfl] at hmin hmax
  rw [hn, Except.ok.injEq]
  constructor
  · intro hzero
    have hnat := congrArg BitVec.toNat hzero
    simp only [BitVec.toNat_ofInt, BitVec.reduceToNat] at hnat
    omega
  · rintro rfl
    rfl

theorem parse_shiftImm {op : Shift} {operands : List String} {labels : Option Labels} {i : Instr}
    (h : (shiftImm op).parse operands labels = .ok i) :
    ∃ imm amount m d, operands.getLast? = some imm ∧ shiftAmount op imm = .ok amount ∧
      i = .shiftImm op amount m d := by
  match operands with
  | [] | [_] | _ :: _ :: _ :: _ :: _ => cases h
  | [d, imm] =>
    simp only [parse, bind_ok_iff] at h
    obtain ⟨d, _, amount, hamount, h⟩ := h
    cases h
    exact ⟨imm, amount, d, d, rfl, hamount, rfl⟩
  | [d, m, imm] =>
    simp only [parse, bind_ok_iff] at h
    obtain ⟨d, _, m, _, amount, hamount, h⟩ := h
    cases h
    exact ⟨imm, amount, m, d, rfl, hamount, rfl⟩

theorem shiftsByZero_iff {f : Form} {operands : List String} {labels : Option Labels} {i : Instr}
    (h : f.parse operands labels = .ok i) :
    f.ShiftsByZero operands ↔ ∃ m d, i = .shiftImm .lsl 0 m d := by
  constructor
  · rintro ⟨rfl, imm, himm, hzero⟩
    obtain ⟨imm', amount, m, d, himm', hamount, rfl⟩ := parse_shiftImm h
    cases himm.symm.trans himm'
    cases (shiftAmount_eq_zero_iff hamount).mpr hzero
    exact ⟨m, d, rfl⟩
  · rintro ⟨m, d, rfl⟩
    cases form_of_parse h
    obtain ⟨imm, amount, _, _, himm, hamount, hi⟩ := parse_shiftImm h
    cases hi
    exact ⟨rfl, imm, himm, (shiftAmount_eq_zero_iff hamount).mp rfl⟩

end Form

/-- For every text that is encoded and every halfword after the opcode, the opcode is not the end
marker and is found again with its length and in the form that encoded it. Shifting left by zero
is found as a move between the same registers, which does the same. -/
theorem decoding_finds_encoding_form (mnemonic : String) (operands : List String)
    (labels : Option Labels) (opcode : List Halfword)
    (h : encodeInstruction mnemonic operands labels = .ok opcode) (following : Option Halfword) :
    ∃ f first others g, Form.select mnemonic operands = .ok f ∧ opcode = first :: others ∧
      first ≠ AddressMap.endOfCode ∧
      decode? first (others.head?.or following) = some ⟨g, opcode⟩ ∧ g.size = 2 * opcode.length ∧
      (¬f.ShiftsByZero operands → g = f) ∧
      (f.ShiftsByZero operands →
        (∃ m d, f.decode opcode = .shiftImm .lsl 0 m d ∧ g = .moveReg ∧
          g.decode opcode = .moveReg m d) ∧
        ∀ {μ : Type} [Bus μ] (machine : Machine μ),
          g.exec opcode machine = f.exec opcode machine) := by
  obtain ⟨f, hf, h⟩ := bind_ok_iff.mp h
  obtain ⟨i, hi, rfl⟩ := Form.encode_eq_ok.mp h
  cases Form.form_of_parse hi
  obtain ⟨first, others, hcons⟩ := i.encode_eq_cons
  refine ⟨i.form, first, others, i.decodedForm, hf, hcons, i.first_ne_endOfCode hcons,
    i.decode?_following hcons following, ?_, ?_, ?_⟩
  · rw [Form.size, i.length_decodedForm]
  · intro hzero
    rw [Form.shiftsByZero_iff hi] at hzero
    rcases i.decodedForm_cases with hform | ⟨m, d, rfl, _⟩
    · exact hform
    · exact (hzero ⟨m, d, rfl⟩).elim
  · intro hzero
    constructor
    · obtain ⟨m, d, rfl⟩ := (Form.shiftsByZero_iff hi).mp hzero
      refine ⟨m, d, Instr.decode_encode _, rfl, ?_⟩
      rw [Instr.encode_shift_zero]
      exact (Instr.moveReg m d).decode_encode
    · intro μ _ machine
      rw [i.exec_decodedForm, Form.exec, i.decode_encode]

theorem decoding_finds_shift_as_move :
    let operands := ["r1", "R2", "#0x0"]
    encodeInstruction "lsls" operands none = .ok [0x0011] ∧
      Form.ShiftsByZero (.shiftImm .lsl) operands ∧
      decode? 0x0011 (some 0xFFFF) = some ⟨.moveReg, [0x0011]⟩ := by
  intro operands
  have hopcode : encodeInstruction "lsls" operands none = .ok [0x0011] := by decide +kernel
  have hselect : Form.select "lsls" operands = .ok (.shiftImm .lsl) := by decide +kernel
  have hzero : Form.ShiftsByZero (.shiftImm .lsl) operands := ⟨rfl, "#0x0", rfl, by decide +kernel⟩
  obtain ⟨f, first, others, g, hf, hcons, _, hdecode, _, _, hmove⟩ :=
    decoding_finds_encoding_form "lsls" operands none [0x0011] hopcode (some 0xFFFF)
  cases hselect.symm.trans hf
  cases hcons
  obtain ⟨⟨_, _, _, rfl, _⟩, _⟩ := hmove hzero
  exact ⟨hopcode, hzero, hdecode⟩

end Thumb
