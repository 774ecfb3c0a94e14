import Thumb.Proofs.Draft

namespace Thumb

def Instr.placeholder : Instr → Instr
  | .adr d _ => .adr d 0
  | .loadLiteral t _ => .loadLiteral t 0
  | .branch _ => .branch 0
  | .branchLink _ => .branchLink 0
  | .branchIf condition _ => .branchIf condition 0
  | i => i

theorem Instr.form_placeholder (i : Instr) : i.placeholder.form = i.form := by
  cases i <;> rfl

theorem Instr.placeholder_of_not_needsLabels {i : Instr} (h : i.form.needsLabels = false) :
    i.placeholder = i := by
  cases i <;> first | rfl | cases h

theorem Operand.signedLabelField_none (op : String) (bits : Nat) :
    signedLabelField op none bits 2 = .ok 0 := by
  have hpos : (0 : Int) < Nat.pow 2 (bits - 1) := by exact_mod_cast Nat.two_pow_pos (bits - 1)
  have hbounded : boundedOffset (Text.trimmed op) 0 2 (-(Nat.pow 2 (bits - 1) : Nat))
      ((Nat.pow 2 (bits - 1) : Nat) - 1) = .ok 0 := by
    rw [boundedOffset, if_neg (by decide), if_neg (by decide), if_neg (by omega)]
    rfl
  rw [signedLabelField]
  dsimp only [labelOffset, bind, Except.bind]
  rw [hbounded]
  exact congrArg Except.ok (by rw [Int.zero_emod]; rfl)

theorem Operand.alignedLabelField_none (op : String) : alignedLabelField op none 8 = .ok 0 :=
  rfl

namespace Form

section Parse

variable {labels : Labels} {i : Instr}

theorem placeholder_of_branch {label : String} {bits : Nat} {g : Nat → Instr}
    (hg : ∀ n, (g n).placeholder = g 0)
    (h : (return g (← Operand.signedLabelField label (some labels) bits 2)) = Except.ok i) :
    (return g (← Operand.signedLabelField label none bits 2)) = Except.ok i.placeholder := by
  obtain ⟨n, _, hn⟩ := bind_ok_iff.mp h
  cases hn
  rw [Operand.signedLabelField_none, hg]
  rfl

theorem placeholder_of_address {register label : String} {g : Fin 8 → Nat → Instr}
    (hg : ∀ d n, (g d n).placeholder = g d 0)
    (h : (do
      let d ← Operand.lowRegister register
      return g d (← Operand.alignedLabelField label (some labels) 8)) = Except.ok i) :
    (do
      let d ← Operand.lowRegister register
      return g d (← Operand.alignedLabelField label none 8)) = Except.ok i.placeholder := by
  obtain ⟨d, hd, h⟩ := bind_ok_iff.mp h
  obtain ⟨n, _, hn⟩ := bind_ok_iff.mp h
  cases hn
  rw [hd, Operand.alignedLabelField_none, hg]
  rfl

/-- Without addresses a form makes the same instruction at a distance of zero. -/
theorem parse_placeholder {f : Form} {operands : List String}
    (h : f.parse operands (some labels) = .ok i) : f.parse operands none = .ok i.placeholder := by
  cases hneeds : f.needsLabels with
  | false =>
    have hform := form_of_parse h
    rw [parse_of_not_needsLabels hneeds] at h
    rw [h, i.placeholder_of_not_needsLabels (hform ▸ hneeds)]
  | true =>
    -- Any other number of operands is refused, with or without addresses.
    cases f with
    | branch =>
      rcases operands with _ | ⟨label, _ | ⟨_, _⟩⟩
      case cons.nil =>
        exact placeholder_of_branch (g := fun n => .branch (.ofNat 11 n)) (fun _ => rfl) h
      all_goals cases h
    | branchLink =>
      rcases operands with _ | ⟨label, _ | ⟨_, _⟩⟩
      case cons.nil =>
        exact placeholder_of_branch (g := fun n => .branchLink (.ofNat 24 n)) (fun _ => rfl) h
      all_goals cases h
    | branchIf c =>
      rcases operands with _ | ⟨label, _ | ⟨_, _⟩⟩
      case cons.nil =>
        exact placeholder_of_branch (g := fun n => .branchIf c (.ofNat 8 n)) (fun _ => rfl) h
      all_goals cases h
    | adr =>
      rcases operands with _ | ⟨register, _ | ⟨label, _ | ⟨_, _⟩⟩⟩
      case cons.cons.nil =>
        exact placeholder_of_address (g := fun d n => .adr d (.ofNat 8 n)) (fun _ _ => rfl) h
      all_goals cases h
    | loadLiteral =>
      rcases operands with _ | ⟨register, _ | ⟨label, _ | ⟨_, _⟩⟩⟩
      case cons.cons.nil =>
        exact placeholder_of_address (g := fun t n => .loadLiteral t (.ofNat 8 n))
          (fun _ _ => rfl) h
      all_goals cases h
    | _ => cases hneeds

end Parse

theorem accepts_of_fits {ps : List Pattern} {opcode : List Halfword} (h : fits ps opcode = true)
    {k : Nat} {p : Pattern} {v : Halfword} (hp : ps[k]? = some p) (hv : opcode[k]? = some v) :
    p.accepts v = true := by
  induction ps generalizing opcode k with
  | nil => cases hp
  | cons q ps ih =>
    cases opcode with
    | nil => cases hv
    | cons w opcode =>
      obtain ⟨hfirst, hrest⟩ := Bool.and_eq_true_iff.mp h
      cases k with
      | zero =>
        cases hp
        cases hv
        exact hfirst
      | succ k => exact ih hrest hp hv

end Form

/-- Halfwords that a pattern accepts differ in its free positions only. -/
theorem Pattern.getLsbD_of_accepts {p : Pattern} {v w : Halfword} (hv : p.accepts v = true)
    (hw : p.accepts w = true) {i : Nat} (hi : i < 16) (hcell : p.cell i ≠ .free) :
    v.getLsbD i = w.getLsbD i := by
  have hfixed : p.fixed.getLsbD i = true := by
    cases hbit : p.fixed.getLsbD i with
    | true => rfl
    | false =>
      rw [cell, hbit] at hcell
      exact (hcell rfl).elim
  have hsame := (accepts_iff.mp hv i hi).trans (accepts_iff.mp hw i hi).symm
  rwa [hfixed, Bool.and_true, Bool.and_true] at hsame

/-- An opcode of a form that can be replaced by another one: nothing moves, the free positions alone
change, and in them nothing but the distance to a label. -/
structure Form.StandsFor (f : Form) (opcode₀ opcode : List Halfword) : Prop where
  length : opcode₀.length = opcode.length
  fixed {k : Nat} {p : Pattern} {v w : Halfword} (pattern : f.patterns[k]? = some p)
    (before : opcode₀[k]? = some v) (after : opcode[k]? = some w) :
    ∀ i < 16, p.cell i ≠ .free → v.getLsbD i = w.getLsbD i
  instr : f.decode opcode₀ = (f.decode opcode).placeholder

theorem Instr.placeholder_standsFor (i : Instr) :
    i.form.StandsFor i.placeholder.encode i.encode := by
  have hform := i.form_placeholder
  have haccepts := i.accepts_encode []
  have haccepts₀ := i.placeholder.accepts_encode []
  rw [List.append_nil, Form.accepts] at haccepts haccepts₀
  rw [hform] at haccepts₀
  constructor
  case length => rw [length_encode, length_encode, hform]
  case fixed =>
    intro k p v w hp hv hw j hj hcell
    exact Pattern.getLsbD_of_accepts (Form.accepts_of_fits haccepts₀ hp hv)
      (Form.accepts_of_fits haccepts hp hw) hj hcell
  case instr =>
    have hdecode := i.placeholder.decode_encode
    rw [hform] at hdecode
    rw [hdecode, i.decode_encode]

/-- What an instruction adds to a draft: an opcode that is to be replaced, or one that is the same
whatever the labels are. -/
def Object.Draft.Emits (d d' : Draft) (r : Record) (operands : List String) : Prop :=
  ∃ opcode, d'.bytes = d.bytes ++ halfwordBytes opcode ∧
    (d'.object.relocations = d.object.relocations ++ [⟨.code, d.index, d.bytes.length,
        (halfwordBytes opcode).length, .record { r with operands }, r.line⟩] ∨
      d'.object.relocations = d.object.relocations ∧
        ∀ labels, encodeInstruction r.mnemonic operands labels = .ok opcode)

theorem Object.Draft.emits_of_instruction {d d' : Draft} {r : Record}
    (h : d.instruction r = .ok d') : d.Emits d' r (d.operands r.line r.operands).1 := by
  obtain ⟨f, opcode, hselect, hencode, rfl⟩ := instruction_cases h
  obtain ⟨pool, literals, hoperands⟩ := d.operands_eq r.line r.operands
  rw [hoperands]
  refine ⟨opcode, ?_⟩
  cases hneeds : f.needsLabels with
  | true => exact ⟨rfl, .inl rfl⟩
  | false =>
    refine ⟨rfl, .inr ⟨rfl, ?_⟩⟩
    intro labels
    rw [encodeInstruction_of_select hselect, Form.encode_of_not_needsLabels hneeds, hencode]

/-- The opcode of an instruction whose labels have no addresses yet stands for the final one, in the
same form. An instruction of a form without labels has one opcode, whatever the labels are; and only
such an opcode is emitted for good. -/
theorem placeholder_stable (mnemonic : String) (operands : List String) :
    (∀ labels opcode, encodeInstruction mnemonic operands (some labels) = .ok opcode →
      ∃ f opcode₀, Form.select mnemonic operands = .ok f ∧
        f.encode operands (some labels) = .ok opcode ∧
        encodeInstruction mnemonic operands none = .ok opcode₀ ∧
        f.encode operands none = .ok opcode₀ ∧ f.StandsFor opcode₀ opcode) ∧
    (∀ f, Form.select mnemonic operands = .ok f → f.needsLabels = false → ∀ labels,
      encodeInstruction mnemonic operands labels = encodeInstruction mnemonic operands none) ∧
    ∀ (d d' : Object.Draft) (r : Record), r.mnemonic = mnemonic →
      (d.operands r.line r.operands).1 = operands → d.instruction r = .ok d' →
      d.Emits d' r operands := by
  refine ⟨?_, ?_, ?_⟩
  · intro labels opcode h
    obtain ⟨f, hselect, i, hparse, rfl⟩ := encodeInstruction_eq_ok.mp h
    have hencode := Form.encode_eq_ok.mpr ⟨i, hparse, rfl⟩
    have hencode₀ := Form.encode_eq_ok.mpr ⟨_, Form.parse_placeholder hparse, rfl⟩
    have hstands := i.placeholder_standsFor
    rw [Form.form_of_parse hparse] at hstands
    exact ⟨f, _, hselect, hencode, (encodeInstruction_of_select hselect none).trans hencode₀,
      hencode₀, hstands⟩
  · intro f hselect hneeds labels
    rw [encodeInstruction_of_select hselect, encodeInstruction_of_select hselect,
      Form.encode_of_not_needsLabels hneeds]
  · rintro d d' r rfl rfl h
    exact Object.Draft.emits_of_instruction h

/-- A linked branch backwards, and a move, which has no label. -/
theorem placeholder_stable_branchLink :
    let labels : Labels := ⟨0x08000008, .ofList [("far", 0x08000000)]⟩
    let r : Record := ⟨none, "BL", ["far"], 0⟩
    encodeInstruction "BL" ["far"] (some labels) = .ok [0xF7FF, 0xFFFA] ∧
    encodeInstruction "BL" ["far"] none = .ok [0xF000, 0xF800] ∧
    Form.branchLink.StandsFor [0xF000, 0xF800] [0xF7FF, 0xFFFA] ∧
    Form.select "MOVS" ["R0", "#5"] = .ok .moveImm ∧
    encodeInstruction "MOVS" ["R0", "#5"] (some labels) =
      encodeInstruction "MOVS" ["R0", "#5"] none ∧
    ∃ d', ({} : Object.Draft).instruction r = .ok d' ∧ ({} : Object.Draft).Emits d' r ["far"] := by
  intro labels r
  have hfar : encodeInstruction "BL" ["far"] (some labels) = .ok [0xF7FF, 0xFFFA] := by
    decide +kernel
  have hnear : encodeInstruction "BL" ["far"] none = .ok [0xF000, 0xF800] := by decide +kernel
  have hbranch : Form.select "BL" ["far"] = .ok .branchLink := by decide +kernel
  have hmove : Form.select "MOVS" ["R0", "#5"] = .ok .moveImm := by decide +kernel
  have hemit : (({} : Object.Draft).instruction r).toOption.isSome = true := by decide +kernel
  obtain ⟨hencode, _, hemits⟩ := placeholder_stable "BL" ["far"]
  obtain ⟨f, opcode₀, hselect, _, hopcode₀, _, hstands⟩ := hencode labels _ hfar
  cases hbranch.symm.trans hselect
  cases hnear.symm.trans hopcode₀
  refine ⟨hfar, hnear, hstands, hmove,
    (placeholder_stable "MOVS" ["R0", "#5"]).2.1 _ hmove rfl (some labels), ?_⟩
  cases hinstruction : ({} : Object.Draft).instruction r with
  | error e =>
    rw [hinstruction] at hemit
    cases hemit
  | ok d' => exact ⟨d', rfl, hemits {} d' r rfl (by decide +kernel) hinstruction⟩

end Thumb
