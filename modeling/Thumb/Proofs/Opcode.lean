import Thumb.Instr.Catalogue
import Thumb.Proofs.Pattern

namespace Thumb

def Layout.Sound (u : Layout) : Prop :=
  u.widths.sum = u.pattern.free.length ∧ u.pattern.accepts u.pattern.base = true

instance (u : Layout) : Decidable u.Sound :=
  inferInstanceAs (Decidable (_ ∧ _))

namespace Layout.Sound

variable {u : Layout}

theorem accepts_encode (h : u.Sound) (fields : List (Nat × Nat)) :
    u.pattern.accepts (u.pattern.encode fields) = true :=
  Pattern.accepts_deposit h.2 (pack fields)

theorem split_extract_encode (h : u.Sound) {values : List Nat} (hv : Fit values u.widths) :
    split u.widths (u.pattern.extract (u.pattern.encode (values.zip u.widths))) = values := by
  have hwidths := map_snd_zip_of_fit hv
  have hsplit := u.pattern.split_extract_encode ((congrArg List.sum hwidths).trans h.1)
  rwa [hwidths, map_mod_zip_of_fit hv] at hsplit

theorem encode_extract (hu : u.Sound) {h : Halfword} (ha : u.pattern.accepts h = true) :
    u.pattern.encode ((split u.widths (u.pattern.extract h)).zip u.widths) = h :=
  u.pattern.encode_split_extract hu.1 ha

end Layout.Sound

theorem fits_encodeFields {us : List Layout} (h : ∀ u ∈ us, u.Sound) (values : List Nat)
    (rest : List Halfword) :
    Form.fits (us.map (·.pattern)) (encodeFields us values ++ rest) = true := by
  induction us generalizing values with
  | nil => rfl
  | cons u us ih =>
    obtain ⟨hu, hus⟩ := List.forall_mem_cons.mp h
    rw [encodeFields, List.cons_append, List.map_cons, Form.fits, hu.accepts_encode, Bool.true_and]
    exact ih hus _

theorem fields_encodeFields {us : List Layout} (h : ∀ u ∈ us, u.Sound) {values : List Nat}
    (hv : Fit values (us.flatMap (·.widths))) (rest : List Halfword) :
    ((us.zip (encodeFields us values ++ rest)).flatMap fun (u, h) =>
      split u.widths (u.pattern.extract h)) = values := by
  induction us generalizing values with
  | nil => cases hv; rfl
  | cons u us ih =>
    obtain ⟨hu, hus⟩ := List.forall_mem_cons.mp h
    rw [List.flatMap_cons] at hv
    have hfirst := List.forall₂_take_append _ _ _ hv
    have hrest := List.forall₂_drop_append _ _ _ hv
    rw [encodeFields, List.cons_append, List.zip_cons_cons, List.flatMap_cons, ih hus hrest]
    simp only [hu.split_extract_encode hfirst, List.take_append_drop]

theorem encodeFields_fields {us : List Layout} (h : ∀ u ∈ us, u.Sound) {opcode : List Halfword}
    (hfits : Form.fits (us.map (·.pattern)) opcode = true) (hlen : opcode.length = us.length) :
    encodeFields us ((us.zip opcode).flatMap fun (u, h) => split u.widths (u.pattern.extract h)) =
      opcode := by
  induction us generalizing opcode with
  | nil => exact (List.eq_nil_of_length_eq_zero hlen).symm
  | cons u us ih =>
    obtain ⟨hu, hus⟩ := List.forall_mem_cons.mp h
    cases opcode with
    | nil => cases hlen
    | cons first others =>
      obtain ⟨ha, hothers⟩ := Bool.and_eq_true_iff.mp hfits
      have hwidth := (fit_split u.widths (u.pattern.extract first)).length_eq
      rw [List.zip_cons_cons, List.flatMap_cons, encodeFields, List.take_left' hwidth,
        List.drop_left' hwidth, hu.encode_extract ha, ih hus hothers (Nat.succ.inj hlen)]

theorem fit_fields (us : List Layout) (opcode : List Halfword) (hlen : opcode.length = us.length) :
    Fit ((us.zip opcode).flatMap fun (u, h) => split u.widths (u.pattern.extract h))
      (us.flatMap (·.widths)) := by
  induction us generalizing opcode with
  | nil => exact .nil
  | cons u us ih =>
    cases opcode with
    | nil => cases hlen
    | cons first others =>
      rw [List.zip_cons_cons, List.flatMap_cons, List.flatMap_cons]
      exact List.rel_append (fit_split _ _) (ih others (Nat.succ.inj hlen))

theorem length_encodeFields (us : List Layout) (values : List Nat) :
    (encodeFields us values).length = us.length := by
  induction us generalizing values with
  | nil => rfl
  | cons u us ih => rw [encodeFields, List.length_cons, List.length_cons, ih]

namespace Form

theorem mem_all (f : Form) : f ∈ all := by
  cases f with
  | unary op => cases op <;> decide
  | shiftImm op => cases op <;> decide
  | immThree op => cases op <;> decide
  | immEight op => cases op <;> decide
  | regThree op => cases op <;> decide
  | adjustSp op => cases op <;> decide
  | data op => cases op <;> decide
  | transferSp load => cases load <;> decide
  | transferImm load width => cases load <;> cases width <;> decide
  | transferReg op => cases op <;> decide
  | exchange link => cases link <;> decide
  | branchIf condition => cases condition <;> decide
  | _ => decide

theorem forall_of_mem_all {P : Form → Prop} (h : ∀ f ∈ all, P f) (f : Form) : P f :=
  h f f.mem_all

theorem layout_sound (f : Form) : ∀ u ∈ f.layout, u.Sound := by
  have h : ∀ f ∈ all, ∀ u ∈ f.layout, u.Sound := by decide
  exact h f f.mem_all

theorem layout_ne_nil (f : Form) : f.layout ≠ [] := by
  cases f <;> exact List.cons_ne_nil _ _

theorem length_layout_le (f : Form) : f.layout.length ≤ 2 := by
  have hall : ∀ f ∈ all, f.layout.length ≤ 2 := by decide
  exact hall f f.mem_all

def firstPattern (f : Form) : Pattern :=
  (f.layout.head f.layout_ne_nil).pattern

theorem accepts_firstPattern {f : Form} {h : Halfword} {hs : List Halfword}
    (ha : f.accepts (h :: hs) = true) : f.firstPattern.accepts h = true := by
  have hl := List.cons_head_tail f.layout_ne_nil
  rw [accepts, patterns, ← hl, List.map_cons, fits, Bool.and_eq_true] at ha
  exact ha.1

/-- Only moving a low register and shifting left by a constant have opcodes in common. -/
theorem firstPattern_apart (f g : Form) :
    f = g ∨ f.firstPattern.Apart g.firstPattern ∨
      (f = .moveReg ∧ g = .shiftImm .lsl) ∨ (f = .shiftImm .lsl ∧ g = .moveReg) := by
  have h : ∀ f ∈ all, ∀ g ∈ all, f = g ∨ f.firstPattern.Apart g.firstPattern ∨
      (f = .moveReg ∧ g = .shiftImm .lsl) ∨ (f = .shiftImm .lsl ∧ g = .moveReg) := by
    decide +kernel
  exact h f f.mem_all g g.mem_all

end Form

namespace Instr

theorem highFields_fit (m d : Reg) : Fit (highFields m d) [1, 4, 3] := by
  have hm := m.number.isLt
  have hd := d.number.isLt
  refine .cons ?_ (.cons hm (.cons ?_ .nil)) <;> omega

theorem low_lt (n : Fin 8) : (n : Nat) < 2 ^ 3 :=
  n.isLt

theorem flag_lt (b : Bool) : b.toNat < 2 ^ 1 :=
  b.toNat_lt

theorem fields_fit (i : Instr) : Fit i.fields (i.form.layout.flatMap (·.widths)) := by
  cases i with
  | moveHigh m d => exact highFields_fit m d
  | addHigh m d => exact highFields_fit m d
  | compareHigh m n => exact highFields_fit m n
  | exchange link m => exact .cons m.number.isLt .nil
  | branchLink halfwords =>
    exact .cons (flag_lt _) (.cons (BitVec.isLt _) (.cons (flag_lt _)
      (.cons (flag_lt _) (.cons (BitVec.isLt _) .nil))))
  | _ =>
    simp only [fields, form, Form.layout, List.flatMap_cons, List.flatMap_nil, List.append_nil,
      List.forall₂_cons, List.Forall₂.nil, low_lt, flag_lt, BitVec.isLt, and_self]

theorem lowOfNat_val (n : Fin 8) : Reg.lowOfNat n = n :=
  Fin.ext (Nat.mod_eq_of_lt n.isLt)

theorem ofNat_number (r : Reg) : Reg.ofNat r.number = r := by
  obtain ⟨n⟩ := r
  exact congrArg Reg.mk (Fin.ext (Nat.mod_eq_of_lt n.isLt))

theorem ofNat_highFields (r : Reg) : Reg.ofNat (8 * (r.number / 8) + r.number % 8) = r := by
  rw [Nat.div_add_mod, ofNat_number]

theorem flag_toNat (b : Bool) : (b.toNat == 1) = b := by
  cases b <;> rfl

/-- The offset of a linked branch from its sign, its two upper bits and its two parts. -/
theorem append_offset (halfwords : BitVec 24) :
    BitVec.ofBool (halfwords.getLsbD 23) ++ BitVec.ofBool (halfwords.getLsbD 22) ++
      BitVec.ofBool (halfwords.getLsbD 21) ++ halfwords.extractLsb' 11 10 ++
      halfwords.extractLsb' 0 11 = halfwords := by
  apply BitVec.eq_of_getLsbD_eq
  intro i hi
  have hcases : i < 11 ∨ (¬i < 11 ∧ i - 11 < 10) ∨ i = 21 ∨ i = 22 ∨ i = 23 := by omega
  simp only [BitVec.getLsbD_append, BitVec.getLsbD_extractLsb', BitVec.getLsbD_ofBool]
  rcases hcases with hlow | ⟨hge, hmid⟩ | rfl | rfl | rfl
  · simp [hlow]
  · have hpos : 11 + (i - 11) = i := by omega
    simp [hge, hmid, hpos]
  · rfl
  · rfl
  · rfl

theorem instr_fields (i : Instr) : (i.form.instr fun n => i.fields.getD n 0) = i := by
  cases i with
  | branchLink halfwords =>
    have hbit (a s : Bool) : ((a == s) == s) = a := by cases a <;> cases s <;> rfl
    have happ := append_offset halfwords
    simp only [form, Form.instr, fields, List.getD_cons_zero, List.getD_cons_succ, flag_toNat, hbit,
      BitVec.ofNat_toNat, BitVec.setWidth_eq, happ]
  | _ => simp [fields, form, Form.instr, highFields, lowOfNat_val, ofNat_number, ofNat_highFields]

theorem decode_encode (i : Instr) : i.form.decode i.encode = i := by
  have hf : i.form.fields i.encode = i.fields := by
    have h := fields_encodeFields i.form.layout_sound i.fields_fit []
    rwa [List.append_nil] at h
  rw [Form.decode, hf]
  exact i.instr_fields

theorem length_encode (i : Instr) : i.encode.length = i.form.layout.length :=
  length_encodeFields _ _

theorem accepts_encode (i : Instr) (rest : List Halfword) :
    i.form.accepts (i.encode ++ rest) = true :=
  fits_encodeFields i.form.layout_sound i.fields rest

theorem encode_eq_cons (i : Instr) : ∃ h hs, i.encode = h :: hs := by
  apply List.exists_cons_of_ne_nil
  intro hnil
  have hl := i.length_encode
  rw [hnil] at hl
  exact i.form.layout_ne_nil (List.eq_nil_of_length_eq_zero hl.symm)

theorem highFields_ofNat {a b c : Nat} (ha : a < 2 ^ 1) (hb : b < 2 ^ 4) (hc : c < 2 ^ 3) :
    highFields (.ofNat b) (.ofNat (8 * a + c)) = [a, b, c] := by
  simp only [highFields, Reg.ofNat, List.cons.injEq, and_true]
  omega

theorem toNat_flag {a : Nat} (ha : a < 2 ^ 1) : (a == 1).toNat = a := by
  have hcases : a = 0 ∨ a = 1 := by omega
  rcases hcases with rfl | rfl <;> rfl

theorem fields_offset (s u l : Bool) (middle : BitVec 10) (lower : BitVec 11) :
    let offset := BitVec.ofBool s ++ BitVec.ofBool u ++ BitVec.ofBool l ++ middle ++ lower
    offset.getLsbD 23 = s ∧ offset.getLsbD 22 = u ∧ offset.getLsbD 21 = l ∧
      offset.extractLsb' 11 10 = middle ∧ offset.extractLsb' 0 11 = lower := by
  simp only [BitVec.getLsbD_append, BitVec.getLsbD_ofBool]
  refine ⟨rfl, rfl, rfl, ?_, ?_⟩
  · apply BitVec.eq_of_getLsbD_eq
    intro i hi
    simp only [BitVec.getLsbD_extractLsb', BitVec.getLsbD_append]
    simp [hi]
  · apply BitVec.eq_of_getLsbD_eq
    intro i hi
    simp only [BitVec.getLsbD_extractLsb', BitVec.getLsbD_append]
    simp [hi]

end Instr

namespace Form

theorem form_instr (f : Form) (field : Nat → Nat) : (f.instr field).form = f := by
  cases f <;> rfl

theorem fields_instr (f : Form) {values : List Nat}
    (h : Fit values (f.layout.flatMap (·.widths))) :
    (f.instr fun n => values.getD n 0).fields = values := by
  cases f
  all_goals
    simp only [layout, List.flatMap_cons, List.flatMap_nil, List.append_nil, List.cons_append,
      List.nil_append, List.forall₂_cons_right_iff, List.forall₂_nil_right_iff] at h
  case nop =>
    subst h
    rfl
  case moveHigh | addHigh | compareHigh =>
    obtain ⟨a, _, ha, ⟨b, _, hb, ⟨c, _, hc, rfl, rfl⟩, rfl⟩, rfl⟩ := h
    exact Instr.highFields_ofNat ha hb hc
  case shiftImm | transferImm | immThree | regThree | transferReg =>
    obtain ⟨a, _, ha, ⟨b, _, hb, ⟨c, _, hc, rfl, rfl⟩, rfl⟩, rfl⟩ := h
    simp only [instr, Instr.fields, List.getD_cons_zero, List.getD_cons_succ, Reg.lowOfNat,
      BitVec.toNat_ofNat, List.cons.injEq, and_true]
    omega
  case push | pop =>
    obtain ⟨a, _, ha, ⟨b, _, hb, rfl, rfl⟩, rfl⟩ := h
    simp only [instr, Instr.fields, List.getD_cons_zero, List.getD_cons_succ, Instr.toNat_flag ha,
      BitVec.toNat_ofNat, Nat.mod_eq_of_lt hb]
  case branchLink =>
    obtain ⟨a, _, ha, ⟨b, _, hb, ⟨c, _, hc, ⟨d, _, hd, ⟨e, _, he, rfl, rfl⟩, rfl⟩, rfl⟩, rfl⟩,
      rfl⟩ := h
    have hbit (a s : Bool) : ((a == s) == s) = a := by cases a <;> cases s <;> rfl
    obtain ⟨hs, hu, hl, hmiddle, hlower⟩ := Instr.fields_offset (a == 1) ((c == 1) == (a == 1))
      ((d == 1) == (a == 1)) (.ofNat 10 b) (.ofNat 11 e)
    simp only [instr, Instr.fields, List.getD_cons_zero, List.getD_cons_succ, hs, hu, hl, hmiddle,
      hlower, hbit, Instr.toNat_flag ha, Instr.toNat_flag hc, Instr.toNat_flag hd,
      BitVec.toNat_ofNat, Nat.mod_eq_of_lt hb, Nat.mod_eq_of_lt he]
  case adjustSp | branch | branchIf | exchange =>
    obtain ⟨a, _, ha, rfl, rfl⟩ := h
    simp only [instr, Instr.fields, List.getD_cons_zero, BitVec.toNat_ofNat, Reg.ofNat,
      List.cons.injEq, and_true]
    omega
  all_goals
    obtain ⟨a, _, ha, ⟨b, _, hb, rfl, rfl⟩, rfl⟩ := h
    simp only [instr, Instr.fields, List.getD_cons_zero, List.getD_cons_succ, Reg.lowOfNat,
      BitVec.toNat_ofNat, List.cons.injEq, and_true]
    omega

theorem encode_decode {f : Form} {opcode : List Halfword} (h : f.accepts opcode = true)
    (hlen : opcode.length = f.layout.length) : (f.decode opcode).encode = opcode := by
  have hfit : Fit (f.fields opcode) (f.layout.flatMap (·.widths)) :=
    fit_fields f.layout opcode hlen
  rw [Instr.encode, decode, form_instr, fields_instr f hfit]
  exact encodeFields_fields f.layout_sound h hlen

end Form

end Thumb
