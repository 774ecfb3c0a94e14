import Thumb.Proofs.NumberText

namespace Thumb

namespace Text

variable {cs : List Char} {n : Nat}

theorem IsDigit.eq_digitChar {c : Char} {d : Nat} (h : IsDigit 10 c d) : c = d.digitChar := by
  obtain ⟨hlt, rfl | rfl⟩ := h
  · rfl
  · interval_cases d <;> rfl

theorem eq_map_digitChar {ds : List Nat} (h : List.Forall₂ (IsDigit 10) cs ds) :
    cs = ds.map Nat.digitChar ∧ ∀ d ∈ ds, d < 10 := by
  induction h with
  | nil => exact ⟨rfl, List.forall_mem_nil _⟩
  | cons hd _ ih =>
    rw [List.map_cons, ← hd.eq_digitChar, ← ih.1]
    exact ⟨rfl, List.forall_mem_cons.mpr ⟨hd.1, ih.2⟩⟩

theorem toDigits_append {m : Nat} (hm : 0 < m) {ds : List Nat} (hds : ∀ d ∈ ds, d < 10) :
    Nat.toDigits 10 m ++ ds.map Nat.digitChar =
      Nat.toDigits 10 (ds.foldl (fun n d => n * 10 + d) m) := by
  induction ds generalizing m with
  | nil => exact List.append_nil _
  | cons d ds ih =>
    obtain ⟨hd, hds⟩ := List.forall_mem_cons.mp hds
    have hone : Nat.toDigits 10 m ++ [d.digitChar] = Nat.toDigits 10 (m * 10 + d) := by
      rw [← Nat.toDigits_of_lt_base hd, Nat.toDigits_append_toDigits (by decide) hm hd,
        Nat.mul_comm]
    rw [List.map_cons, List.append_cons, hone, List.foldl_cons]
    exact ih (by omega) hds

/-- Without a zero in front there is one numeral for a number. -/
theorem Numeral.eq_toDigits (h : Numeral 10 cs n)
    (hzero : ¬(cs.length > 1 ∧ cs.head? = some '0')) : cs = Nat.toDigits 10 n := by
  obtain ⟨hds, hne⟩ := h
  rw [ofDigits_reverse]
  cases hds with
  | nil => exact absurd rfl hne
  | @cons c d cs ds hd hds =>
    obtain ⟨rfl, hlt⟩ := eq_map_digitChar hds
    cases hd.eq_digitChar
    rw [List.foldl_cons, Nat.zero_mul, Nat.zero_add]
    have hone : Nat.toDigits 10 d = [d.digitChar] := Nat.toDigits_of_lt_base hd.1
    rcases Nat.eq_zero_or_pos d with rfl | hpos
    · cases ds with
      | nil => rfl
      | cons d ds => exact absurd ⟨by simp, rfl⟩ hzero
    · rw [← toDigits_append hpos hlt, hone]
      rfl

theorem trimStart_trim (cs : List Char) : trimStart (trim cs) = trim cs := by
  apply (List.dropWhile_suffix isBlank).eq_of_length_le
  have hbegin := trim_prefix (trim cs)
  have hle := hbegin.length_le
  rwa [trim_trim] at hle

theorem eq_plus_of_toUpper {c : Char} (h : c.toUpper = '+') : c = '+' := by
  unfold Char.toUpper at h
  split at h
  case isTrue hrange =>
    obtain ⟨hmin, _⟩ := hrange
    rw [Char.ext_iff] at h
    dsimp only at h
    have hc : c.val = '+'.val - ('A'.val - 'a'.val) := by
      rw [← h, UInt32.add_sub_cancel]
    rw [hc] at hmin
    exact absurd hmin (by decide)
  case isFalse => exact h

end Text

namespace Reg

/-- The names of registers in upper case. The number after the letter has no zero in front. -/
inductive Name : List Char → Reg → Prop
  | numbered (r : Reg) : Name ('R' :: Nat.toDigits 10 r.number) r
  | sp : Name ['S', 'P'] .sp
  | lr : Name ['L', 'R'] .lr
  | pc : Name ['P', 'C'] .pc

inductive PlusName : List Char → Reg → Prop
  | numbered {r : Reg} {cs : List Char} (digits : Text.Numeral 10 cs r.number) :
      PlusName ('R' :: '+' :: cs) r

/-- A text, in either case and between blanks, that is taken for a register. -/
def Spells (cs : List Char) (r : Reg) : Prop :=
  Name (Text.upper (Text.trim cs)) r ∨ PlusName (Text.upper (Text.trim cs)) r

theorem ofNumber?_eq_some_iff {n : Nat} {r : Reg} : ofNumber? n = some r ↔ n = r.number := by
  unfold ofNumber?
  split
  case isTrue h =>
    constructor
    · intro heq
      cases heq
      rfl
    · rintro rfl
      rfl
  case isFalse h =>
    constructor
    · intro heq
      cases heq
    · rintro rfl
      exact absurd r.number.isLt h

theorem ofDigits?_eq_some_iff {digits : List Char} {r : Reg} :
    ofDigits? digits = some r ↔
      digits = Nat.toDigits 10 r.number ∨
      ∃ cs, digits = '+' :: cs ∧ Text.Numeral 10 cs r.number := by
  constructor
  · intro h
    unfold ofDigits? at h
    split at h
    case isTrue => cases h
    case isFalse hzero =>
      obtain ⟨n, hn, hr⟩ := Option.bind_eq_some_iff.mp h
      cases ofNumber?_eq_some_iff.mp hr
      rcases (Text.unsigned?_eq_some_iff (by decide)).mp hn with hdigits | hplus
      · exact .inl (hdigits.eq_toDigits hzero)
      · exact .inr hplus
  · rintro (rfl | ⟨cs, rfl, hdigits⟩)
    · obtain ⟨n⟩ := r
      revert n
      decide
    · have hn : Text.unsigned? 10 ('+' :: cs) = some _ :=
        (Text.unsigned?_eq_some_iff (by decide)).mpr (.inr ⟨cs, rfl, hdigits⟩)
      have hhead : ¬(('+' :: cs).length > 1 ∧ ('+' :: cs).head? = some '0') := by simp
      rw [ofDigits?, if_neg hhead, hn, Option.bind_some]
      exact ofNumber?_eq_some_iff.mpr rfl

theorem ofChars?_eq_some_iff {cs : List Char} {r : Reg} : ofChars? cs = some r ↔ Spells cs r := by
  unfold ofChars? Spells
  generalize Text.upper (Text.trim cs) = text
  constructor
  · intro h
    split at h
    case h_1 =>
      cases h
      exact .inl .sp
    case h_2 =>
      cases h
      exact .inl .lr
    case h_3 =>
      cases h
      exact .inl .pc
    case h_4 digits =>
      rcases ofDigits?_eq_some_iff.mp h with rfl | ⟨cs, rfl, hdigits⟩
      · exact .inl (.numbered r)
      · exact .inr (.numbered hdigits)
    case h_5 => cases h
  · rintro (h | h)
    · cases h with
      | numbered => exact ofDigits?_eq_some_iff.mpr (.inl rfl)
      | sp => rfl
      | lr => rfl
      | pc => rfl
    · cases h with
      | numbered digits => exact ofDigits?_eq_some_iff.mpr (.inr ⟨_, rfl, digits⟩)

theorem Spells.comma_not_mem {cs : List Char} {r : Reg} (h : Spells cs r) : ',' ∉ cs :=
  not_mem_of_ofChars? (ofChars?_eq_some_iff.mpr h) (by decide)

theorem spells_iff_name {cs : List Char} (h : '+' ∉ Text.trim cs) {r : Reg} :
    Spells cs r ↔ Name (Text.upper (Text.trim cs)) r := by
  refine or_iff_left ?_
  intro hplus
  generalize htext : Text.upper (Text.trim cs) = text at hplus
  cases hplus with
  | numbered digits =>
    have hmem : '+' ∈ Text.upper (Text.trim cs) := by
      rw [htext]
      exact .tail _ (.head _)
    obtain ⟨c, hc, hupper⟩ := List.mem_map.mp hmem
    rw [Text.eq_plus_of_toUpper hupper] at hc
    exact h hc

end Reg

namespace Operand

inductive AddressText : List Char → Address → Prop
  | base {rn : List Char} {n : Reg} (base : Reg.Spells rn n) :
      AddressText ('[' :: (rn ++ [']'])) ⟨n, .none⟩
  | immediate {rn cs : List Char} {n : Reg} (base : Reg.Spells rn n)
      (hash : (Text.trim cs).head? = some '#') (comma : ',' ∉ cs) :
      AddressText ('[' :: ((rn ++ ',' :: cs) ++ [']']))
        ⟨n, .immediate (String.ofList (Text.trim cs))⟩
  | register {rn rm : List Char} {n m : Reg} (base : Reg.Spells rn n)
      (offset : Reg.Spells rm m) :
      AddressText ('[' :: ((rn ++ ',' :: rm) ++ [']'])) ⟨n, .register m⟩

variable {op : String}

theorem isRegister_iff : isRegister op = true ↔ ∃ r, Reg.Spells op.toList r := by
  rw [isRegister, Option.isSome_iff_exists]
  exact exists_congr fun _ => Reg.ofChars?_eq_some_iff

theorem isLowRegister_iff :
    isLowRegister op = true ↔ ∃ r, r.isLow = true ∧ Reg.Spells op.toList r := by
  simp only [← Reg.ofChars?_eq_some_iff]
  unfold isLowRegister Reg.parse?
  cases Reg.ofChars? op.toList <;> simp

theorem sameRegister_iff {op' : String} :
    sameRegister op op' = true ↔ ∃ r, Reg.Spells op.toList r ∧ Reg.Spells op'.toList r := by
  simp only [← Reg.ofChars?_eq_some_iff]
  unfold sameRegister isRegister Reg.parse?
  cases Reg.ofChars? op.toList with
  | none => simp
  | some r =>
    rw [Option.isSome_some, Bool.true_and, beq_iff_eq]
    constructor
    · intro h
      exact ⟨r, rfl, h.symm⟩
    · rintro ⟨_, ⟨⟩, h⟩
      exact h.symm

theorem isSp_iff : Form.isSp op = true ↔ Reg.Spells op.toList .sp := by
  rw [Form.isSp, beq_iff_eq]
  exact Reg.ofChars?_eq_some_iff

/-- A label has no plus sign, so that only the names are kept from being labels. -/
theorem isLabel_iff : isLabel op = true ↔
    (∃ c cs, Text.trim op.toList = c :: cs ∧ isNameStart c = true ∧
      ∀ c ∈ cs, isNameChar c = true) ∧
    ¬∃ r, Reg.Name (Text.upper (Text.trim op.toList)) r := by
  unfold isLabel
  split
  case h_1 htrim => simp [htrim]
  case h_2 c cs htrim =>
    have hshape : (∃ c' cs', Text.trim op.toList = c' :: cs' ∧ isNameStart c' = true ∧
        ∀ c ∈ cs', isNameChar c = true) ↔ isNameStart c = true ∧ ∀ c ∈ cs, isNameChar c = true := by
      rw [htrim]
      simp
    rw [hshape, Bool.and_eq_true, Bool.and_eq_true, List.all_eq_true, Bool.not_eq_true',
      Bool.eq_false_iff, ne_eq, isRegister_iff]
    apply and_congr_right
    rintro ⟨hstart, hall⟩
    have hplus : '+' ∉ Text.trim op.toList := by
      rw [htrim, List.mem_cons, not_or]
      constructor
      · rintro rfl
        cases hstart
      · intro hmem
        cases hall _ hmem
    exact not_congr (exists_congr fun _ => Reg.spells_iff_name hplus)

theorem isImmediate_trim {cs : List Char} :
    isImmediate (String.ofList (Text.trim cs)) = true ↔ (Text.trim cs).head? = some '#' := by
  rw [isImmediate, String.toList_ofList, Text.trimStart_trim, beq_iff_eq]

theorem offset?_eq_some_iff {cs : List Char} {offset : Offset} :
    offset? (Text.trim cs) = some offset ↔
      (Text.trim cs).head? = some '#' ∧ offset = .immediate (String.ofList (Text.trim cs)) ∨
      ∃ m, Reg.Spells cs m ∧ offset = .register m := by
  have hregister {m : Reg} (hm : Reg.ofChars? cs = some m) :
      ¬(Text.trim cs).head? = some '#' := by
    intro hhead
    have hmem := Text.trim_subset cs (List.mem_of_head? hhead)
    exact Reg.not_mem_of_ofChars? hm (by decide) hmem
  simp only [← Reg.ofChars?_eq_some_iff]
  unfold offset?
  dsimp only
  rw [Reg.ofChars?_trim]
  by_cases hhash : (Text.trim cs).head? = some '#'
  · rw [if_pos (isImmediate_trim.mpr hhash)]
    constructor
    · intro h
      cases h
      exact .inl ⟨hhash, rfl⟩
    · rintro (⟨_, rfl⟩ | ⟨m, hm, _⟩)
      · rfl
      · exact absurd hhash (hregister hm)
  · rw [if_neg (mt isImmediate_trim.mp hhash), Option.map_eq_some_iff]
    simp [hhash, eq_comm]

theorem not_mem_of_splitOn {cs : List Char} (h : cs.splitOn ',' = [cs]) : ',' ∉ cs := by
  intro hmem
  obtain ⟨before, after, rfl, hbefore⟩ := List.eq_append_cons_of_mem hmem
  rw [List.splitOn_append_cons_self_of_not_mem hbefore] at h
  exact List.splitOn_ne_nil ',' after (List.cons.inj h).2

theorem addressText_of_address? {a : Address} (h : address? op = some a) :
    AddressText (Text.trim op.toList) a := by
  obtain ⟨inner, hinner, h⟩ := Option.bind_eq_some_iff.mp h
  rw [eq_of_between? hinner]
  have hjoin : [','].intercalate (inner.splitOn ',') = inner := List.intercalate_splitOn ','
  split at h
  case h_1 base hpieces =>
    obtain ⟨rn, hsplit, rfl⟩ := List.map_eq_singleton_iff.mp hpieces
    obtain ⟨n, hn, h⟩ := Option.bind_eq_some_iff.mp h
    cases h
    rw [hsplit, List.intercalate_singleton] at hjoin
    rw [Reg.ofChars?_trim, Reg.ofChars?_eq_some_iff] at hn
    rw [← hjoin]
    exact .base hn
  case h_2 base offset hpieces =>
    obtain ⟨rn, rest, hsplit, rfl, hrest⟩ := List.map_eq_cons_iff.mp hpieces
    obtain ⟨cs, rfl, rfl⟩ := List.map_eq_singleton_iff.mp hrest
    obtain ⟨n, hn, h⟩ := Option.bind_eq_some_iff.mp h
    obtain ⟨added, hadded, h⟩ := Option.bind_eq_some_iff.mp h
    cases h
    rw [Reg.ofChars?_trim, Reg.ofChars?_eq_some_iff] at hn
    have hinner' : inner = rn ++ ',' :: cs := by
      rw [← hjoin, hsplit]
      simp [List.intercalate_cons_cons]
    rw [hinner']
    rcases offset?_eq_some_iff.mp hadded with ⟨hhash, rfl⟩ | ⟨m, hm, rfl⟩
    · refine .immediate hn hhash ?_
      rw [hinner', List.splitOn_append_cons_self_of_not_mem hn.comma_not_mem] at hsplit
      exact not_mem_of_splitOn (List.cons.inj hsplit).2
    · exact .register hn hm
  case h_3 => cases h

theorem address?_eq_some_iff {a : Address} :
    address? op = some a ↔ AddressText (Text.trim op.toList) a := by
  refine ⟨addressText_of_address?, ?_⟩
  unfold address?
  generalize Text.trim op.toList = text
  intro h
  cases h with
  | base base =>
    rw [between?_append]
    simp [List.splitOn_eq_singleton base.comma_not_mem, Reg.ofChars?_trim,
      Reg.ofChars?_eq_some_iff.mpr base]
  | immediate base hash comma =>
    rw [between?_append]
    simp [List.splitOn_append_cons_self_of_not_mem base.comma_not_mem,
      List.splitOn_eq_singleton comma, Reg.ofChars?_trim, Reg.ofChars?_eq_some_iff.mpr base,
      offset?_eq_some_iff.mpr (.inl ⟨hash, rfl⟩)]
  | register base offset =>
    rw [between?_append]
    simp [List.splitOn_append_cons_self_of_not_mem base.comma_not_mem,
      List.splitOn_eq_singleton offset.comma_not_mem, Reg.ofChars?_trim,
      Reg.ofChars?_eq_some_iff.mpr base, offset?_eq_some_iff.mpr (.inr ⟨_, offset, rfl⟩)]

structure ReadsRegisters (op : String) : Prop where
  parse : ∀ r, Reg.parse? op = some r ↔ Reg.Spells op.toList r
  /-- Only a plus sign makes a register of a text that is no name of one. -/
  named : '+' ∉ op.toList →
    ∀ r, Reg.parse? op = some r ↔ Reg.Name (Text.upper (Text.trim op.toList)) r
  register : isRegister op = true ↔ ∃ r, Reg.Spells op.toList r
  low : isLowRegister op = true ↔ ∃ r, r.isLow = true ∧ Reg.Spells op.toList r
  same : ∀ op', sameRegister op op' = true ↔
    ∃ r, Reg.Spells op.toList r ∧ Reg.Spells op'.toList r
  stack : Form.isSp op = true ↔ Reg.Spells op.toList .sp
  memory : ∀ a, address? op = some a ↔ AddressText (Text.trim op.toList) a
  /-- A label is a symbol that is no name of a register. -/
  label : isLabel op = true ↔
    (∃ c cs, Text.trim op.toList = c :: cs ∧ isNameStart c = true ∧
      ∀ c ∈ cs, isNameChar c = true) ∧
    ¬∃ r, Reg.Name (Text.upper (Text.trim op.toList)) r

/-- Exactly the names of registers, and the letter `R` with a plus sign and digits, are taken for
registers. -/
theorem register_names_exact (op : String) : ReadsRegisters op where
  parse := fun _ => Reg.ofChars?_eq_some_iff
  named := by
    intro hplus r
    rw [Reg.parse?, Reg.ofChars?_eq_some_iff]
    exact Reg.spells_iff_name (mt (Text.trim_subset _ ·) hplus)
  register := isRegister_iff
  low := isLowRegister_iff
  same := fun _ => sameRegister_iff
  stack := isSp_iff
  memory := fun _ => address?_eq_some_iff
  label := isLabel_iff

/-- A plus sign before the number is read over, though no register is named so. -/
theorem register_with_plus :
    Reg.parse? "R+5" = some ⟨5⟩ ∧
      ∀ r, ¬Reg.Name (Text.upper (Text.trim "R+5".toList)) r := by
  refine ⟨by decide, ?_⟩
  intro r h
  have htext : Text.upper (Text.trim "R+5".toList) = ['R', '+', '5'] := by decide
  rw [htext] at h
  generalize hcs : ['R', '+', '5'] = cs at h
  cases h with
  | numbered =>
    have hdigit := isDigit_toDigits r.number '+'
    rw [← (List.cons.inj hcs).2] at hdigit
    cases hdigit (.head _)
  | sp => cases hcs
  | lr => cases hcs
  | pc => cases hcs

end Operand

end Thumb
