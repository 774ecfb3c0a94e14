import Thumb.Object.Draft
import Thumb.Proofs.Except

namespace Thumb

namespace Text

theorem count_dropWhile {c : Char} {p : Char → Bool} (hc : p c = false) (cs : List Char) :
    (cs.dropWhile p).count c = cs.count c := by
  have hnone : (cs.takeWhile p).count c = 0 := by
    rw [List.count_eq_zero]
    intro h
    rw [List.mem_takeWhile_imp h] at hc
    cases hc
  conv_rhs => rw [← List.takeWhile_append_dropWhile (p := p) (l := cs), List.count_append, hnone]
  rw [Nat.zero_add]

theorem count_trim {c : Char} (hc : isBlank c = false) (cs : List Char) :
    (trim cs).count c = cs.count c := by
  rw [trim, trimEnd, List.count_reverse, count_dropWhile hc, List.count_reverse, trimStart,
    count_dropWhile hc]

theorem mem_trim {cs : List Char} {c : Char} (h : c ∈ cs) (hc : isBlank c = false) :
    c ∈ trim cs := by
  rw [← List.count_pos_iff, count_trim hc, List.count_pos_iff]
  exact h

theorem trim_subset (cs : List Char) : trim cs ⊆ cs := by
  intro c hc
  have hstart : c ∈ trimStart cs :=
    List.mem_reverse.mp ((List.dropWhile_sublist _).subset (List.mem_reverse.mp hc))
  exact (List.dropWhile_sublist _).subset hstart

theorem trim_eq_self {cs : List Char} (h : ∀ c ∈ cs, isBlank c = false) : trim cs = cs := by
  have hdrop {l : List Char} (hl : ∀ c ∈ l, isBlank c = false) : l.dropWhile isBlank = l := by
    cases l with
    | nil => rfl
    | cons c l => exact List.dropWhile_cons_of_neg (by simp [hl c (.head _)])
  rw [trim, trimStart, hdrop h, trimEnd, hdrop, List.reverse_reverse]
  intro c hc
  exact h c (List.mem_reverse.mp hc)

theorem isBlank_of_isDigit {c : Char} (h : c.isDigit = true) : isBlank c = false := by
  have hrange : 48 ≤ c.toNat ∧ c.toNat ≤ 57 := by
    simpa [Char.isDigit, UInt32.le_iff_toNat_le] using h
  unfold isBlank
  grind

theorem digit?_of_natural? {base n : Nat} {cs : List Char} (h : natural? base cs = some n) :
    ∀ c ∈ cs, (digit? base c).isSome = true := by
  unfold natural? at h
  split at h
  · cases h
  · clear * - h
    generalize 0 = start at h
    induction cs generalizing start with
    | nil => exact nofun
    | cons c cs ih =>
      rw [List.foldlM_cons] at h
      obtain ⟨next, hnext, h⟩ := Option.bind_eq_some_iff.mp h
      obtain ⟨digit, hdigit, _⟩ := Option.map_eq_some_iff.mp hnext
      intro c' hc'
      rcases List.mem_cons.mp hc' with rfl | hc'
      · rw [hdigit]
        rfl
      · exact ih next h c' hc'

theorem digit?_of_unsigned? {base n : Nat} {cs : List Char} (h : unsigned? base cs = some n) :
    ∀ c ∈ cs, c = '+' ∨ (digit? base c).isSome = true := by
  unfold unsigned? at h
  split at h
  · intro c hc
    exact (List.mem_cons.mp hc).imp_right (digit?_of_natural? h c)
  · intro c hc
    exact .inr (digit?_of_natural? h c hc)

end Text

namespace Reg

/-- No mark of an operand stands in the name of a register. -/
theorem not_mem_of_ofChars? {cs : List Char} {r : Reg} (h : ofChars? cs = some r) {c : Char}
    (hc : c ∈ ['#', '=', ',', '[', ']', '$', '.', '\'', '-', '!']) : c ∉ cs := by
  intro hmem
  obtain ⟨hblank, hupper, hletter, hdigit⟩ : Text.isBlank c = false ∧ c.toUpper = c ∧
      c ∉ ['S', 'P', 'L', 'R', 'C', '+'] ∧ Text.digit? 10 c = none := by
    simp only [List.mem_cons, List.not_mem_nil, or_false] at hc
    rcases hc with rfl | rfl | rfl | rfl | rfl | rfl | rfl | rfl | rfl | rfl <;> decide
  have hmem : c ∈ Text.upper (Text.trim cs) :=
    List.mem_map.mpr ⟨c, Text.mem_trim hmem hblank, hupper⟩
  simp only [List.mem_cons, List.not_mem_nil, or_false, not_or] at hletter
  unfold ofChars? at h
  generalize Text.upper (Text.trim cs) = text at h hmem
  split at h
  · simp [hletter] at hmem
  · simp [hletter] at hmem
  · simp [hletter] at hmem
  case h_4 digits =>
    have hmem : c ∈ digits := by simpa [hletter] using hmem
    unfold ofDigits? at h
    split at h
    · cases h
    · obtain ⟨n, hn, _⟩ := Option.bind_eq_some_iff.mp h
      have hchar := Text.digit?_of_unsigned? hn c hmem
      simp [hletter, hdigit] at hchar
  · cases h

end Reg

theorem Form.mem_dropMarks {c : Char} (hblank : Text.isBlank c = false) (hne : c ≠ '!')
    {cs : List Char} (hmem : c ∈ cs) : c ∈ dropMarks (Text.trimEnd cs) := by
  rw [← List.count_pos_iff, dropMarks, List.count_reverse,
    Text.count_dropWhile (by simpa using hne), List.count_reverse, Text.trimEnd, List.count_reverse,
    Text.count_dropWhile hblank, List.count_reverse, List.count_pos_iff]
  exact hmem

theorem Operand.isNameChar_of_isLabel {op : String} (h : isLabel op = true) :
    ∀ c ∈ Text.trim op.toList, isNameChar c = true := by
  unfold isLabel at h
  split at h
  · cases h
  case h_2 c cs htrim =>
    rw [Bool.and_eq_true, Bool.and_eq_true] at h
    obtain ⟨⟨hstart, hall⟩, _⟩ := h
    have hfirst : isNameChar c = true := by
      unfold isNameStart at hstart
      unfold isNameChar Char.isAlphanum
      grind
    rw [htrim]
    exact List.forall_mem_cons.mpr ⟨hfirst, List.all_eq_true.mp hall⟩

theorem Reg.low_lowOfNat {r : Reg} (h : r.isLow = true) : Reg.low (lowOfNat r.number) = r := by
  obtain ⟨n⟩ := r
  rw [isLow, decide_eq_true_eq] at h
  exact congrArg Reg.mk (Fin.ext (Nat.mod_eq_of_lt h))

theorem Reg.low_ne_pc (d : Fin 8) : Reg.low d ≠ .pc := by
  revert d
  decide

theorem Operand.register_eq_ok {op : String} {r : Reg} :
    register op = .ok r ↔ Reg.parse? op = some r := by
  unfold register
  cases Reg.parse? op with
  | some r' => simp
  | none => simp

theorem Operand.lowRegister_eq_ok {op : String} {d : Fin 8} :
    lowRegister op = .ok d ↔ Reg.parse? op = some (.low d) := by
  simp only [lowRegister, bind_ok_iff, register_eq_ok]
  constructor
  · rintro ⟨r, hr, h⟩
    split at h
    case isTrue hlow =>
      cases h
      rw [hr, Reg.low_lowOfNat hlow]
    case isFalse => cases h
  · intro h
    have hlow : (Reg.low d).isLow = true := decide_eq_true d.isLt
    refine ⟨_, h, ?_⟩
    rw [if_pos hlow]
    exact congrArg Except.ok (Fin.ext (Nat.mod_eq_of_lt d.isLt))

theorem Object.Draft.operand_register (d : Draft) (line : Nat) {op : String} {r : Reg}
    (h : Reg.parse? op = some r) : d.operand line op = (op, d) := by
  have hmarks {c : Char} (hc : c ∈ ['#', '=']) : c ∉ op.toList :=
    Reg.not_mem_of_ofChars? h (List.mem_append_left _ hc)
  unfold operand
  split
  case h_1 value htrim =>
    have hmem : '=' ∈ op.toList := Text.trim_subset _ (htrim ▸ .head _)
    cases hmarks (by decide) hmem
  case h_2 =>
    have hsplit := List.splitOn_eq_singleton (hmarks (c := '#') (by decide))
    unfold Constants.substitute
    rw [hsplit]
    simp

end Thumb
