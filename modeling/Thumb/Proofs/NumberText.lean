import Thumb.Proofs.WrittenOperand

namespace Thumb

namespace Text

def IsDigit (base : Nat) (c : Char) (d : Nat) : Prop :=
  d < base ∧ (c = d.digitChar ∨ c = d.digitChar.toUpper)

/-- One or more digits of a base, of which the highest comes first, and their value. -/
inductive Numeral (base : Nat) : List Char → Nat → Prop
  | digits {cs : List Char} {ds : List Nat} (chars : List.Forall₂ (IsDigit base) cs ds)
      (nonempty : ds ≠ []) : Numeral base cs (Nat.ofDigits base ds.reverse)

variable {base : Nat} {c : Char} {cs : List Char}

theorem eq_of_toNat {n : Nat} {d : Char} (h : c.toNat = n) (hd : d.toNat = n) : c = d :=
  Char.toNat_inj.mp (h.trans hd.symm)

theorem isDigit_of_digit? {d : Nat} (h : digit? base c = some d) : IsDigit base c d := by
  obtain ⟨hvalue, hlt⟩ := Option.filter_eq_some_iff.mp h
  refine ⟨of_decide_eq_true hlt, ?_⟩
  split at hvalue
  case isTrue hrange =>
    obtain ⟨hmin, hmax⟩ : 48 ≤ c.toNat ∧ c.toNat ≤ 57 := hrange
    cases hvalue
    refine .inl (Char.toNat_inj.mp ?_)
    have hzero : '0'.toNat = 48 := rfl
    rw [Nat.toNat_digitChar_of_lt_ten (by omega)]
    omega
  case isFalse =>
    split at hvalue
    case isTrue hrange =>
      obtain ⟨hmin, hmax⟩ : 97 ≤ c.toNat ∧ c.toNat ≤ 102 := hrange
      cases hvalue
      left
      have ha : 'a'.toNat = 97 := rfl
      generalize hn : c.toNat = n at *
      interval_cases n <;> exact eq_of_toNat hn rfl
    case isFalse =>
      split at hvalue
      case isTrue hrange =>
        obtain ⟨hmin, hmax⟩ : 65 ≤ c.toNat ∧ c.toNat ≤ 70 := hrange
        cases hvalue
        right
        generalize hn : c.toNat = n at *
        interval_cases n <;> exact eq_of_toNat hn rfl
      case isFalse => cases hvalue

theorem digit?_eq_some_iff (hbase : base ≤ 16) {d : Nat} :
    digit? base c = some d ↔ IsDigit base c d := by
  refine ⟨isDigit_of_digit?, ?_⟩
  rintro ⟨hlt, hc⟩
  have hvalue (c : Char) (hc : c = d.digitChar ∨ c = d.digitChar.toUpper) :
      digit? 16 c = some d := by
    have hd : d < 16 := hlt.trans_le hbase
    rcases hc with rfl | rfl <;> interval_cases d <;> rfl
  have hsixteen := hvalue c hc
  unfold digit? at hsixteen ⊢
  obtain ⟨hsome, _⟩ := Option.filter_eq_some_iff.mp hsixteen
  exact Option.filter_eq_some_iff.mpr ⟨hsome, decide_eq_true hlt⟩

theorem foldlM_digit?_eq_some_iff (hbase : base ≤ 16) {m n : Nat} :
    cs.foldlM (fun n c => (digit? base c).map (n * base + ·)) m = some n ↔
      ∃ ds, List.Forall₂ (IsDigit base) cs ds ∧ ds.foldl (fun n d => n * base + d) m = n := by
  induction cs generalizing m with
  | nil => simp [eq_comm]
  | cons c cs ih =>
    simp only [List.foldlM_cons, Option.bind_eq_bind, Option.bind_eq_some_iff,
      Option.map_eq_some_iff, digit?_eq_some_iff hbase, ih, List.forall₂_cons_left_iff]
    constructor
    · rintro ⟨_, ⟨d, hd, rfl⟩, ds, hds, hn⟩
      exact ⟨d :: ds, ⟨d, ds, hd, hds, rfl⟩, hn⟩
    · rintro ⟨_, ⟨d, ds, hd, hds, rfl⟩, hn⟩
      exact ⟨_, ⟨d, hd, rfl⟩, ds, hds, hn⟩

theorem ofDigits_reverse (base : Nat) (ds : List Nat) :
    Nat.ofDigits base ds.reverse = ds.foldl (fun n d => n * base + d) 0 := by
  rw [Nat.ofDigits_eq_foldr, List.foldr_reverse]
  simp only [Nat.cast_id, Nat.mul_comm base, Nat.add_comm]

theorem natural?_eq_some_iff (hbase : base ≤ 16) {n : Nat} :
    natural? base cs = some n ↔ Numeral base cs n := by
  unfold natural?
  cases cs with
  | nil =>
    constructor
    · intro h
      cases h
    · rintro ⟨⟨⟩, hne⟩
      cases hne rfl
  | cons c cs =>
    rw [List.isEmpty_cons, if_neg Bool.false_ne_true, foldlM_digit?_eq_some_iff hbase]
    constructor
    · rintro ⟨ds, hds, rfl⟩
      rw [← ofDigits_reverse]
      refine .digits hds ?_
      rintro rfl
      cases hds
    · rintro ⟨hds, _⟩
      exact ⟨_, hds, (ofDigits_reverse base _).symm⟩

theorem Numeral.isDigit {n : Nat} (h : Numeral base cs n) : ∀ c ∈ cs, ∃ d, IsDigit base c d := by
  obtain ⟨hds, hne⟩ := h
  clear hne
  induction hds with
  | nil => exact List.forall_mem_nil _
  | cons hd _ ih => exact List.forall_mem_cons.mpr ⟨⟨_, hd⟩, ih⟩

theorem Numeral.not_mem (hbase : base ≤ 16) {n : Nat} (h : Numeral base cs n)
    (hc : digit? base c = none) : c ∉ cs := by
  intro hmem
  obtain ⟨d, hd⟩ := h.isDigit c hmem
  rw [(digit?_eq_some_iff hbase).mpr hd] at hc
  cases hc

theorem Numeral.ne_nil {n : Nat} (h : Numeral base cs n) : cs ≠ [] := by
  obtain ⟨hds, hne⟩ := h
  rintro rfl
  cases hds
  exact hne rfl

theorem Numeral.isDigit_ten {n : Nat} (h : Numeral 10 cs n) : ∀ c ∈ cs, c.isDigit = true := by
  intro c hc
  obtain ⟨d, hlt, hd⟩ := h.isDigit c hc
  rcases hd with rfl | rfl <;> interval_cases d <;> rfl

theorem unsigned?_eq_some_iff (hbase : base ≤ 16) {n : Nat} :
    unsigned? base cs = some n ↔
      Numeral base cs n ∨ ∃ digits, cs = '+' :: digits ∧ Numeral base digits n := by
  unfold unsigned?
  split
  case h_1 digits =>
    have hno : ¬Numeral base ('+' :: digits) n := fun h => h.not_mem hbase rfl (.head _)
    simp [natural?_eq_some_iff hbase, hno]
  case h_2 hplus =>
    rw [natural?_eq_some_iff hbase, or_iff_left]
    rintro ⟨digits, rfl, _⟩
    exact hplus digits rfl

theorem signed?_eq_some_iff (hbase : base ≤ 16) {v : Int} :
    signed? base cs = some v ↔
      (∃ n : Nat, unsigned? base cs = some n ∧ n = v) ∨
      ∃ (digits : List Char) (n : Nat), cs = '-' :: digits ∧ Numeral base digits n ∧ -n = v := by
  unfold signed?
  split
  case h_1 digits =>
    have hno (n : Nat) : ¬unsigned? base ('-' :: digits) = some n := by
      rw [unsigned?_eq_some_iff hbase]
      rintro (h | ⟨_, h, _⟩)
      · exact h.not_mem hbase rfl (.head _)
      · cases h
    simp [Option.bind_eq_some_iff, natural?_eq_some_iff hbase, hno]
  case h_2 hminus =>
    rw [or_iff_left]
    · simp [Option.bind_eq_some_iff]
    · rintro ⟨digits, _, rfl, _⟩
      exact hminus digits rfl

end Text

namespace Operand

inductive BaseMark : Nat → List Char → Prop
  | hexadecimal {x : Char} (letter : x = 'x' ∨ x = 'X') : BaseMark 16 ['0', x]
  | binary {x : Char} (letter : x = 'b' ∨ x = 'B') : BaseMark 2 ['0', x]

/-- Numbers without a sign. A character stands for its only byte. -/
inductive Unsigned : List Char → Int → Prop
  | marked {base n : Nat} {mark cs : List Char} (marks : BaseMark base mark)
      (digits : Text.Numeral base cs n) (size : n < 2 ^ 63) : Unsigned (mark ++ cs) n
  | character {c : Char} (byte : c.utf8Size = 1) : Unsigned ['\'', c, '\''] c.toNat
  | decimal {n : Nat} {cs : List Char} (digits : Text.Numeral 10 cs n) (size : n < 2 ^ 63) :
      Unsigned cs n

/-- Numbers with a sign between the mark and the digits. -/
inductive SignedDigits : List Char → Int → Prop
  | plus {base n : Nat} {mark cs : List Char} (marks : BaseMark base mark)
      (digits : Text.Numeral base cs n) (size : n < 2 ^ 63) : SignedDigits (mark ++ '+' :: cs) n
  | minus {base n : Nat} {mark cs : List Char} (marks : BaseMark base mark)
      (digits : Text.Numeral base cs n) (size : n ≤ 2 ^ 63) : SignedDigits (mark ++ '-' :: cs) (-n)

/-- What may stand after a sign, with one or without. Blanks may follow a minus sign. -/
inductive AfterSign (P : List Char → Int → Prop) : List Char → Int → Prop
  | none {cs : List Char} {v : Int} (h : P cs v) : AfterSign P cs v
  | plus {cs : List Char} {v : Int} (h : P cs v) : AfterSign P ('+' :: cs) v
  | minus {blanks cs : List Char} {v : Int} (blank : ∀ c ∈ blanks, Text.isBlank c = true)
      (h : P cs v) : AfterSign P ('-' :: (blanks ++ cs)) (-v)

theorem fits64_iff {v : Int} : fits64 v = true ↔ -2 ^ 63 ≤ v ∧ v < 2 ^ 63 := by
  simp [fits64]

theorem bmod_of_fits64 {v : Int} (h : fits64 v = true) : Int.bmod v (2 ^ 64) = v := by
  obtain ⟨hmin, hmax⟩ := fits64_iff.mp h
  exact Int.bmod_eq_of_le_mul_two (by push_cast; omega) (by push_cast; omega)

theorem utf8Size_eq_one_iff {c : Char} : c.utf8Size = 1 ↔ c.toNat < 128 := by
  have hiff : c.val ≤ 0x7F ↔ c.toNat < 128 := Nat.lt_succ_iff.symm
  unfold Char.utf8Size
  grind

theorem BaseMark.magnitude? {base : Nat} {mark : List Char} (h : BaseMark base mark)
    (cs : List Char) : magnitude? (mark ++ cs) = Text.signed? base cs := by
  cases h with
  | hexadecimal letter => rcases letter with rfl | rfl <;> rfl
  | binary letter => rcases letter with rfl | rfl <;> rfl

theorem BaseMark.le {base : Nat} {mark : List Char} (h : BaseMark base mark) : base ≤ 16 := by
  cases h <;> decide

theorem unsigned_or_signedDigits_of_mark {base : Nat} {mark cs : List Char} {v : Int}
    (hmark : BaseMark base mark) (h : Text.signed? base cs = some v) (hfits : fits64 v = true) :
    Unsigned (mark ++ cs) v ∨ SignedDigits (mark ++ cs) v := by
  rw [fits64_iff] at hfits
  rw [Text.signed?_eq_some_iff hmark.le] at h
  simp only [Text.unsigned?_eq_some_iff hmark.le] at h
  obtain ⟨n, hdigits | ⟨digits, rfl, hdigits⟩, rfl⟩ | ⟨digits, n, rfl, hdigits, rfl⟩ := h
  · exact .inl (.marked hmark hdigits (by omega))
  · exact .inr (.plus hmark hdigits (by omega))
  · exact .inr (.minus hmark hdigits (by omega))

theorem unsigned_or_signedDigits_of_magnitude {cs : List Char} {v : Int}
    (h : magnitude? cs = some v) (hfits : fits64 v = true) : Unsigned cs v ∨ SignedDigits cs v := by
  have hmarked {base : Nat} {mark digits : List Char} (hmark : BaseMark base mark)
      (h : Text.signed? base digits = some v) :=
    unsigned_or_signedDigits_of_mark hmark h hfits
  unfold magnitude? at h
  split at h
  case h_1 => exact hmarked (.hexadecimal (.inl rfl)) h
  case h_2 => exact hmarked (.hexadecimal (.inr rfl)) h
  case h_3 => exact hmarked (.binary (.inl rfl)) h
  case h_4 => exact hmarked (.binary (.inr rfl)) h
  case h_5 c =>
    split at h
    case isTrue hbyte =>
      cases h
      exact .inl (.character (utf8Size_eq_one_iff.mpr hbyte))
    case isFalse => cases h
  case h_6 =>
    obtain ⟨n, hdigits, rfl⟩ : ∃ n, Text.natural? 10 cs = some n ∧ (n : Int) = v := by
      simpa [Option.bind_eq_some_iff] using h
    rw [Text.natural?_eq_some_iff (by decide)] at hdigits
    rw [fits64_iff] at hfits
    exact .inl (.decimal hdigits (by omega))

theorem Unsigned.magnitude {cs : List Char} {v : Int} (h : Unsigned cs v) :
    magnitude? cs = some v ∧ fits64 v = true := by
  rw [fits64_iff]
  cases h with
  | marked marks digits size =>
    rw [marks.magnitude?, Text.signed?_eq_some_iff marks.le]
    exact ⟨.inl ⟨_, (Text.unsigned?_eq_some_iff marks.le).mpr (.inl digits), rfl⟩, by omega⟩
  | character byte =>
    have hlt := utf8Size_eq_one_iff.mp byte
    exact ⟨if_pos hlt, by omega⟩
  | decimal digits size =>
    rw [magnitude?_of_isDigit digits.isDigit_ten,
      (Text.natural?_eq_some_iff (by decide)).mpr digits]
    exact ⟨rfl, by omega⟩

theorem SignedDigits.magnitude {cs : List Char} {v : Int} (h : SignedDigits cs v) :
    magnitude? cs = some v ∧ fits64 v = true := by
  rw [fits64_iff]
  cases h with
  | plus marks digits size =>
    rw [marks.magnitude?, Text.signed?_eq_some_iff marks.le]
    exact ⟨.inl ⟨_, (Text.unsigned?_eq_some_iff marks.le).mpr (.inr ⟨_, rfl, digits⟩), rfl⟩,
      by omega⟩
  | minus marks digits size =>
    rw [marks.magnitude?, Text.signed?_eq_some_iff marks.le]
    exact ⟨.inr ⟨_, _, rfl, digits, rfl⟩, by omega⟩

theorem magnitude_eq_some_iff {cs : List Char} {v : Int} :
    (magnitude? cs).filter fits64 = some v ↔ Unsigned cs v ∨ SignedDigits cs v := by
  rw [Option.filter_eq_some_iff]
  constructor
  · rintro ⟨h, hfits⟩
    exact unsigned_or_signedDigits_of_magnitude h hfits
  · rintro (h | h)
    · exact h.magnitude
    · exact h.magnitude

theorem start_of_magnitude {cs : List Char} {v : Int} (h : Unsigned cs v ∨ SignedDigits cs v) :
    ∃ c rest, cs = c :: rest ∧ c ≠ '-' ∧ c ≠ '+' ∧ Text.isBlank c = false := by
  have hmark {base : Nat} {mark : List Char} (h : BaseMark base mark) (cs : List Char) :
      ∃ rest, mark ++ cs = '0' :: rest := by
    cases h <;> exact ⟨_, rfl⟩
  have hzero {cs : List Char} (h : ∃ rest, cs = '0' :: rest) :
      ∃ c rest, cs = c :: rest ∧ c ≠ '-' ∧ c ≠ '+' ∧ Text.isBlank c = false := by
    obtain ⟨rest, rfl⟩ := h
    exact ⟨'0', rest, rfl, by decide⟩
  rcases h with h | h
  · cases h with
    | marked marks => exact hzero (hmark marks _)
    | @character c => exact ⟨'\'', [c, '\''], rfl, by decide⟩
    | decimal digits =>
      obtain ⟨c, rest, rfl⟩ := List.exists_cons_of_ne_nil digits.ne_nil
      have hdigit := digits.isDigit_ten c (.head _)
      refine ⟨c, rest, rfl, ?_, ?_, Text.isBlank_of_isDigit hdigit⟩
      · rintro rfl
        cases hdigit
      · rintro rfl
        cases hdigit
  · cases h with
    | plus marks => exact hzero (hmark marks _)
    | minus marks => exact hzero (hmark marks _)

theorem number?_of_afterSign {P : List Char → Int → Prop}
    (hP : ∀ cs v, P cs v → Unsigned cs v ∨ SignedDigits cs v) {text : String} {v : Int}
    (h : AfterSign P (Text.trim text.toList) v) : number? text = some (Int.bmod v (2 ^ 64)) := by
  have hread {cs : List Char} {v : Int} (h : P cs v) :
      (magnitude? cs).filter fits64 = some (Int.bmod v (2 ^ 64)) := by
    have hfilter := magnitude_eq_some_iff.mpr (hP _ _ h)
    rw [hfilter, bmod_of_fits64 (Option.filter_eq_some_iff.mp hfilter).2]
  unfold number?
  generalize Text.trim text.toList = cs at h ⊢
  cases h with
  | none h =>
    obtain ⟨c, rest, rfl, hminus, hplus, _⟩ := start_of_magnitude (hP _ _ h)
    split
    case h_1 heq => exact absurd (List.cons.inj heq).1 hminus
    case h_2 heq => exact absurd (List.cons.inj heq).1 hplus
    case h_3 => exact hread h
  | plus h => exact hread h
  | @minus blanks cs v blank h =>
    obtain ⟨c, rest, rfl, _, _, hc⟩ := start_of_magnitude (hP _ _ h)
    have hstart : Text.trimStart (blanks ++ c :: rest) = c :: rest := by
      rw [Text.trimStart, List.dropWhile_append_of_pos blank,
        List.dropWhile_cons_of_neg (by simp [hc])]
    refine Option.map_eq_some_iff.mpr ⟨v, ?_, rfl⟩
    rw [hstart]
    exact magnitude_eq_some_iff.mpr (hP _ _ h)

theorem afterSign_of_number? {text : String} {v : Int} (h : number? text = some v) :
    ∃ w, Int.bmod w (2 ^ 64) = v ∧
      (AfterSign Unsigned (Text.trim text.toList) w ∨
        AfterSign SignedDigits (Text.trim text.toList) w) := by
  unfold number? at h
  split at h
  case h_1 rest htrim =>
    obtain ⟨i, hi, hv⟩ := Option.map_eq_some_iff.mp h
    have hblanks : ∀ c ∈ rest.takeWhile Text.isBlank, Text.isBlank c = true :=
      fun c hc => List.mem_takeWhile_imp hc
    rw [htrim, ← List.takeWhile_append_dropWhile (p := Text.isBlank) (l := rest)]
    exact ⟨-i, hv, (magnitude_eq_some_iff.mp hi).imp (.minus hblanks) (.minus hblanks)⟩
  case h_2 rest htrim =>
    rw [htrim]
    exact ⟨v, bmod_of_fits64 (Option.filter_eq_some_iff.mp h).2,
      (magnitude_eq_some_iff.mp h).imp .plus .plus⟩
  case h_3 =>
    exact ⟨v, bmod_of_fits64 (Option.filter_eq_some_iff.mp h).2,
      (magnitude_eq_some_iff.mp h).imp .none .none⟩

theorem Unsigned.bounds {cs : List Char} {v : Int} (h : Unsigned cs v) : 0 ≤ v ∧ v < 2 ^ 63 := by
  refine ⟨?_, (fits64_iff.mp h.magnitude.2).2⟩
  cases h <;> omega

theorem AfterSign.fits64 {cs : List Char} {v : Int} (h : AfterSign Unsigned cs v) :
    fits64 v = true := by
  rw [fits64_iff]
  cases h with
  | none h | plus h | minus _ h =>
    have hbounds := h.bounds
    omega

/-- A number with a second sign can be one too large for 64 bits. -/
theorem AfterSign.bounds {cs : List Char} {v : Int} (h : AfterSign SignedDigits cs v) :
    -2 ^ 63 ≤ v ∧ v ≤ 2 ^ 63 := by
  cases h with
  | none h | plus h | minus _ h =>
    have hfits := fits64_iff.mp h.magnitude.2
    omega

theorem bmod_limit : Int.bmod (2 ^ 63) (2 ^ 64) = -2 ^ 63 := by decide

/-- A text is a number if it is one by the rules, or if a sign stands between a mark and its digits;
and it is then that number. A second minus sign before the least number of 64 bits is without
effect. -/
theorem number_grammar (text : String) (v : Int) :
    number? text = some v ↔
      AfterSign Unsigned (Text.trim text.toList) v ∨
      AfterSign SignedDigits (Text.trim text.toList) v ∧ v < 2 ^ 63 ∨
      AfterSign SignedDigits (Text.trim text.toList) (2 ^ 63) ∧ v = -2 ^ 63 := by
  constructor
  · intro h
    obtain ⟨w, rfl, hw | hw⟩ := afterSign_of_number? h
    · rw [bmod_of_fits64 hw.fits64]
      exact .inl hw
    · obtain ⟨hmin, hmax⟩ := hw.bounds
      rcases hmax.lt_or_eq with hlt | rfl
      · rw [bmod_of_fits64 (fits64_iff.mpr ⟨hmin, hlt⟩)]
        exact .inr (.inl ⟨hw, hlt⟩)
      · exact .inr (.inr ⟨hw, bmod_limit⟩)
  · rintro (h | ⟨h, hlt⟩ | ⟨h, rfl⟩)
    · rw [number?_of_afterSign (fun _ _ => .inl) h, bmod_of_fits64 h.fits64]
    · rw [number?_of_afterSign (fun _ _ => .inr) h,
        bmod_of_fits64 (fits64_iff.mpr ⟨h.bounds.1, hlt⟩)]
    · rw [number?_of_afterSign (fun _ _ => .inr) h, bmod_limit]

/-- A minus sign after a mark is read as that of the number, which the rules do not have. -/
theorem number_of_signed_digits :
    number? "0x-5" = some (-5) ∧ ∀ v, ¬AfterSign Unsigned (Text.trim "0x-5".toList) v := by
  refine ⟨by decide, ?_⟩
  intro v h
  have htext : Text.trim "0x-5".toList = ['0', 'x', '-', '5'] := by decide
  rw [htext] at h
  have hminus : '-' ∈ ['0', 'x', '-', '5'] := by decide
  obtain ⟨h⟩ := h
  generalize hcs : ['0', 'x', '-', '5'] = cs at h
  cases h with
  | marked marks digits size =>
    have hle := marks.le
    cases marks <;> cases hcs <;> exact digits.not_mem hle rfl (.head _)
  | character => cases hcs
  | decimal digits size => exact digits.not_mem (by decide) rfl (hcs ▸ hminus)

end Operand

end Thumb
