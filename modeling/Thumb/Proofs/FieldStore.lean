import Thumb.Proofs.Except
import Thumb.Proofs.Pattern

namespace Thumb

namespace Cell

theorem ofChar?_eq_some {c : Char} {cell : Cell} : ofChar? c = some cell ↔ c = cell.toChar := by
  constructor
  · intro h
    unfold ofChar? at h
    split at h <;> cases h <;> rfl
  · rintro rfl
    cases cell <;> rfl

theorem toChar_injective : Function.Injective toChar := by
  intro a b h
  have ha := ofChar?_eq_some.mpr (rfl : a.toChar = a.toChar)
  exact Option.some.inj (ha.symm.trans (ofChar?_eq_some.mpr h))

def IsChar (c : Char) : Prop :=
  c = '0' ∨ c = '1' ∨ c = 'X'

theorem isChar_iff {c : Char} : IsChar c ↔ ∃ cell : Cell, c = cell.toChar := by
  constructor
  · rintro (h | h | h)
    · exact ⟨.zero, h⟩
    · exact ⟨.one, h⟩
    · exact ⟨.free, h⟩
  · rintro ⟨cell, h⟩
    cases cell with
    | zero => exact .inl h
    | one => exact .inr (.inl h)
    | free => exact .inr (.inr h)

end Cell

namespace Pattern

section Bytes

variable {c : Char} {text : String}

theorem bytes_of_le (h : c.toNat ≤ 127) :
    ((String.utf8EncodeChar c).map fun b => Char.ofNat b.toNat) = [c] := by
  have hbyte : (UInt8.ofNat c.toNat).toNat = c.toNat := by
    rw [UInt8.toNat_ofNat']
    exact Nat.mod_eq_of_lt (Nat.lt_of_le_of_lt h (by decide))
  have hencode : String.utf8EncodeChar c = [UInt8.ofNat c.toNat] := if_pos h
  rw [hencode, List.map_singleton, hbyte, Char.ofNat_toNat]

/-- The last byte of any other character has its eighth bit. -/
theorem exists_byte_of_lt (h : 127 < c.toNat) :
    ∃ b ∈ (String.utf8EncodeChar c).map fun b => Char.ofNat b.toNat, 127 < b.toNat := by
  have hlast : UInt8.ofNat (c.toNat % 64 + 128) ∈ String.utf8EncodeChar c := by
    have hnot : ¬c.val.toNat ≤ 127 := Nat.not_le.mpr h
    simp only [String.utf8EncodeChar, if_neg hnot]
    split
    · exact .tail _ (.head _)
    · split
      · exact .tail _ (.tail _ (.head _))
      · exact .tail _ (.tail _ (.tail _ (.head _)))
  refine ⟨_, List.mem_map_of_mem hlast, ?_⟩
  have hbyte : (UInt8.ofNat (c.toNat % 64 + 128)).toNat = c.toNat % 64 + 128 := by
    rw [UInt8.toNat_ofNat']
    exact Nat.mod_eq_of_lt (by omega)
  have hvalid : (c.toNat % 64 + 128).isValidChar := .inl (by omega)
  rw [hbyte, Char.toNat_ofNat, if_pos hvalid]
  omega

theorem byteChars_eq (h : ∀ c ∈ text.toList, c.toNat ≤ 127) : byteChars text = text.toList := by
  rw [byteChars, List.flatMap_congr fun c hc => bytes_of_le (h c hc), List.flatMap_singleton']

theorem toNat_le_of_byteChars (h : ∀ b ∈ byteChars text, b.toNat ≤ 127) :
    ∀ c ∈ text.toList, c.toNat ≤ 127 := by
  intro c hc
  by_contra hlt
  obtain ⟨b, hb, hlarge⟩ := exists_byte_of_lt (Nat.not_le.mp hlt)
  exact absurd (h b (List.mem_flatMap.mpr ⟨c, hc, hb⟩)) (Nat.not_le.mpr hlarge)

/-- The bytes of a text are the characters of cells only if its characters are. -/
theorem byteChars_eq_cells {cells : List Cell} :
    byteChars text = cells.map Cell.toChar ↔ text.toList = cells.map Cell.toChar := by
  have hcells : ∀ c ∈ cells.map Cell.toChar, c.toNat ≤ 127 := by
    rw [List.forall_mem_map]
    intro cell _
    cases cell <;> decide
  constructor
  · intro h
    have hle := toNat_le_of_byteChars (h ▸ hcells)
    exact (byteChars_eq hle).symm.trans h
  · intro h
    exact (byteChars_eq (h ▸ hcells)).trans h

end Bytes

section Text

variable {text : String} {p : Pattern} {cells : List Cell}

theorem cellAt_eq_ok {c : Char} {position : Nat} {cell : Cell} :
    cellAt c position = .ok cell ↔ c = cell.toChar := by
  rw [← Cell.ofChar?_eq_some, cellAt]
  cases Cell.ofChar? c with
  | none =>
    constructor
    · intro h
      cases h
    · intro h
      cases h
  | some cell' => rw [Except.ok.injEq, Option.some.injEq]

theorem mapM_cellAt {f : Char × Nat → Except PatternError Cell}
    (hf : ∀ c position, f (c, position) = cellAt c position) {cs : List Char} {start : Nat} :
    (cs.zipIdx start).mapM f = .ok cells ↔ cs = cells.map Cell.toChar := by
  induction cs generalizing cells start with
  | nil =>
    rw [List.zipIdx_nil, List.mapM_nil, List.nil_eq, List.map_eq_nil_iff]
    constructor
    · intro h
      cases h
      rfl
    · rintro rfl
      rfl
  | cons c cs ih =>
    rw [List.zipIdx_cons, List.mapM_cons, bind_ok_iff]
    simp only [hf, bind_ok_iff, cellAt_eq_ok, ih]
    constructor
    · rintro ⟨cell, rfl, rest, rfl, h⟩
      cases h
      rfl
    · intro h
      cases cells with
      | nil => cases h
      | cons cell rest =>
        obtain ⟨rfl, rfl⟩ := List.cons.inj h
        exact ⟨cell, rfl, rest, rfl, rfl⟩

theorem parse_eq_ok :
    parse text = .ok p ↔
      ∃ cells : List Cell, text.toList = cells.map Cell.toChar ∧ cells.length = 16 ∧
        ofCells cells = p := by
  rw [parse]
  constructor
  · intro h
    split at h
    case isTrue => cases h
    case isFalse hlength =>
      obtain ⟨cells, hcells, h⟩ := bind_ok_iff.mp h
      have hchars : byteChars text = cells.map Cell.toChar := (mapM_cellAt fun _ _ => rfl).mp hcells
      rw [hchars, List.length_map, ne_eq, not_not] at hlength
      exact ⟨cells, byteChars_eq_cells.mp hchars, hlength, Except.ok.inj h⟩
  · rintro ⟨cells, hcells, hlength, rfl⟩
    have hchars := byteChars_eq_cells.mpr hcells
    rw [hchars, List.length_map, if_neg (not_not.mpr hlength)]
    exact bind_ok_iff.mpr ⟨cells, (mapM_cellAt fun _ _ => rfl).mpr rfl, rfl⟩

theorem getLsbD_bitsOf {bits : List Bool} (h : bits.length = 16) {i : Nat} (hi : i < 16) :
    (bitsOf bits).getLsbD i = bits.getD (15 - i) false := by
  have hlt : i < bits.length := by omega
  have hindex : bits.length - 1 - i = 15 - i := by omega
  rw [bitsOf, BitVec.getLsbD_setWidth, BitVec.getLsbD_ofBoolListBE, hindex]
  simp [hi, hlt]

theorem getLsbD_ofCells (h : cells.length = 16) {i : Nat} (hi : i < 16) :
    ∃ cell, cells[15 - i]? = some cell ∧ (ofCells cells).fixed.getLsbD i = (cell != .free) ∧
      (ofCells cells).ones.getLsbD i = (cell == .one) := by
  have hlt : 15 - i < cells.length := by omega
  have hbits (test : Cell → Bool) : (bitsOf (cells.map test)).getLsbD i = test cells[15 - i] := by
    rw [getLsbD_bitsOf ((List.length_map _).trans h) hi, List.getD_eq_getElem?_getD,
      List.getElem?_map, List.getElem?_eq_getElem hlt]
    rfl
  exact ⟨_, List.getElem?_eq_getElem hlt, hbits _, hbits _⟩

theorem cell_ofCells (h : cells.length = 16) {i : Nat} (hi : i < 16) :
    cells[15 - i]? = some ((ofCells cells).cell i) := by
  obtain ⟨cell, hcell, hfixed, hones⟩ := getLsbD_ofCells h hi
  rw [hcell, Pattern.cell, hfixed, hones]
  cases cell <;> rfl

theorem cells_ofCells (h : cells.length = 16) : (ofCells cells).cells = cells := by
  apply List.ext_getElem
  · rw [Pattern.cells, List.length_map, List.length_reverse, List.length_range, h]
  · intro n _ hn
    have hcell := cell_ofCells h (Nat.lt_succ_of_le (Nat.sub_le 15 n))
    have hindex : 15 - (15 - n) = n := by omega
    rw [hindex, List.getElem?_eq_getElem hn] at hcell
    simp only [Pattern.cells, List.getElem_map, List.getElem_reverse, List.length_range,
      List.getElem_range]
    exact (Option.some.inj hcell).symm

theorem text_ofCells (h : cells.length = 16) :
    (ofCells cells).text = String.ofList (cells.map Cell.toChar) := by
  rw [Pattern.text, cells_ofCells h]

theorem length_free (p : Pattern) : p.free.length = p.cells.count .free := by
  rw [free, cells, List.count_eq_countP, List.countP_map, List.countP_reverse,
    ← List.countP_eq_length_filter]
  apply List.countP_congr
  intro i _
  simp only [Function.comp, cell]
  cases p.fixed.getLsbD i <;> cases p.ones.getLsbD i <;> decide

theorem accepts_base_ofCells (h : cells.length = 16) :
    (ofCells cells).accepts (ofCells cells).base = true := by
  rw [accepts_iff]
  intro i hi
  obtain ⟨cell, _, hfixed, hones⟩ := getLsbD_ofCells h hi
  rw [base, hfixed, hones]
  cases cell <;> rfl

end Text

/-- Bits that are put back where they were taken from change nothing. -/
theorem deposit_extract_self (p : Pattern) (v : Halfword) : p.deposit v (p.extract v) = v := by
  apply BitVec.eq_of_getLsbD_eq
  intro i hi
  cases hf : p.fixed.getLsbD i with
  | false => exact getLsbD_scatter_gather v v lt_of_mem_free (mem_free.mpr ⟨hi, hf⟩)
  | true => exact p.getLsbD_deposit v _ hf

def IsText (text : String) : Prop :=
  text.toList.length = 16 ∧ ∀ c ∈ text.toList, Cell.IsChar c

theorem isText_iff {text : String} :
    IsText text ↔ ∃ cells : List Cell, text.toList = cells.map Cell.toChar ∧ cells.length = 16 := by
  constructor
  · rintro ⟨hlength, hchars⟩
    have hrange : text.toList ∈ Set.range (List.map Cell.toChar) := by
      rw [Set.range_list_map]
      intro c hc
      obtain ⟨cell, hcell⟩ := Cell.isChar_iff.mp (hchars c hc)
      exact ⟨cell, hcell.symm⟩
    obtain ⟨cells, hcells⟩ := hrange
    refine ⟨cells, hcells.symm, ?_⟩
    rw [← hlength, ← hcells, List.length_map]
  · rintro ⟨cells, hcells, hlength⟩
    rw [IsText, hcells, List.length_map, List.forall_mem_map]
    exact ⟨hlength, fun cell _ => Cell.isChar_iff.mpr ⟨cell, rfl⟩⟩

/-- A pattern as a store of numbers, by its text. The bit of weight `i` is at position `15 - i`. -/
structure Stores (p : Pattern) (text : String) : Prop where
  /-- A halfword fits if its bits are those of the text. -/
  fits : ∀ v, p.accepts v = true ↔ ∀ i < 16,
    (text.toList[15 - i]? = some '0' → v.getLsbD i = false) ∧
    (text.toList[15 - i]? = some '1' → v.getLsbD i = true)
  /-- What is deposited can be extracted, as far as there are free bits. -/
  extracted : ∀ v n, p.extract (p.deposit v n) = n % 2 ^ text.toList.count 'X'
  /-- Depositing leaves the fixed bits alone. -/
  kept : ∀ v n, ∀ i < 16, text.toList[15 - i]? ≠ some 'X' →
    (p.deposit v n).getLsbD i = v.getLsbD i
  restored : ∀ v, p.deposit v (p.extract v) = v
  accepted : ∀ n, p.accepts (p.deposit p.base n) = true
  /-- The halfwords that fit are those that the base and the free bits make up. -/
  composed : ∀ v, p.accepts v = true ↔ p.deposit p.base (p.extract v) = v

theorem stores_ofCells {text : String} {cells : List Cell}
    (htext : text.toList = cells.map Cell.toChar) (h : cells.length = 16) :
    (ofCells cells).Stores text := by
  have hbit {i : Nat} (hi : i < 16) : ∃ cell : Cell, text.toList[15 - i]? = some cell.toChar ∧
      (ofCells cells).fixed.getLsbD i = (cell != .free) ∧
      (ofCells cells).ones.getLsbD i = (cell == .one) := by
    obtain ⟨cell, hcell, hfixed, hones⟩ := getLsbD_ofCells h hi
    refine ⟨cell, ?_, hfixed, hones⟩
    rw [htext, List.getElem?_map, hcell, Option.map_some]
  constructor
  case fits =>
    intro v
    rw [accepts_iff]
    apply forall₂_congr
    intro i hi
    obtain ⟨cell, hchar, hfixed, hones⟩ := hbit hi
    rw [hchar, hfixed, hones]
    cases cell <;> cases v.getLsbD i <;> decide
  case extracted =>
    intro v n
    have hcount : (ofCells cells).free.length = text.toList.count 'X' := by
      rw [length_free, cells_ofCells h, htext]
      exact (List.count_map_of_injective cells _ Cell.toChar_injective .free).symm
    rw [extract_deposit, hcount]
  case kept =>
    intro v n i hi hne
    obtain ⟨cell, hchar, hfixed, _⟩ := hbit hi
    apply getLsbD_deposit
    rw [hfixed, bne_iff_ne]
    rintro rfl
    exact hne hchar
  case restored => exact deposit_extract_self _
  case accepted => exact accepts_deposit (accepts_base_ofCells h)
  case composed =>
    intro v
    constructor
    · exact deposit_extract
    · intro hv
      rw [← hv]
      exact accepts_deposit (accepts_base_ofCells h) _

/-- A text of sixteen characters `0`, `1` and `X` is read as a pattern that is shown as this text
and stores numbers in its free bits. Every other text is refused. -/
theorem pattern_text_store (text : String) :
    (IsText text → ∃ p, parse text = .ok p ∧ p.text = text ∧ p.Stores text) ∧
    (¬IsText text → ∃ e, parse text = .error e) := by
  constructor
  · intro h
    obtain ⟨cells, htext, hlength⟩ := isText_iff.mp h
    refine ⟨ofCells cells, parse_eq_ok.mpr ⟨cells, htext, hlength, rfl⟩, ?_,
      stores_ofCells htext hlength⟩
    rw [text_ofCells hlength, ← htext, String.ofList_toList]
  · intro h
    cases hparse : parse text with
    | error e => exact ⟨e, rfl⟩
    | ok p =>
      obtain ⟨cells, htext, hlength, _⟩ := parse_eq_ok.mp hparse
      exact absurd (isText_iff.mpr ⟨cells, htext, hlength⟩) h

/-- Free bits between fixed ones; and a text of sixteen bytes that has fifteen characters. -/
theorem pattern_text_store_scattered :
    let text := "11X1X0XX0001XX1X"
    let other := "11X1X0XX0001XXé"
    IsText text ∧ ¬IsText other ∧ (byteChars other).length = 16 ∧
    (∃ p, parse text = .ok p ∧ p.text = text ∧ p.Stores text ∧
      p.deposit 0xFFFF 0b10011010 = 0b1101011111110110) ∧
    ∃ e, parse other = .error e := by
  intro text other
  have htext : IsText text := ⟨by decide, by simp [text, Cell.IsChar]⟩
  have hother : ¬IsText other := fun h => absurd h.1 (by decide)
  obtain ⟨p, hp, hshown, hstores⟩ := (pattern_text_store text).1 htext
  have hdeposit : (parse text).toOption.map (·.deposit 0xFFFF 0b10011010) =
      some 0b1101011111110110 := by decide
  rw [hp] at hdeposit
  exact ⟨htext, hother, by decide, ⟨p, hp, hshown, hstores, Option.some.inj hdeposit⟩,
    (pattern_text_store other).2 hother⟩

/-- Fields of any widths that fill the free bits of a pattern are given back by its halfwords, each
as far as its width goes; and a halfword that fits is given back by the fields in its free bits. -/
theorem fields_through_pattern (p : Pattern) :
    (∀ fields : List (Nat × Nat), (fields.map (·.2)).sum = p.free.length →
      split (fields.map (·.2)) (p.extract (p.encode fields)) =
        fields.map fun field => field.1 % 2 ^ field.2) ∧
    ∀ (widths : List Nat) (v : Halfword), widths.sum = p.free.length → p.accepts v = true →
      p.encode ((split widths (p.extract v)).zip widths) = v := by
  constructor
  · intro fields hsum
    exact p.split_extract_encode hsum
  · intro widths v hsum hv
    exact p.encode_split_extract hsum hv

/-- Fields of a pattern whose first free bit stands alone, two of them with values that are too
large. -/
theorem fields_through_pattern_apart :
    let p : Pattern := ⟨0b1101000000000000, 0b1101000000000000⟩
    let fields := [(3, 1), (0, 1), (0x1234, 11)]
    (fields.map (·.2)).sum = p.free.length ∧
    split [1, 1, 11] (p.extract (p.encode fields)) = [1, 0, 0x234] ∧
    p.accepts 0xF8FE = true ∧
    p.encode ((split [1, 1, 11] (p.extract 0xF8FE)).zip [1, 1, 11]) = 0xF8FE := by
  intro p fields
  have hsum : (fields.map (·.2)).sum = p.free.length := by decide
  have hv : p.accepts 0xF8FE = true := by decide
  exact ⟨hsum, (fields_through_pattern p).1 fields hsum, hv,
    (fields_through_pattern p).2 [1, 1, 11] 0xF8FE hsum hv⟩

end Pattern

end Thumb
