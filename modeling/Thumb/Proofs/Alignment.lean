import Thumb.Proofs.DataImage

namespace Thumb

/-- The alignment that a record asks for, a word if it names none. -/
def Program.alignment? (p : Program) (r : Record) : Option Nat :=
  match r.operands with
  | [] => some 4
  | [operand] => ((p.number? operand).bind Int.toNat?).filter Object.Draft.isPowerOfTwo
  | _ => none

theorem pow_dvd_iff_le {m n k : Nat} (h : 2 ^ m ∣ n) (h' : ¬2 ^ (m + 1) ∣ n) :
    2 ^ k ∣ n ↔ k ≤ m := by
  constructor
  · intro hk
    by_contra hlt
    exact h' ((Nat.pow_dvd_pow 2 (Nat.lt_of_not_le hlt)).trans hk)
  · intro hk
    exact (Nat.pow_dvd_pow 2 hk).trans h

namespace Object

namespace Draft

variable {d d' : Draft} {p : Program} {i j k : Nat} {r : Record}

theorem exists_of_isPowerOfTwo {n : Nat} (h : isPowerOfTwo n = true) : ∃ k, n = 2 ^ k :=
  ⟨n.log2, (beq_iff_eq.mp h).symm⟩

/-- A record's own alignment keeps that of a directive: both are powers of two, so padding for the
larger one is padding for the other. -/
theorem dvd_align (h : 2 ^ k ∣ d.bytes.length) (kind : RecordKind) :
    2 ^ k ∣ (d.align kind.alignment).bytes.length := by
  obtain ⟨_, _, hdvd⟩ := align_bounds d kind.alignment_pos
  obtain ⟨n, _, hn⟩ := (Nat.dvd_prime_pow Nat.prime_two (m := 2)).mp kind.alignment_dvd
  rcases Nat.le_total k n with hle | hle
  · rw [hn] at hdvd ⊢
    exact (Nat.pow_dvd_pow 2 hle).trans hdvd
  · have hsame : kind.alignment ∣ d.bytes.length := by
      rw [hn]
      exact (Nat.pow_dvd_pow 2 hle).trans h
    have hpad : padding kind.alignment d.bytes.length = 0 := by
      rw [padding, Nat.mod_eq_zero_of_dvd hsame, Nat.sub_zero, Nat.mod_self]
    rwa [align, emit, hpad, List.replicate_zero, List.append_nil]

theorem constants_of_before (h : before p i j = .ok d) (operand : String) :
    d.constants.value? operand = p.number? operand := by
  obtain ⟨c, hc, h⟩ := bind_ok_iff.mp h
  obtain ⟨d₀, hd₀, h⟩ := bind_ok_iff.mp h
  rw [← Program.value?_constants hc, ← constants_areas hd₀]
  split at h
  case h_1 => rw [(records_extends h).constants]
  case h_2 =>
    cases h
    rfl

theorem alignTo_cases (hvalue : ∀ operand, d.constants.value? operand = p.number? operand)
    (h : d.alignTo r = .ok d') :
    ∃ k, p.alignment? r = some (2 ^ k) ∧ d' = d.align (2 ^ k) := by
  unfold alignTo at h
  split at h
  case h_1 hnone =>
    cases h
    refine ⟨2, ?_, rfl⟩
    rw [Program.alignment?, hnone]
    rfl
  case h_2 operand hone =>
    split at h
    case h_1 alignment hcount =>
      cases h
      obtain ⟨k, rfl⟩ := exists_of_isPowerOfTwo (Option.filter_eq_some_iff.mp hcount).2
      rw [count?, hvalue] at hcount
      refine ⟨k, ?_, rfl⟩
      rw [Program.alignment?, hone]
      exact hcount
    case h_2 => cases h
  case h_3 => cases h

theorem dvd_of_align {a : Area} (ha : p.areas[i]? = some a) (hr : a.records[j]? = some r)
    (hkind : r.kind = .align) (hd : before p i j = .ok d) (h : before p i (j + 1) = .ok d') :
    ∃ k, p.alignment? r = some (2 ^ k) ∧ 2 ^ k ∣ d'.bytes.length := by
  rw [before_succ ha hr hd] at h
  obtain ⟨d₁, _, hplace, hbody⟩ := record_cases h
  rw [body, hkind] at hbody
  have hvalue (operand : String) :
      (d₁.mark r.line).constants.value? operand = p.number? operand := by
    rw [← constants_of_before hd, ← (hplace.trans (d₁.mark_extends r.line)).constants]
  obtain ⟨k, halignment, rfl⟩ := alignTo_cases hvalue hbody
  exact ⟨k, halignment, (align_bounds _ (Nat.two_pow_pos k)).2.2⟩

end Draft

theorem addressOf_first {p : Program} {o : Object} {i : Nat} {a : Area}
    (ho : ofProgram p = .ok o) (ha : p.areas[i]? = some a)
    (hfirst : ∀ b ∈ p.areas.take i, b.kind ≠ a.kind) : o.addressOf i = a.kind.base := by
  have hform := ofProgram_wellFormed ho
  have hkinds : (o.sections.take i).map (·.kind) = (p.areas.take i).map (·.kind) := by
    have h := congrArg (fun entries => (entries.take i).map Prod.snd) hform.areas
    rw [← List.map_take, ← List.map_take, List.map_map, List.map_map] at h
    exact h
  have hnone : (o.sections.take i).filter (·.kind = a.kind) = [] := by
    rw [List.filter_eq_nil_iff]
    intro s hs
    have hmem := List.mem_map_of_mem (f := (·.kind)) hs
    rw [hkinds] at hmem
    obtain ⟨b, hb, hkind⟩ := List.mem_map.mp hmem
    rw [← hkind, decide_eq_true_eq]
    exact hfirst b hb
  have hi : i < o.sections.length := by
    rw [hform.length_sections]
    exact (List.getElem?_eq_some_iff.mp ha).1
  have hs := List.getElem?_eq_getElem hi
  rw [addressOf_eq hs, hform.kind_eq ha hs, extentBefore, hnone]
  rfl

end Object

/-- Where a record is that comes after a directive to align by a power of two. -/
structure Executable.AlignedAt (x : Executable) (p : Program) (o : Object) (i k : Nat) (a : Area)
    (r : Record) (address : Nat) : Prop where
  symbol : ∀ name, r.label = some name → x.symbol name = some (address : Int)
  line : ∃ line, x.lineAt (BitVec.ofNat 32 address) = some line
  offset : ∃ n, address = o.addressOf i + n * 2 ^ k
  dvd_iff : 2 ^ k ∣ address ↔ 2 ^ k ∣ o.addressOf i
  /-- Sections are aligned by words. -/
  word : k ≤ 2 → 2 ^ k ∣ address
  /-- The vector table comes before the first section of code. -/
  code : a.kind = .code → (∀ b ∈ p.areas.take i, b.kind ≠ .code) → (2 ^ k ∣ address ↔ k ≤ 3)
  data : a.kind = .data → (∀ b ∈ p.areas.take i, b.kind ≠ .data) → (2 ^ k ∣ address ↔ k ≤ 29)

/-- The record after an alignment directive is at a multiple of the alignment from the address of
its area, and so at one in memory exactly if that address is one: always up to a word, and in the
first area of code up to eight bytes. -/
theorem assemble_align (source : String) (x : Executable) (hx : assemble source = .ok x) :
    ∃ p o, Source.parse source = .ok p ∧ Object.ofProgram p = .ok o ∧ o.link = .ok x ∧
      ∀ i j a r r', p.areas[i]? = some a → a.records[j]? = some r → r.kind = .align →
        a.records[j + 1]? = some r' →
        ∃ k address, p.alignment? r = some (2 ^ k) ∧ o.RecordAt p i (j + 1) r' address ∧
          x.AlignedAt p o i k a r' address := by
  obtain ⟨p, hp, h⟩ := bind_ok_iff.mp hx
  obtain ⟨o, ho, hlink⟩ := bind_ok_iff.mp h
  refine ⟨p, o, hp, ho, hlink, ?_⟩
  intro i j a r r' ha hr hkind hr'
  obtain ⟨_, _, d, hd, _⟩ := Object.exists_recordAt ho ha hr
  obtain ⟨address, hat⟩ := Object.exists_recordAt ho ha hr'
  have ⟨_, d', hd', haddress⟩ := hat
  obtain ⟨k, halignment, hdvd⟩ := Object.Draft.dvd_of_align ha hr hkind hd hd'
  have hoffset := Object.Draft.dvd_align hdvd r'.kind
  have hiff : 2 ^ k ∣ address ↔ 2 ^ k ∣ o.addressOf i := by
    rw [← haddress, Nat.dvd_add_left hoffset]
  refine ⟨k, address, halignment, hat, ?_⟩
  constructor
  case symbol => exact fun name => hat.symbol (Source.parse_names hp) ho hlink
  case line => exact hat.line ho hlink
  case offset =>
    obtain ⟨n, hn⟩ := hoffset
    exact ⟨n, by rw [← haddress, hn, Nat.mul_comm]⟩
  case dvd_iff => exact hiff
  case word =>
    intro hk
    exact hiff.mpr ((Nat.pow_dvd_pow 2 hk).trans (o.addressOf_dvd i))
  case code =>
    intro hcode hfirst
    rw [hiff, Object.addressOf_first ho ha (hcode ▸ hfirst), hcode]
    exact pow_dvd_iff_le (by decide) (by decide)
  case data =>
    intro hdata hfirst
    rw [hiff, Object.addressOf_first ho ha (hdata ▸ hfirst), hdata]
    exact pow_dvd_iff_le (by decide) (by decide)

/-- An area of code that ends at an odd offset, and one after it. -/
theorem assemble_align_areas :
    let source := " AREA text, CODE\n NOP\n ALIGN 8\nx DCB 1\n AREA more, CODE\n ALIGN 8\ny NOP\n"
    ∃ p o x a b r r', Source.parse source = .ok p ∧ assemble source = .ok x ∧
      x.symbol "x" = some 0x08000010 ∧ x.symbol "y" = some 0x08000014 ∧
      x.AlignedAt p o 0 3 a r 0x08000010 ∧ x.AlignedAt p o 1 3 b r' 0x08000014 := by
  intro source
  let x : Record := { label := some "x", mnemonic := "DCB", operands := ["1"], line := 3 }
  let y : Record := { label := some "y", mnemonic := "NOP", operands := [], line := 6 }
  let text : Area := {
    name := "text", kind := .code, readOnly := true, records := [
      { label := none, mnemonic := "NOP", operands := [], line := 1 },
      { label := none, mnemonic := "ALIGN", operands := ["8"], line := 2 }, x] }
  let more : Area := {
    name := "more", kind := .code, readOnly := true, records := [
      { label := none, mnemonic := "ALIGN", operands := ["8"], line := 5 }, y] }
  have hp : Source.parse source = .ok { areas := [text, more] } := by decide
  have hsymbols : (assemble source).toOption.map (fun e => (e.symbol "x", e.symbol "y")) =
      some (some 0x08000010, some 0x08000014) := by
    decide
  cases he : assemble source with
  | error e =>
    rw [he] at hsymbols
    cases hsymbols
  | ok e =>
    rw [he] at hsymbols
    obtain ⟨hx, hy⟩ := Prod.mk.inj (Option.some.inj hsymbols)
    obtain ⟨p, o, hp', _, _, haligned⟩ := assemble_align source e he
    cases hp.symm.trans hp'
    obtain ⟨k, address, hk, _, hat⟩ := haligned 0 1 text _ x rfl rfl rfl rfl
    obtain ⟨k', address', hk', _, hat'⟩ := haligned 1 0 more _ y rfl rfl rfl rfl
    cases Nat.pow_right_injective (Nat.le_refl 2) (Option.some.inj hk : 2 ^ 3 = 2 ^ k)
    cases Nat.pow_right_injective (Nat.le_refl 2) (Option.some.inj hk' : 2 ^ 3 = 2 ^ k')
    cases Int.ofNat.inj (Option.some.inj (hx.symm.trans (hat.symbol "x" rfl)))
    cases Int.ofNat.inj (Option.some.inj (hy.symm.trans (hat'.symbol "y" rfl)))
    exact ⟨_, o, e, text, more, x, y, hp, rfl, hx, hy, hat, hat'⟩

/-- In the first area of code, sixteen bytes are counted from behind the vector table. -/
theorem assemble_align_vectorTable :
    let source := " ALIGN 16\nx NOP\n"
    ∃ p x a r r', Source.parse source = .ok p ∧ assemble source = .ok x ∧
      p.areas[0]? = some a ∧ a.records = [r, r'] ∧ r.kind = .align ∧ p.alignment? r = some 16 ∧
      r'.label = some "x" ∧ x.symbol "x" = some 0x08000008 ∧ ¬(16 : Int) ∣ 0x08000008 := by
  intro source
  let directive : Record := { label := none, mnemonic := "ALIGN", operands := ["16"], line := 0 }
  let next : Record := { label := some "x", mnemonic := "NOP", operands := [], line := 1 }
  let area : Area := {
    name := ".text", kind := .code, readOnly := true, records := [directive, next] }
  have hp : Source.parse source = .ok { areas := [area] } := by decide
  have hsymbol : (assemble source).toOption.map (·.symbol "x") = some (some 0x08000008) := by decide
  cases hx : assemble source with
  | error e =>
    rw [hx] at hsymbol
    cases hsymbol
  | ok x =>
    rw [hx] at hsymbol
    exact ⟨_, x, area, directive, next, hp, rfl, rfl, rfl, rfl, by decide, rfl,
      Option.some.inj hsymbol, by decide⟩

end Thumb
