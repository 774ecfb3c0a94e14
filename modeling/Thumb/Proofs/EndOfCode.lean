import Thumb.Proofs.AssembledStep
import Thumb.Proofs.Protection

namespace Thumb

namespace Object

def markerBytes : List Byte :=
  [0xFF, 0xFF]

variable {o : Object} {bytes : Nat → List Byte} {k : Nat} {s : Section}

theorem marker_of_trailer (h : o.Sized bytes) (hs : o.sections[k]? = some s)
    (hkind : s.kind = .code) :
    ((o.image bytes).drop (o.fileOffset k + s.size)).take 2 = markerBytes ∧
      o.fileOffset k + s.size + 2 ≤ o.codeSize := by
  constructor
  · obtain ⟨front, back, hlen, himage⟩ := image_around h hs
    rw [himage bytes (fun _ _ => rfl), hkind, SectionKind.block, ← h k s hs, ← List.drop_drop,
      List.append_assoc, List.drop_left' hlen, List.append_assoc, List.append_assoc,
      List.drop_left]
    rfl
  · have hne : o.sectionsOf .code ≠ [] := List.ne_nil_of_mem (mem_sectionsOf.mpr ⟨hs, hkind⟩)
    have hextent := extentBefore_add_le hs
    have htrailer : s.size + 2 ≤ SectionKind.code.extent s.size := Nat.le_add_right _ _
    rw [hkind] at hextent
    rw [fileOffset_eq hs, hkind, start, codeSize, if_neg hne]
    omega

namespace Draft

variable {d d' : Draft}

theorem flushPool_marker (h : d.flushPool .code = .ok d') (hpool : d.pool ≠ []) :
    (d.emit markerBytes).Extends [] d' := by
  rw [flushPool_eq d .code hpool] at h
  exact ((d.emit markerBytes).align_extends 4).trans (poolLiterals_extends h)

end Draft

theorem ofProgram_marker {p : Program} {i : Nat} {a : Area} (ho : ofProgram p = .ok o)
    (hbytes : o.Relocated o.body o.relocations bytes) (ha : p.areas[i]? = some a)
    (hkind : a.kind = .code) :
    ∃ d, Draft.before p i a.records.length = .ok d ∧
      ((o.image bytes).drop (o.fileOffset i + d.bytes.length)).take 2 = markerBytes ∧
      o.fileOffset i + d.bytes.length + 2 ≤ o.codeSize := by
  have hwhole := ofProgram_wellFormed ho
  obtain ⟨c, d₀, d, d₁, d₂, hconstants, htake, hrecords, hpool, hdrop, rfl⟩ :=
    Draft.ofProgram_split ho ha
  have hbefore : Draft.before p i a.records.length = .ok d :=
    Draft.before_eq ha hconstants htake (by rwa [List.take_length])
  have hform := Draft.areas_wellFormed htake (Draft.constants_wellFormed hconstants)
  have hindex := Draft.index_eq_of_take ha hform
  have hext := Draft.records_extends hrecords
  have hcont := Draft.areas_continues hdrop
  obtain ⟨hsection, hbody⟩ :=
    Draft.body_of_finish (hext.trans (Draft.flushPool_extends hpool)) hcont
  rw [hindex] at hsection hbody
  rw [hkind] at hpool
  refine ⟨d, hbefore, ?_⟩
  by_cases hempty : d.pool = []
  · rw [Draft.flushPool, hempty] at hpool
    cases hpool
    exact marker_of_trailer hbytes.sized hsection hkind
  · -- The marker is in the section, and no relocation covers it.
    have hmarker := Draft.flushPool_marker hpool hempty
    have hown : (d.emit markerBytes).object.relocations = d.object.relocations ++ [] :=
      (List.append_nil _).symm
    obtain ⟨_, hfree⟩ := Draft.not_covers_of_step hform hext (d.emit_extends markerBytes) hmarker
      hcont hown
    obtain ⟨more, hmore⟩ := hmarker.bytes
    have hsize : d.bytes.length + 2 ≤ d₁.bytes.length := by
      rw [← hmore, Draft.emit, List.length_append, List.length_append]
      exact Nat.le_add_right _ _
    have hend := fileOffset_add_le_code hsection hkind
    constructor
    · rw [take_drop_image_add hbytes.sized hsection hsize]
      have hkept : ((bytes i).drop d.bytes.length).take 2 =
          ((d₂.object.body i).drop d.bytes.length).take 2 := by
        apply take_drop_congr
        intro n hn
        apply hbytes.outside
        intro r hr
        rcases hfree r hr with hnone | hnot
        · cases hnone
        · rw [hindex] at hnot
          apply hnot _ (Nat.le_add_right _ _)
          rw [Draft.emit, List.length_append]
          exact Nat.add_lt_add_left hn _
      rw [hkept, hbody, ← hmore, Draft.emit, List.append_assoc, List.drop_left]
      rfl
    · dsimp only at hend
      omega

end Object

/-- A halfword with the upper byte of the end marker. -/
def unusedOpcode (low : Byte) : Halfword :=
  (0xFF : Byte) ++ low

theorem toBytes_unusedOpcode (low : Byte) :
    Width.halfword.toBytes (unusedOpcode low) = [low, 0xFF] := by
  revert low
  decide

theorem decode?_unusedOpcode (low : Byte) (second : Option Halfword) :
    decode? (unusedOpcode low) second = none := by
  have hapart : ∀ f ∈ Form.all, (Pattern.leading 0xFF#8).Apart f.firstPattern := by decide
  have haccepts : (Pattern.leading 0xFF#8).accepts (unusedOpcode low) = true := by
    revert low
    decide
  rw [decode?, Form.lookup?_eq_find?, Option.map_eq_none_iff, List.find?_eq_none]
  intro f hf hopcode
  have hno := (hapart f hf).not_accepts haccepts
  rw [Form.accepts_firstPattern hopcode] at hno
  cases hno

def unusedTrap (pc : Word) (low : Byte) : Trap :=
  if unusedOpcode low = AddressMap.endOfCode then .endOfCode pc
  else .invalidInstruction pc (unusedOpcode low)

theorem Exec.fetch_unusedOpcode {memory : Memory} {pc : Word} {low : Byte}
    (h : Memory.read .halfword pc memory = .ok (unusedOpcode low) memory) (regs : Bank) :
    fetch pc ⟨regs, memory⟩ = .error (unusedTrap pc low) ⟨regs, memory⟩ := by
  obtain ⟨second, hsecond⟩ := exists_attempt_read (pc + 2) ⟨regs, memory⟩
  unfold unusedTrap
  split
  case isTrue hmarker =>
    simp only [fetch, bind, EStateM.bind, onBus_read h, if_pos hmarker]
    rfl
  case isFalse hmarker =>
    simp only [fetch, bind, EStateM.bind, onBus_read h, if_neg hmarker, hsecond,
      decode?_unusedOpcode]
    rfl

namespace Board

theorem step_of_fetch_error {b : Board} {t : Trap}
    (h : Exec.fetch b.cpu.regs.pc ⟨b.cpu.regs, b.memory⟩ = .error t ⟨b.cpu.regs, b.memory⟩) :
    b.step = .error t b := by
  simp only [step, Exec.step, bind, EStateM.bind, Exec.regs, h]

/-- A run from where a step traps without effect only halts the processor. -/
theorem run_of_step_error {b : Board} (h : ∀ b' : Board, b'.cpu.regs = b.cpu.regs →
    b'.memory = b.memory → ∃ t, b'.step = .error t b') (limit : Nat) :
    endState (run limit b) = b.start.halt := by
  cases limit with
  | zero => rfl
  | succ limit =>
    obtain ⟨t, ht⟩ := h b.start rfl rfl
    have hrunning : ¬ b.start.cpu.activity ≠ .running := not_not.mpr rfl
    have hcycle : b.start.cycle = .error t b.start.halt := by
      simp only [cycle, if_neg hrunning, ht]
    unfold run cycles
    rw [hcycle]
    cases t <;> rfl

end Board

theorem exists_byte_before_marker {content : List Byte} {n : Nat}
    (h : (content.drop (n + 1)).take 2 = Object.markerBytes) :
    ∃ low, (content.drop n).take 2 = [low, 0xFF] := by
  cases hdrop : content.drop n with
  | nil =>
    rw [← List.drop_drop, hdrop] at h
    cases h
  | cons low rest =>
    rw [← List.drop_drop, hdrop, List.drop_succ_cons, List.drop_zero] at h
    cases rest with
    | nil => cases h
    | cons first rest =>
      obtain ⟨rfl, _⟩ := List.cons.inj h
      exact ⟨low, rfl⟩

theorem Object.FlashImage.read_end {o : Object} {bytes : Nat → List Byte} {x : Executable}
    {k size : Nat} {s : Section} (h : o.FlashImage bytes x) (hs : o.sections[k]? = some s)
    (hkind : s.kind = .code)
    (hmarker : ((o.image bytes).drop (o.fileOffset k + size)).take 2 = markerBytes)
    (hend : o.fileOffset k + size + 2 ≤ o.codeSize) {b : Board} (hb : b.HoldsImage x) :
    ∃ low, Memory.read .halfword (BitVec.ofNat 32 (o.addressOf k + size / 2 * 2)) b.memory =
        .ok (unusedOpcode low) b.memory ∧ (size % 2 = 0 → low = 0xFF) := by
  have hbytes : ∃ low, ((o.image bytes).drop (o.fileOffset k + size / 2 * 2)).take 2 =
      [low, 0xFF] ∧ (size % 2 = 0 → low = 0xFF) := by
    rcases Nat.mod_two_eq_zero_or_one size with heven | hodd
    · have hsize : size / 2 * 2 = size := by omega
      exact ⟨0xFF, by rw [hsize]; exact hmarker, fun _ => rfl⟩
    · have hsize : o.fileOffset k + size = o.fileOffset k + size / 2 * 2 + 1 := by omega
      rw [hsize] at hmarker
      obtain ⟨low, hlow⟩ := exists_byte_before_marker hmarker
      exact ⟨low, hlow, fun heven => by omega⟩
  obtain ⟨low, hlow, heven⟩ := hbytes
  obtain ⟨flash, rest, hmemory, hflash⟩ := hb.code h.segments h.fits
  obtain ⟨hin, hfetch⟩ := hflash (o.fileOffset k + size / 2 * 2) 2 (by omega)
  refine ⟨low, ?_, heven⟩
  rw [addressOf_code hs hkind, hmemory, Nat.add_assoc]
  apply Memory.read_first hin
  rw [toBytes_unusedOpcode, ← hlow, ← h.content]
  exact hfetch

namespace Board

/-- For every text that is assembled and loaded and for every area of its code, a step from where
the records of the area end is a trap and has no other effect, and a run from there only halts. At
an even offset, the trap is that of the end marker. -/
theorem step_at_end_of_code (source : String) (x : Executable) (loaded : Board)
    (hx : assemble source = .ok x) (hload : load x (ofConfig {}) = .ok () loaded) :
    loaded.HoldsImage x ∧
    ∃ p o, Source.parse source = .ok p ∧ Object.ofProgram p = .ok o ∧ o.link = .ok x ∧
      ∀ i a, p.areas[i]? = some a → a.kind = .code →
        ∃ d, Object.Draft.before p i a.records.length = .ok d ∧
          ∀ b : Board, b.HoldsImage x →
            b.cpu.regs.pc = BitVec.ofNat 32 (o.addressOf i + d.bytes.length / 2 * 2) →
            ∃ t, b.step = .error t b ∧
              (d.bytes.length % 2 = 0 → t = .endOfCode b.cpu.regs.pc) ∧
              ∀ limit, endState (run limit b) = b.start.halt := by
  obtain ⟨hholds, p, o, bytes, hp, ho, hlink, himage⟩ := load_flashImage hx hload
  refine ⟨hholds, p, o, hp, ho, hlink, ?_⟩
  intro i a ha hkind
  obtain ⟨d, hd, hmarker, hend⟩ := Object.ofProgram_marker ho himage.relocated ha hkind
  refine ⟨d, hd, ?_⟩
  intro b hb hpc
  have hform := Object.ofProgram_wellFormed ho
  obtain ⟨s, hs⟩ : ∃ s, o.sections[i]? = some s := by
    have hlt := (List.getElem?_eq_some_iff.mp ha).1
    rw [← hform.length_sections] at hlt
    exact ⟨_, List.getElem?_eq_getElem hlt⟩
  have hcode := (hform.kind_eq ha hs).trans hkind
  obtain ⟨low, hlow, heven⟩ := himage.read_end hs hcode hmarker hend hb
  rw [← hpc] at hlow
  have hstep (b' : Board) (hregs : b'.cpu.regs = b.cpu.regs) (hmemory : b'.memory = b.memory) :
      b'.step = .error (unusedTrap b.cpu.regs.pc low) b' := by
    rw [← hregs, ← hmemory] at hlow
    rw [← hregs]
    exact step_of_fetch_error (Exec.fetch_unusedOpcode hlow _)
  refine ⟨_, hstep b rfl rfl, ?_, ?_⟩
  · intro hsize
    rw [heven hsize]
    rfl
  · exact run_of_step_error fun b' hregs hmemory => ⟨_, hstep b' hregs hmemory⟩

/-- Before a literal, and after a lone byte of the next area. -/
theorem step_at_end_of_code_literal :
    let source := " AREA text, CODE\n LDR R0, =5\n AREA more, CODE\n DCB 1\n"
    ∃ x loaded, assemble source = .ok x ∧ load x (ofConfig {}) = .ok () loaded ∧
      loaded.HoldsImage x ∧
      ∀ b : Board, b.HoldsImage x →
        (b.cpu.regs.pc = 0x0800000A → b.step = .error (.endOfCode 0x0800000A) b) ∧
        (b.cpu.regs.pc = 0x08000014 → ∃ t, b.step = .error t b) := by
  intro source
  let p : Program := {
    areas := [
      { name := "text", kind := .code, readOnly := true, records := [
        { label := none, mnemonic := "LDR", operands := ["R0", "=5"], line := 1 }] },
      { name := "more", kind := .code, readOnly := true, records := [
        { label := none, mnemonic := "DCB", operands := ["1"], line := 3 }] }] }
  have hparse : Source.parse source = .ok p := by decide +kernel
  have hload : (assemble source).toOption.any (fun x => match load x (ofConfig {}) with
      | .ok _ _ => true
      | .error _ _ => false) = true := by
    decide +kernel
  have hends : (do
      let o ← (Object.ofProgram p).toOption
      let d ← (Object.Draft.before p 0 1).toOption
      let d' ← (Object.Draft.before p 1 1).toOption
      return (o.addressOf 0, d.bytes.length, o.addressOf 1, d'.bytes.length)) =
        some (0x08000008, 2, 0x08000014, 1) := by
    decide +kernel
  cases hx : assemble source with
  | error e =>
    rw [hx] at hload
    cases hload
  | ok x =>
    rw [hx, Except.toOption, Option.any_some] at hload
    split at hload
    case h_2 => cases hload
    case h_1 u loaded hloaded =>
      obtain ⟨hholds, p', o, hp, ho, _, hareas⟩ :=
        step_at_end_of_code source x loaded hx hloaded
      rw [hparse] at hp
      cases hp
      obtain ⟨d, hd, hstep⟩ := hareas 0 _ rfl rfl
      obtain ⟨d', hd', hstep'⟩ := hareas 1 _ rfl rfl
      change Object.Draft.before p 0 1 = .ok d at hd
      change Object.Draft.before p 1 1 = .ok d' at hd'
      simp only [Except.toOption, ho, hd, hd', pure, bind, Option.bind_some, Option.some.injEq,
        Prod.mk.injEq] at hends
      obtain ⟨haddr, hlen, haddr', hlen'⟩ := hends
      rw [haddr, hlen] at hstep
      rw [haddr', hlen'] at hstep'
      refine ⟨x, loaded, rfl, hloaded, hholds, ?_⟩
      intro b hb
      constructor
      · intro hpc
        obtain ⟨t, ht, htrap, _⟩ := hstep b hb hpc
        rw [ht, htrap rfl, hpc]
      · intro hpc
        obtain ⟨t, ht, _⟩ := hstep' b hb hpc
        exact ⟨t, ht⟩

end Board

end Thumb
