import Thumb.Proofs.ByteMap
import Thumb.Proofs.Expressible
import Thumb.Proofs.ListTransfer

namespace Thumb

theorem byteFrom_append (start : Nat) (xs ys : List Byte) (a : Nat) :
    byteFrom start (xs ++ ys) a =
      (byteFrom start xs a).or (byteFrom (start + xs.length) ys a) := by
  unfold byteFrom
  by_cases hfirst : a < start + xs.length
  · rw [if_neg (by omega : ¬start + xs.length ≤ a), Option.or_none]
    split
    case isTrue => rw [List.getElem?_append_left (by omega)]
    case isFalse => rfl
  · have hnone : xs[a - start]? = none := List.getElem?_eq_none (by omega)
    rw [if_pos (by omega : start ≤ a), if_pos (by omega : start + xs.length ≤ a), if_pos (by omega),
      hnone, Option.none_or, List.getElem?_append_right (by omega), Nat.sub_sub]

theorem byteFrom_eq_none {start a : Nat} {bytes : List Byte}
    (h : a < start ∨ start + bytes.length ≤ a) : byteFrom start bytes a = none := by
  rw [← Option.not_isSome_iff_eq_none, byteFrom_isSome]
  omega

def Word.bytes (w : Word) : List Byte :=
  Width.word.toBytes w

theorem Word.length_bytes (w : Word) : w.bytes.length = 4 :=
  Width.word.length_toBytes w

theorem Width.toBytes_injective {w : Width} {v v' : BitVec w.bits}
    (h : w.toBytes v = w.toBytes v') : v = v' := by
  rw [← w.ofBytes_toBytes v, h, w.ofBytes_toBytes]

def wordBytes (ws : List Word) : List Byte :=
  ws.flatMap Word.bytes

theorem wordBytes_cons (w : Word) (ws : List Word) :
    wordBytes (w :: ws) = w.bytes ++ wordBytes ws :=
  rfl

theorem length_wordBytes (ws : List Word) : (wordBytes ws).length = 4 * ws.length := by
  induction ws with
  | nil => rfl
  | cons w ws ih =>
    rw [wordBytes_cons, List.length_append, ih, Word.length_bytes, List.length_cons]
    omega

theorem Region.Holds.part {r : Region} {a length : Nat} (h : r.Holds a length) (offset : Nat)
    {n : Nat} (hle : offset + n ≤ length) : r.Holds (a + offset) n := by
  obtain ⟨hlow, hhigh⟩ := h
  constructor <;> omega

theorem toNat_add_four (addr : Word) (h : addr.toNat + 4 < 2 ^ 32) :
    (addr + 4).toNat = addr.toNat + 4 := by
  rw [BitVec.toNat_add]
  exact Nat.mod_eq_of_lt h

namespace Memory

variable {m m' : Memory} {addr : Word} {ws : List Word}

theorem Writable.part {a length : Nat} (h : m.Writable a length) (offset : Nat) {n : Nat}
    (hle : offset + n ≤ length) : m.Writable (a + offset) n := by
  obtain ⟨r, hr, hholds, hro⟩ := h
  exact ⟨r, hr, hholds.part offset hle, hro⟩

theorem Inside.part {a length : Nat} (h : m.Inside a length) (offset : Nat) {n : Nat}
    (hle : offset + n ≤ length) : m.Inside (a + offset) n := by
  obtain ⟨r, hr, hholds⟩ := h
  exact ⟨r, hr, hholds.part offset hle⟩

theorem disjoint_congr (h : m'.clear = m.clear) : m'.Disjoint ↔ m.Disjoint := by
  rw [← disjoint_clear, h, disjoint_clear]

theorem writable_congr (h : m'.clear = m.clear) {a length : Nat} :
    m'.Writable a length ↔ m.Writable a length := by
  rw [← writable_clear, h, writable_clear]

theorem write_word_writable (hm : m.Disjoint) {w : Word} (hw : m.Writable addr.toNat 4) :
    ∃ m', Bus.write .word addr w m = .ok () m' ∧ m'.clear = m.clear ∧
      ∀ a, m'.byte? a = (byteFrom addr.toNat w.bytes a).or (m.byte? a) := by
  rw [← w.length_bytes] at hw
  obtain ⟨m', hwrite, hdone⟩ := byte?_store hm hw
  exact ⟨m', (congrFun (Access.perform_write .word addr w) m).trans hwrite, hdone⟩

/-- Words written to a writable range are the bytes there, and all others stay. -/
theorem writeWords_writable (hm : m.Disjoint) (hw : m.Writable addr.toNat (4 * ws.length))
    (hend : addr.toNat + 4 * ws.length < 2 ^ 32) :
    ∃ m', Bus.writeWords addr ws m = .ok () m' ∧ m'.clear = m.clear ∧
      ∀ a, m'.byte? a = (byteFrom addr.toNat (wordBytes ws) a).or (m.byte? a) := by
  induction ws generalizing addr m with
  | nil =>
    refine ⟨m, rfl, rfl, ?_⟩
    intro a
    rw [byteFrom_eq_none (by simp [wordBytes]; omega), Option.none_or]
  | cons w ws ih =>
    rw [List.length_cons] at hw hend
    have hnext := toNat_add_four addr (by omega)
    obtain ⟨m₁, hwrite, hclear, hbyte⟩ :=
      write_word_writable hm (w := w) (hw.part 0 (by omega))
    have hrest : m₁.Writable (addr + 4).toNat (4 * ws.length) := by
      rw [writable_congr hclear, hnext]
      exact hw.part 4 (by omega)
    obtain ⟨m', hwords, hclear', hbyte'⟩ :=
      ih ((disjoint_congr hclear).mpr hm) hrest (by omega)
    refine ⟨m', Bus.writeWords_cons_iff.mpr ⟨m₁, hwrite, hwords⟩, hclear'.trans hclear, ?_⟩
    intro a
    rw [hbyte', hbyte, hnext, wordBytes_cons, byteFrom_append, w.length_bytes]
    -- The word and the others have no address in common.
    by_cases ha : a < addr.toNat + 4
    · rw [byteFrom_eq_none (.inl ha), Option.none_or, Option.or_none]
    · have hpast : byteFrom addr.toNat w.bytes a = none := by
        apply byteFrom_eq_none
        rw [w.length_bytes]
        exact .inr (Nat.le_of_not_lt ha)
      rw [hpast, Option.none_or, Option.none_or]

theorem read_word_of_bytes (hm : m.Disjoint) {w : Word} (hin : m.Inside addr.toNat 4)
    (hbytes : ∀ i < 4, m.byte? (addr.toNat + i) = w.bytes[i]?) :
    Bus.read .word addr m = .ok w m := by
  obtain ⟨v, hread, hv⟩ := Access.read_inside (w := .word) hm hin
  have hsame : Word.bytes v = w.bytes := by
    apply List.ext_getElem?
    intro i
    by_cases hi : i < 4
    · rw [← hbytes i hi, hv i hi]
      exact Width.word.getElem?_toBytes hi v
    · rw [List.getElem?_eq_none, List.getElem?_eq_none]
      · exact w.length_bytes.trans_le (Nat.le_of_not_lt hi)
      · exact (Word.length_bytes v).trans_le (Nat.le_of_not_lt hi)
  have hvw : v = w := Width.toBytes_injective (w := .word) hsame
  rw [← hvw]
  exact hread

theorem readWords_of_bytes (hm : m.Disjoint) (hin : m.Inside addr.toNat (4 * ws.length))
    (hend : addr.toNat + 4 * ws.length < 2 ^ 32)
    (hbytes : ∀ i < 4 * ws.length, m.byte? (addr.toNat + i) = (wordBytes ws)[i]?) :
    Bus.readWords addr ws.length m = .ok ws m := by
  induction ws generalizing addr with
  | nil => rfl
  | cons w ws ih =>
    rw [List.length_cons] at hin hend hbytes
    have hnext := toNat_add_four addr (by omega)
    refine Bus.readWords_succ_iff.mpr ⟨w, ws, m, rfl, ?_, ?_⟩
    · apply read_word_of_bytes hm (hin.part 0 (by omega))
      intro i hi
      rw [hbytes i (by omega), wordBytes_cons,
        List.getElem?_append_left (by rw [w.length_bytes]; exact hi)]
    · apply ih
      · rw [hnext]
        exact hin.part 4 (by omega)
      · omega
      · intro i hi
        have hpos : 4 + i - 4 = i := by omega
        rw [hnext, Nat.add_assoc, hbytes (4 + i) (by omega), wordBytes_cons,
          List.getElem?_append_right (by rw [w.length_bytes]; omega), w.length_bytes, hpos]

end Memory

/-- Where a saved register goes: the program counter takes the link register's word. -/
def Reg.restoredTo (r : Reg) : Reg :=
  if r = .lr then .pc else r

namespace Instr

def saving (s : Finset Reg) : Instr :=
  .push ((Reg.ascending s).contains .lr) (Form.listMask (Reg.ascending s))

def restoring (s : Finset Reg) : Instr :=
  .pop ((Reg.ascending s).contains .lr) (Form.listMask (Reg.ascending s))

end Instr

/-- What a push leaves in memory: the words of the registers, the lowest number first, up to the
stack pointer. -/
structure Saved (s : Finset Reg) (b : Bank) (m m' : Memory) : Prop where
  layout : m'.clear = m.clear
  byte (a : Nat) : m'.byte? a =
    (byteFrom (b.sp.toNat - 4 * s.card) (wordBytes ((Reg.ascending s).map b.read)) a).or (m.byte? a)

/-- A memory with the same regions and the same bytes in a range. -/
structure Memory.AgreesOn (start length : Nat) (m m' : Memory) : Prop where
  layout : m'.clear = m.clear
  byte (a : Nat) (hstart : start ≤ a) (hend : a < start + length) : m'.byte? a = m.byte? a

/-- The registers after a pop, by those of the push and those just before the pop. -/
structure Restored (s : Finset Reg) (saved before after : Bank) : Prop where
  low {r : Reg} (hr : r ∈ s) (hlow : r.isLow = true) : after.read r = saved.read r
  pc (h : .lr ∈ s) : after.read .pc = saved.read .lr &&& ~~~1
  sp : after.sp = saved.sp
  other {r : Reg} (hr : r ∈ s → r = .lr) (hsp : r ≠ .sp) (hpc : r = .pc → .lr ∉ s) :
    after.read r = before.read r
  flags : after.flags = before.flags
  pcWritten : after.pcWritten = (before.pcWritten || decide (.lr ∈ s))

section

variable {s : Finset Reg} (hs : ∀ r ∈ s, r.isLow = true ∨ r = .lr)

include hs

theorem Reg.ascending_restoredTo :
    ascending (s.image restoredTo) = (ascending s).map restoredTo := by
  symm
  apply eq_ascending
  · rw [List.pairwise_map]
    apply (ascending_pairwise s).imp_of_mem
    intro r r' hr hr' hlt
    unfold restoredTo
    -- The link register is the last of the set, and the program counter is above it.
    rcases hs r (mem_ascending.mp hr) with hlow | rfl
    · rw [if_neg (by rintro rfl; cases hlow)]
      split
      case isTrue h =>
        subst h
        exact hlt.trans (by decide)
      case isFalse => exact hlt
    · rcases hs r' (mem_ascending.mp hr') with hlow | rfl
      · have hsmall := of_decide_eq_true hlow
        have hlarge : 14 < r'.number.val := hlt
        omega
      · exact absurd hlt (lt_irrefl _)
  · intro r
    simp only [List.mem_map, mem_ascending, Finset.mem_image]

theorem Reg.card_restoredTo : (s.image restoredTo).card = s.card := by
  rw [← length_ascending, ascending_restoredTo hs, List.length_map, length_ascending]

theorem Reg.mem_image_restoredTo {r : Reg} :
    r ∈ s.image restoredTo ↔ (r.isLow = true ∧ r ∈ s) ∨ (r = .pc ∧ .lr ∈ s) := by
  rw [Finset.mem_image]
  constructor
  · rintro ⟨r, hr, rfl⟩
    rcases hs r hr with hlow | rfl
    · rw [restoredTo, if_neg (by rintro rfl; cases hlow)]
      exact .inl ⟨hlow, hr⟩
    · exact .inr ⟨rfl, hr⟩
  · rintro (⟨hlow, hr⟩ | ⟨rfl, hr⟩)
    · exact ⟨r, hr, if_neg (by rintro rfl; cases hlow)⟩
    · exact ⟨.lr, hr, rfl⟩

theorem Instr.listTransfer?_saving :
    (saving s).listTransfer? = some ⟨false, .sp, true, s⟩ := by
  have hlisted : ∀ r ∈ (Reg.ascending s).toFinset, r.isLow = true ∨ r = .lr := by
    rw [Reg.toFinset_ascending]
    exact hs
  have h := listTransfer?_push hlisted
  rw [Reg.toFinset_ascending] at h
  exact h

theorem Instr.listTransfer?_restoring :
    (restoring s).listTransfer? = some ⟨true, .sp, false, s.image Reg.restoredTo⟩ := by
  have hset : (restoring s).transferred.toFinset = s.image Reg.restoredTo := by
    apply Finset.ext
    intro r
    rw [List.mem_toFinset, restoring, transferred, Form.mem_listed_append, Reg.mem_ascending,
      Reg.mem_ascending, Reg.mem_image_restoredTo hs]
  exact congrArg (fun rs => some (ListTransfer.mk true .sp false rs)) hset

end

section

variable {s : Finset Reg} (hs : ∀ r ∈ s, r.isLow = true ∨ r = .lr) {b b₂ b' : Bank}
  (hload : (ListTransfer.mk true .sp false (s.image Reg.restoredTo)).Loaded b₂
    ((Reg.ascending s).map b.read) b')

include hs hload

theorem read_restoredTo {r : Reg} (hr : r ∈ s) :
    b'.read r.restoredTo = if r.restoredTo = .pc then b.read r &&& ~~~1 else b.read r := by
  obtain ⟨j, hj⟩ := List.mem_iff_getElem?.mp (Reg.mem_ascending.mpr hr)
  apply hload.word (j := j)
  · rw [Reg.ascending_restoredTo hs, List.getElem?_map, hj]
    rfl
  · rw [List.getElem?_map, hj]
    rfl

theorem restored_of_loaded (hsp : b₂.sp = b.sp - BitVec.ofNat 32 (4 * s.card)) :
    Restored s b b₂ b' where
  low {r} hr hlow := by
    have hread := read_restoredTo hs hload hr
    rw [Reg.restoredTo, if_neg (by rintro rfl; cases hlow), if_neg (by rintro rfl; cases hlow)]
      at hread
    exact hread
  pc hr := read_restoredTo hs hload hr
  sp := by
    have hnot : .sp ∉ s.image Reg.restoredTo := by
      rw [Reg.mem_image_restoredTo hs]
      rintro (⟨hlow, _⟩ | ⟨hpc, _⟩)
      · cases hlow
      · cases hpc
    calc
      b'.sp = b₂.sp + BitVec.ofNat 32 (4 * (s.image Reg.restoredTo).card) := hload.base hnot
      _ = b.sp := by rw [hsp, Reg.card_restoredTo hs, BitVec.sub_add_cancel]
  other {r} hr hne hpc := by
    apply hload.other _ hne
    rw [Reg.mem_image_restoredTo hs]
    rintro (⟨hlow, hmem⟩ | ⟨heq, hmem⟩)
    · cases hr hmem
      cases hlow
    · exact hpc heq hmem
  flags := hload.flags
  pcWritten := by
    have hmem : .pc ∈ s.image Reg.restoredTo ↔ .lr ∈ s := by
      rw [Reg.mem_image_restoredTo hs]
      constructor
      · rintro (⟨hlow, _⟩ | ⟨_, hmem⟩)
        · cases hlow
        · exact hmem
      · exact fun hmem => .inr ⟨rfl, hmem⟩
    rw [hload.pcWritten, decide_eq_decide.mpr hmem]

end

theorem toNat_sub_bytes {sp : Word} {n : Nat} (h : 4 * n ≤ sp.toNat) :
    (sp - BitVec.ofNat 32 (4 * n)).toNat = sp.toNat - 4 * n := by
  have hn : (BitVec.ofNat 32 (4 * n)).toNat = 4 * n :=
    Nat.mod_eq_of_lt (Nat.lt_of_le_of_lt h sp.isLt)
  rw [BitVec.toNat_sub_of_le, hn]
  rw [BitVec.le_def, hn]
  exact h

section

variable {s : Finset Reg} {b b₂ : Bank} {m m' m₂ : Memory} (hm : m.Disjoint)
  (hroom : 4 * s.card ≤ b.sp.toNat) (hw : m.Writable (b.sp.toNat - 4 * s.card) (4 * s.card))

include hm hroom hw

theorem writeWords_saved :
    ∃ m', Bus.writeWords (b.sp - BitVec.ofNat 32 (4 * s.card)) ((Reg.ascending s).map b.read) m =
      .ok () m' ∧ Saved s b m m' := by
  have hstart := toNat_sub_bytes hroom
  have hlen : ((Reg.ascending s).map b.read).length = s.card := by
    rw [List.length_map, Reg.length_ascending]
  have hwritable : m.Writable (b.sp - BitVec.ofNat 32 (4 * s.card)).toNat
      (4 * ((Reg.ascending s).map b.read).length) := by
    rw [hstart, hlen]
    exact hw
  obtain ⟨m', hwords, hclear, hbyte⟩ := Memory.writeWords_writable hm hwritable (by omega)
  refine ⟨m', hwords, hclear, ?_⟩
  rw [← hstart]
  exact hbyte

theorem readWords_kept (hsaved : Saved s b m m')
    (hkept : Memory.AgreesOn (b.sp.toNat - 4 * s.card) (4 * s.card) m' m₂) :
    Bus.readWords (b.sp - BitVec.ofNat 32 (4 * s.card)) s.card m₂ =
      .ok ((Reg.ascending s).map b.read) m₂ := by
  have hstart := toNat_sub_bytes hroom
  have hlayout := hkept.layout.trans hsaved.layout
  have hlen : ((Reg.ascending s).map b.read).length = s.card := by
    rw [List.length_map, Reg.length_ascending]
  have hwords : Bus.readWords (b.sp - BitVec.ofNat 32 (4 * s.card))
      ((Reg.ascending s).map b.read).length m₂ = .ok ((Reg.ascending s).map b.read) m₂ := by
    apply Memory.readWords_of_bytes ((Memory.disjoint_congr hlayout).mpr hm)
    · rw [hlen, hstart]
      exact ((Memory.writable_congr hlayout).mpr hw).inside
    · omega
    · intro i hi
      rw [hlen] at hi
      rw [hstart, hkept.byte _ (by omega) (by omega), hsaved.byte, byteFrom,
        if_pos (Nat.le_add_right _ _), Nat.add_sub_cancel_left, List.getElem?_eq_getElem]
      · rfl
      · rw [length_wordBytes, hlen]
        exact hi
  rw [hlen] at hwords
  exact hwords

variable (hs : ∀ r ∈ s, r.isLow = true ∨ r = .lr) (hne : s.Nonempty)
  (haligned : b.sp.toNat % 4 = 0)

include hs hne haligned

theorem exec_saving :
    ∃ m', (Instr.saving s).exec ⟨b, m⟩ =
        .ok () ⟨b.write .sp (b.sp - BitVec.ofNat 32 (4 * s.card)), m'⟩ ∧ Saved s b m m' := by
  obtain ⟨m', hwords, hsaved⟩ := writeWords_saved hm hroom hw
  refine ⟨m', ?_, hsaved⟩
  rw [Instr.exec_ok_iff_performed (Instr.listTransfer?_saving hs) hne]
  refine .stored rfl ?_ hwords rfl
  exact (congrArg (· % 4) (toNat_sub_bytes hroom)).trans (by omega)

theorem exec_restoring (hsaved : Saved s b m m')
    (hsp : b₂.sp = b.sp - BitVec.ofNat 32 (4 * s.card))
    (hkept : Memory.AgreesOn (b.sp.toNat - 4 * s.card) (4 * s.card) m' m₂) :
    ∃ b', (Instr.restoring s).exec ⟨b₂, m₂⟩ = .ok () ⟨b', m₂⟩ ∧ Restored s b b₂ b' := by
  have hcard := Reg.card_restoredTo hs
  have hwords := readWords_kept hm hroom hw hsaved hkept
  rw [← hsp, ← hcard] at hwords
  have hstart := toNat_sub_bytes hroom
  rw [← hsp] at hstart
  obtain ⟨b', hload⟩ : ∃ b', (ListTransfer.mk true .sp false (s.image Reg.restoredTo)).Loaded b₂
      ((Reg.ascending s).map b.read) b' :=
    ⟨_, .receive b₂ (Instr.base_ne_pc (Instr.listTransfer?_restoring hs))
      (Bus.length_of_readWords hwords)⟩
  refine ⟨b', ?_, restored_of_loaded hs hload hsp⟩
  rw [Instr.exec_ok_iff_performed (Instr.listTransfer?_restoring hs) (hne.image _)]
  refine .loaded rfl ?_ _ hwords hload
  exact (congrArg (· % 4) hstart).trans (by omega)

end

/-- The opcodes that save and restore a set of registers, each at work. -/
structure RoundTrip (s : Finset Reg) (b : Bank) (m m' : Memory) : Prop where
  pushed (following : Option Halfword) :
    executeOpcode? (Instr.saving s).encode following ⟨b, m⟩ =
      some (.ok () ⟨b.write .sp (b.sp - BitVec.ofNat 32 (4 * s.card)), m'⟩)
  saved : Saved s b m m'
  popped {b₂ : Bank} {m₂ : Memory} (hsp : b₂.sp = b.sp - BitVec.ofNat 32 (4 * s.card))
    (hkept : Memory.AgreesOn (b.sp.toNat - 4 * s.card) (4 * s.card) m' m₂) :
    ∃ b', (∀ following, executeOpcode? (Instr.restoring s).encode following ⟨b₂, m₂⟩ =
      some (.ok () ⟨b', m₂⟩)) ∧ Restored s b b₂ b'

/-- A pop undoes a push, whatever has been done to the rest of the machine in between. -/
theorem pop_undoes_push (s : Finset Reg) (hne : s.Nonempty)
    (hs : ∀ r ∈ s, r.isLow = true ∨ r = .lr) (b : Bank) (haligned : b.sp.toNat % 4 = 0)
    (hroom : 4 * s.card ≤ b.sp.toNat) (m : Memory) (hm : m.Disjoint)
    (hw : m.Writable (b.sp.toNat - 4 * s.card) (4 * s.card)) : ∃ m', RoundTrip s b m m' := by
  obtain ⟨m', hpush, hsaved⟩ := exec_saving hm hroom hw hs hne haligned
  refine ⟨m', ?_, hsaved, ?_⟩
  · intro following
    rw [Instr.executeOpcode?_encode, hpush]
  · intro b₂ m₂ hsp hkept
    obtain ⟨b', hpop, hrestored⟩ := exec_restoring hm hroom hw hs hne haligned hsaved hsp hkept
    refine ⟨b', ?_, hrestored⟩
    intro following
    rw [Instr.executeOpcode?_encode, hpop]

/-- Three registers at the top of a writable region, next to a protected one. -/
theorem pop_undoes_push_three :
    let s : Finset Reg := {.low 0, .low 7, .lr}
    let b : Bank := { regs := #v[0x11, 0, 0, 0, 0, 0, 0, 0x77, 0, 0, 0, 0, 0, 32, 0x1235, 0] }
    let m : Memory := ⟨[.zeros 0 16 true, .zeros 16 16 false]⟩
    b.sp.toNat % 4 = 0 ∧ m.Disjoint ∧ m.Writable (b.sp.toNat - 4 * s.card) (4 * s.card) ∧
      ∃ m', RoundTrip s b m m' ∧ (List.range' 16 17).map m'.byte? =
        [some 0, some 0, some 0, some 0, some 0x11, some 0, some 0, some 0, some 0x77, some 0,
          some 0, some 0, some 0x35, some 0x12, some 0, some 0, none] := by
  intro s b m
  have hm : m.Disjoint := by
    apply List.pairwise_pair.mpr
    intro a h
    obtain ⟨⟨_, hlow⟩, ⟨hhigh, _⟩⟩ := h
    exact absurd (Nat.le_trans hlow hhigh) (Nat.not_succ_le_self a)
  have hw : m.Writable (b.sp.toNat - 4 * s.card) (4 * s.card) := by decide
  obtain ⟨m', h⟩ := pop_undoes_push s ⟨.lr, by decide⟩ (by decide) b (by decide) (by decide) m hm hw
  refine ⟨by decide, hm, hw, m', h, ?_⟩
  rw [funext h.saved.byte]
  decide

end Thumb
