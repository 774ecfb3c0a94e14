import Thumb.Proofs.Expressible
import Thumb.Proofs.WordTransfer

namespace Thumb

namespace Reg

def ascending (s : Finset Reg) : List Reg :=
  all.filter (· ∈ s)

variable {s : Finset Reg}

theorem mem_ascending {r : Reg} : r ∈ ascending s ↔ r ∈ s := by
  have hall : r ∈ all := List.mem_map.mpr ⟨r.number, List.mem_finRange _, rfl⟩
  rw [ascending, List.mem_filter, decide_eq_true_eq, and_iff_right hall]

theorem ascending_pairwise (s : Finset Reg) :
    (ascending s).Pairwise fun r s => r.number < s.number := by
  apply List.Pairwise.filter
  rw [all, List.pairwise_map]
  exact List.pairwise_lt_finRange 16

theorem nodup_of_pairwise {list : List Reg}
    (h : list.Pairwise fun r s => r.number < s.number) : list.Nodup := by
  refine h.imp ?_
  rintro r s hlt rfl
  exact lt_irrefl _ hlt

theorem nodup_ascending (s : Finset Reg) : (ascending s).Nodup :=
  nodup_of_pairwise (ascending_pairwise s)

theorem eq_ascending {list : List Reg} (h : list.Pairwise fun r s => r.number < s.number)
    (hmem : ∀ r, r ∈ list ↔ r ∈ s) : list = ascending s := by
  apply List.Perm.eq_of_pairwise _ h (ascending_pairwise s)
  · rw [List.perm_ext_iff_of_nodup (nodup_of_pairwise h) (nodup_ascending s)]
    intro r
    rw [hmem, mem_ascending]
  · intro a b _ _ hab hba
    exact absurd hab (lt_asymm hba)

theorem toFinset_ascending (s : Finset Reg) : (ascending s).toFinset = s := by
  apply Finset.ext
  intro r
  rw [List.mem_toFinset, mem_ascending]

theorem length_ascending (s : Finset Reg) : (ascending s).length = s.card := by
  rw [← List.toFinset_card_of_nodup (nodup_ascending s), toFinset_ascending]

end Reg

/-- A transfer of a set of registers, one word each. -/
structure ListTransfer where
  /-- From memory to the registers. -/
  load : Bool
  base : Reg
  /-- The words end before the base. Else they start there. -/
  below : Bool
  registers : Finset Reg

namespace ListTransfer

variable (t : ListTransfer)

def size : Word :=
  BitVec.ofNat 32 (4 * t.registers.card)

def start (b : Bank) : Word :=
  if t.below then b.read t.base - t.size else b.read t.base

/-- What the base becomes: the other end of the words. -/
def finish (b : Bank) : Word :=
  if t.below then b.read t.base - t.size else b.read t.base + t.size

/-- The registers after a load of words: those of the set have theirs, the program counter without
bit 0, and the base is past them unless it is one of the set. -/
structure Loaded (b : Bank) (words : List Word) (b' : Bank) : Prop where
  word {j : Nat} {r : Reg} {w : Word} (hr : (Reg.ascending t.registers)[j]? = some r)
    (hw : words[j]? = some w) : b'.read r = if r = .pc then w &&& ~~~1 else w
  base (h : t.base ∉ t.registers) : b'.read t.base = t.finish b
  other {r : Reg} (h : r ∉ t.registers) (hbase : r ≠ t.base) : b'.read r = b.read r
  flags : b'.flags = b.flags
  pcWritten : b'.pcWritten = (b.pcWritten || decide (.pc ∈ t.registers))

variable {t} {μ : Type} [Bus μ]

/-- What a transfer does that ends without a trap. -/
inductive Performed (t : ListTransfer) (m m' : Machine μ) : Prop
  | stored (kind : t.load = false) (aligned : (t.start m.regs).toNat % 4 = 0)
      (words : Bus.writeWords (t.start m.regs) ((Reg.ascending t.registers).map m.regs.read) m.bus =
        .ok () m'.bus)
      (regs : m'.regs = m.regs.write t.base (t.finish m.regs))
  | loaded (kind : t.load = true) (aligned : (t.start m.regs).toNat % 4 = 0) (ws : List Word)
      (words : Bus.readWords (t.start m.regs) t.registers.card m.bus = .ok ws m'.bus)
      (regs : t.Loaded m.regs ws m'.regs)

theorem Loaded.unique {b b₁ b₂ : Bank} {words : List Word}
    (hlen : words.length = t.registers.card) (h₁ : t.Loaded b words b₁)
    (h₂ : t.Loaded b words b₂) : b₁ = b₂ := by
  apply Bank.ext_read
  · intro r
    by_cases hr : r ∈ t.registers
    · obtain ⟨j, hj⟩ := List.mem_iff_getElem?.mp (Reg.mem_ascending.mpr hr)
      have hlt := (List.getElem?_eq_some_iff.mp hj).1
      rw [Reg.length_ascending, ← hlen] at hlt
      have hw := List.getElem?_eq_getElem hlt
      rw [h₁.word hj hw, h₂.word hj hw]
    · by_cases hbase : r = t.base
      · subst hbase
        rw [h₁.base hr, h₂.base hr]
      · rw [h₁.other hr hbase, h₂.other hr hbase]
  · rw [h₁.flags, h₂.flags]
  · rw [h₁.pcWritten, h₂.pcWritten]

theorem Loaded.receive (b : Bank) (hbase : t.base ≠ .pc) {words : List Word}
    (hlen : words.length = t.registers.card) :
    t.Loaded b words (if t.base ∈ t.registers then b.receive (Reg.ascending t.registers) words
      else (b.receive (Reg.ascending t.registers) words).write t.base (t.finish b)) := by
  have hnodup := Reg.nodup_ascending t.registers
  have hlen' : words.length = (Reg.ascending t.registers).length := by
    rw [hlen, Reg.length_ascending]
  have hpc := b.pcWritten_receive hlen'
  simp only [Reg.mem_ascending] at hpc
  split
  case isTrue hmem =>
    constructor
    case word => exact b.read_receive hnodup
    case base => exact fun h => absurd hmem h
    case other =>
      intro r hr _
      exact b.read_receive_of_not_mem (mt Reg.mem_ascending.mp hr)
    case flags => exact b.flags_receive
    case pcWritten => exact hpc
  case isFalse hmem =>
    constructor
    case word =>
      intro j r w hr hw
      have hne : r ≠ t.base := by
        rintro rfl
        exact hmem (Reg.mem_ascending.mp (List.mem_of_getElem? hr))
      rw [Bank.read_write_of_ne _ hne, b.read_receive hnodup hr hw]
      rfl
    case base => exact fun _ => Bank.read_write_self _ _ _
    case other =>
      intro r hr hne
      rw [Bank.read_write_of_ne _ hne, b.read_receive_of_not_mem (mt Reg.mem_ascending.mp hr)]
    case flags => exact b.flags_receive
    case pcWritten =>
      show ((b.receive _ words).pcWritten || decide (t.base = .pc)) = _
      rw [hpc, decide_eq_false hbase, Bool.or_false]

end ListTransfer

namespace Form

variable {rs : List Reg} {r : Reg}

theorem mem_listed_listMask : r ∈ listed (listMask rs) ↔ r.isLow = true ∧ r ∈ rs := by
  constructor
  · intro hmem
    have hlow := isLow_of_mem_listed hmem
    rw [← Reg.low_lowOfNat hlow, mem_listed, getLsb_listMask, Reg.low_lowOfNat hlow] at hmem
    exact ⟨hlow, hmem⟩
  · rintro ⟨hlow, hmem⟩
    rw [← Reg.low_lowOfNat hlow, mem_listed, getLsb_listMask, Reg.low_lowOfNat hlow]
    exact hmem

/-- The low registers of a list, and one more that stands for a register that is not low. -/
theorem mem_listed_append {other last : Reg} :
    (r ∈ listed (listMask rs) ++ if rs.contains other then [last] else []) ↔
      (r.isLow = true ∧ r ∈ rs) ∨ (r = last ∧ other ∈ rs) := by
  rw [List.mem_append, mem_listed_listMask]
  split
  case isTrue h => simp [List.contains_iff_mem.mp h]
  case isFalse h => simp [mt List.contains_iff_mem.mpr h]

theorem toFinset_listed (h : ∀ r ∈ rs.toFinset, r.isLow = true) :
    (listed (listMask rs)).toFinset = rs.toFinset := by
  apply Finset.ext
  intro r
  have hr := h r
  rw [List.mem_toFinset] at hr
  rw [List.mem_toFinset, List.mem_toFinset, mem_listed_listMask, and_iff_right_of_imp hr]

theorem toFinset_listed_append {extra : Reg}
    (h : ∀ r ∈ rs.toFinset, r.isLow = true ∨ r = extra) :
    (listed (listMask rs) ++ if rs.contains extra then [extra] else []).toFinset = rs.toFinset := by
  apply Finset.ext
  intro r
  have hr := h r
  rw [List.mem_toFinset] at hr
  rw [List.mem_toFinset, List.mem_toFinset, mem_listed_append]
  constructor
  · rintro (⟨_, hr⟩ | ⟨rfl, hr⟩)
    · exact hr
    · exact hr
  · intro hmem
    rcases hr hmem with hlow | rfl
    · exact .inl ⟨hlow, hmem⟩
    · exact .inr ⟨rfl, hmem⟩

end Form

namespace Instr

def listTransfer? (i : Instr) : Option ListTransfer :=
  match i with
  | .push .. => some ⟨false, .sp, true, i.transferred.toFinset⟩
  | .pop .. => some ⟨true, .sp, false, i.transferred.toFinset⟩
  | .storeMultiple n _ => some ⟨false, .low n, false, i.transferred.toFinset⟩
  | .loadMultiple n _ => some ⟨true, .low n, false, i.transferred.toFinset⟩
  | _ => none

section Masks

variable {rs : List Reg}

theorem listTransfer?_push (h : ∀ r ∈ rs.toFinset, r.isLow = true ∨ r = .lr) :
    (push (rs.contains .lr) (Form.listMask rs)).listTransfer? =
      some ⟨false, .sp, true, rs.toFinset⟩ := by
  rw [listTransfer?, transferred, Form.toFinset_listed_append h]

theorem listTransfer?_pop (h : ∀ r ∈ rs.toFinset, r.isLow = true ∨ r = .pc) :
    (pop (rs.contains .pc) (Form.listMask rs)).listTransfer? =
      some ⟨true, .sp, false, rs.toFinset⟩ := by
  rw [listTransfer?, transferred, Form.toFinset_listed_append h]

theorem listTransfer?_storeMultiple (n : Fin 8) (h : ∀ r ∈ rs.toFinset, r.isLow = true) :
    (storeMultiple n (Form.listMask rs)).listTransfer? =
      some ⟨false, .low n, false, rs.toFinset⟩ := by
  rw [listTransfer?, transferred, Form.toFinset_listed h]

theorem listTransfer?_loadMultiple (n : Fin 8) (h : ∀ r ∈ rs.toFinset, r.isLow = true) :
    (loadMultiple n (Form.listMask rs)).listTransfer? =
      some ⟨true, .low n, false, rs.toFinset⟩ := by
  rw [listTransfer?, transferred, Form.toFinset_listed h]

end Masks

variable {i : Instr} {t : ListTransfer} {μ : Type} [Bus μ] {m m' : Machine μ}

theorem registers_of_listTransfer? (h : i.listTransfer? = some t) :
    t.registers = i.transferred.toFinset := by
  cases i <;> cases h <;> rfl

theorem transferred_eq_ascending (h : i.listTransfer? = some t) :
    i.transferred = Reg.ascending t.registers := by
  apply Reg.eq_ascending i.transferred_ascending
  intro r
  rw [registers_of_listTransfer? h, List.mem_toFinset]

theorem length_transferred (h : i.listTransfer? = some t) :
    i.transferred.length = t.registers.card := by
  rw [transferred_eq_ascending h, Reg.length_ascending]

theorem base_ne_pc (h : i.listTransfer? = some t) : t.base ≠ .pc := by
  cases i <;> cases h
  case push => exact fun h => nomatch h
  case pop => exact fun h => nomatch h
  case storeMultiple n _ => exact Reg.low_ne_pc n
  case loadMultiple n _ => exact Reg.low_ne_pc n

theorem sp_not_mem_pop (toPc : Bool) (list : BitVec 8) : .sp ∉ (pop toPc list).transferred := by
  intro hmem
  rcases List.mem_append.mp hmem with hmem | hmem
  · cases isLow_of_mem_listed hmem
  · cases toPc with
    | false => cases hmem
    | true => cases List.mem_singleton.mp hmem

theorem exec_stores (h : i.listTransfer? = some t) (hkind : t.load = false) :
    i.exec m = .ok () m' ↔ ∃ m₁, Exec.storeAll (t.start m.regs) i.transferred m = .ok () m₁ ∧
      m' = { m₁ with regs := m₁.regs.write t.base (t.finish m.regs) } := by
  have hsize : t.size = BitVec.ofNat 32 (4 * i.transferred.length) := by
    rw [ListTransfer.size, length_transferred h]
  have hexec : i.exec m = (Exec.storeAll (t.start m.regs) i.transferred >>= fun _ =>
      Exec.onRegs (·.write t.base (t.finish m.regs))) m := by
    unfold ListTransfer.start ListTransfer.finish
    rw [hsize]
    cases i <;> cases h <;> cases hkind <;> rfl
  rw [hexec, run_seq_ok_iff]
  simp only [Exec.onRegs_ok_iff]

/-- A load of several registers does so unless it loads the base. -/
theorem exec_loads (h : i.listTransfer? = some t) (hkind : t.load = true) :
    i.exec m = .ok () m' ↔ ∃ m₁, Exec.loadAll (t.start m.regs) i.transferred m = .ok () m₁ ∧
      m' = { m₁ with regs := if t.base ∈ t.registers then m₁.regs
        else m₁.regs.write t.base (t.finish m.regs) } := by
  have hsize : t.size = BitVec.ofNat 32 (4 * i.transferred.length) := by
    rw [ListTransfer.size, length_transferred h]
  have hexec : i.exec m = (Exec.loadAll (t.start m.regs) i.transferred >>= fun _ =>
      Exec.onRegs fun b => if t.base ∈ t.registers then b
        else b.write t.base (t.finish m.regs)) m := by
    unfold ListTransfer.start ListTransfer.finish
    rw [hsize]
    cases i <;> cases h <;> cases hkind
    case pop toPc list =>
      simp only [List.mem_toFinset, sp_not_mem_pop, if_false]
      rfl
    case loadMultiple n list =>
      have hexec : (loadMultiple n list).exec m =
          (Exec.loadAll (m.regs.read (.low n)) (listed list) >>= fun _ =>
            if !(listed list).contains (.low n) then Exec.onRegs (·.write (.low n)
              (m.regs.read (.low n) + BitVec.ofNat 32 (4 * (listed list).length)))
            else pure ()) m := rfl
      have hmem : (listed list).contains (.low n) =
          decide (Reg.low n ∈ (loadMultiple n list).transferred.toFinset) := by
        simp [transferred]
      rw [hexec, hmem]
      by_cases h : Reg.low n ∈ (loadMultiple n list).transferred.toFinset
      · simp only [h, if_true]
        rfl
      · simp only [h, if_false]
        rfl
  rw [hexec, run_seq_ok_iff]
  simp only [Exec.onRegs_ok_iff]

theorem exec_ok_iff_performed (h : i.listTransfer? = some t) (hne : t.registers.Nonempty) :
    i.exec m = .ok () m' ↔ t.Performed m m' := by
  have hlist := transferred_eq_ascending h
  have hcons : Reg.ascending t.registers ≠ [] := by
    obtain ⟨r, hr⟩ := hne
    exact List.ne_nil_of_mem (Reg.mem_ascending.mpr hr)
  cases hkind : t.load with
  | false =>
    rw [exec_stores h hkind, hlist]
    simp only [Exec.storeAll_ok_iff]
    constructor
    · rintro ⟨m₁, ⟨haligned, hregs, hwords⟩, rfl⟩
      refine .stored hkind (haligned hcons) hwords ?_
      rw [hregs]
    · intro hperformed
      cases hperformed with
      | stored _ haligned hwords hregs =>
        refine ⟨⟨m.regs, m'.bus⟩, ⟨fun _ => haligned, rfl, hwords⟩, ?_⟩
        rw [← hregs]
      | loaded hload =>
        rw [hkind] at hload
        cases hload
  | true =>
    rw [exec_loads h hkind, hlist]
    simp only [Exec.loadAll_ok_iff, Reg.length_ascending]
    constructor
    · rintro ⟨m₁, ⟨haligned, ws, hwords, hregs⟩, rfl⟩
      refine .loaded hkind (haligned hcons) ws hwords ?_
      rw [hregs]
      exact .receive m.regs (base_ne_pc h) (Bus.length_of_readWords hwords)
    · intro hperformed
      cases hperformed with
      | stored hstore =>
        rw [hkind] at hstore
        cases hstore
      | loaded _ haligned ws hwords hloaded =>
        have hlen := Bus.length_of_readWords hwords
        refine ⟨⟨m.regs.receive _ ws, m'.bus⟩, ⟨fun _ => haligned, ws, hwords, rfl⟩, ?_⟩
        rw [← hloaded.unique hlen (.receive m.regs (base_ne_pc h) hlen)]

end Instr

end Thumb
