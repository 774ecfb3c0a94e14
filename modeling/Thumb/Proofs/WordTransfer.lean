import Thumb.Proofs.Decoding
import Thumb.Proofs.Interruption

namespace Thumb

namespace Bus

variable {μ : Type} [Bus μ]

def readWords : Word → Nat → EStateM BusError μ (List Word)
  | _, 0 => pure []
  | addr, n + 1 => do
    let v ← read .word addr
    let vs ← readWords (addr + 4) n
    return v :: vs

theorem readWords_succ_iff {addr : Word} {n : Nat} {ws : List Word} {s s' : μ} :
    readWords addr (n + 1) s = .ok ws s' ↔
      ∃ v vs s₁, ws = v :: vs ∧ read .word addr s = .ok v s₁ ∧
        readWords (addr + 4) n s₁ = .ok vs s' := by
  simp only [readWords, run_bind_ok_iff]
  constructor
  · rintro ⟨v, s₁, hv, vs, s₂, hvs, h⟩
    cases h
    exact ⟨v, vs, s₁, rfl, hv, hvs⟩
  · rintro ⟨v, vs, s₁, rfl, hv, hvs⟩
    exact ⟨v, s₁, hv, vs, s', hvs, rfl⟩

theorem length_of_readWords {addr : Word} {n : Nat} {ws : List Word} {s s' : μ}
    (h : readWords addr n s = .ok ws s') : ws.length = n := by
  induction n generalizing addr ws s with
  | zero =>
    cases h
    rfl
  | succ n ih =>
    obtain ⟨v, vs, s₁, rfl, _, h⟩ := readWords_succ_iff.mp h
    rw [List.length_cons, ih h]

end Bus

namespace Bank

theorem ext_read {b b' : Bank} (hread : ∀ r, b.read r = b'.read r) (hflags : b.flags = b'.flags)
    (hpc : b.pcWritten = b'.pcWritten) : b = b' := by
  obtain ⟨regs, flags, pcWritten⟩ := b
  obtain ⟨regs', flags', pcWritten'⟩ := b'
  cases hflags
  cases hpc
  congr 1
  apply Vector.ext
  intro i hi
  exact hread ⟨i, hi⟩

def receive (b : Bank) : List Reg → List Word → Bank
  | r :: rs, w :: ws => (b.writeAny r w).receive rs ws
  | _, _ => b

def received (r : Reg) (w : Word) : Word :=
  if r = .pc then w &&& ~~~1 else w

variable {rs : List Reg} {ws : List Word}

theorem read_receive_of_not_mem (b : Bank) {r : Reg} (h : r ∉ rs) :
    (b.receive rs ws).read r = b.read r := by
  induction rs generalizing b ws with
  | nil => rfl
  | cons s rs ih =>
    obtain ⟨hs, hrs⟩ := List.ne_and_not_mem_of_not_mem_cons h
    cases ws with
    | nil => rfl
    | cons w ws => rw [receive, ih _ hrs, writeAny, read_write_of_ne _ hs]

theorem read_receive (b : Bank) (hnodup : rs.Nodup) {j : Nat} {r : Reg} {w : Word}
    (hr : rs[j]? = some r) (hw : ws[j]? = some w) :
    (b.receive rs ws).read r = received r w := by
  induction rs generalizing b ws j with
  | nil => cases hr
  | cons s rs ih =>
    obtain ⟨hs, hrs⟩ := List.nodup_cons.mp hnodup
    cases ws with
    | nil => cases hw
    | cons v ws =>
      cases j with
      | zero =>
        cases hr
        cases hw
        rw [receive, read_receive_of_not_mem _ hs, writeAny, read_write_self]
        rfl
      | succ j => exact ih _ hrs hr hw

theorem flags_receive (b : Bank) : (b.receive rs ws).flags = b.flags := by
  induction rs generalizing b ws with
  | nil => rfl
  | cons s rs ih =>
    cases ws with
    | nil => rfl
    | cons w ws => exact ih _

theorem pcWritten_receive (b : Bank) (hlen : ws.length = rs.length) :
    (b.receive rs ws).pcWritten = (b.pcWritten || decide (.pc ∈ rs)) := by
  induction rs generalizing b ws with
  | nil => simp [receive]
  | cons s rs ih =>
    cases ws with
    | nil => cases hlen
    | cons w ws =>
      rw [receive, ih _ (Nat.succ.inj hlen)]
      simp [writeAny, write, Bool.or_assoc, eq_comm]

end Bank

namespace Exec

variable {μ : Type} {addr : Word} {m m' : Machine μ}

theorem checkAligned_seq_ok_iff {α : Type} {w : Width} {next : Exec μ α} {a : α} :
    (checkAligned w addr >>= fun _ => next) m = .ok a m' ↔
      addr.toNat % w.bytes = 0 ∧ next m = .ok a m' := by
  unfold checkAligned
  split
  case isTrue h => exact (and_iff_right h).symm
  case isFalse h => exact iff_of_false nofun fun haligned => h haligned.1

theorem onRegs_ok_iff {f : Bank → Bank} :
    onRegs f m = .ok () m' ↔ m' = { m with regs := f m.regs } := by
  constructor
  · intro h
    cases h
    rfl
  · rintro rfl
    rfl

theorem onBus_ok_iff {α : Type} {x : EStateM BusError μ α} {a : α} :
    onBus addr x m = .ok a m' ↔ m'.regs = m.regs ∧ x m.bus = .ok a m'.bus := by
  obtain ⟨regs, bus⟩ := m
  obtain ⟨regs', bus'⟩ := m'
  dsimp only [onBus]
  cases hx : x bus with
  | ok a' bus₁ =>
    simp only [EStateM.Result.ok.injEq, Machine.mk.injEq]
    constructor
    · rintro ⟨rfl, rfl, rfl⟩
      exact ⟨rfl, rfl, rfl⟩
    · rintro ⟨rfl, rfl, rfl⟩
      exact ⟨rfl, rfl, rfl⟩
  | error e bus₁ => exact iff_of_false nofun fun h => nomatch h.2

variable [Bus μ]

theorem store_word_ok_iff {value : Word} :
    store .word addr value m = .ok () m' ↔
      addr.toNat % 4 = 0 ∧ m'.regs = m.regs ∧ Bus.write .word addr value m.bus = .ok () m'.bus := by
  have hwidth : value.setWidth Width.word.bits = value := BitVec.setWidth_eq value
  rw [store, checkAligned_seq_ok_iff, onBus_ok_iff, hwidth]
  rfl

theorem load_word_ok_iff {value : Word} :
    load .word addr m = .ok value m' ↔
      addr.toNat % 4 = 0 ∧ m'.regs = m.regs ∧ Bus.read .word addr m.bus = .ok value m'.bus := by
  have hwidth (v : BitVec Width.word.bits) : v.setWidth 32 = v := BitVec.setWidth_eq v
  rw [load, checkAligned_seq_ok_iff, run_bind_ok_iff]
  simp only [onBus_ok_iff, hwidth]
  constructor
  · rintro ⟨haligned, v, m₁, ⟨hregs, hread⟩, h⟩
    cases h
    exact ⟨haligned, hregs, hread⟩
  · rintro ⟨haligned, hregs, hread⟩
    exact ⟨haligned, value, m', ⟨hregs, hread⟩, rfl⟩

theorem aligned_add_four : (addr + 4).toNat % 4 = 0 ↔ addr.toNat % 4 = 0 := by
  rw [BitVec.toNat_add]
  have hfour : (4 : Word).toNat = 4 := rfl
  omega

/-- Registers are stored as consecutive words, with the values that they have at the start. -/
theorem storeAll_ok_iff {list : List Reg} :
    storeAll addr list m = .ok () m' ↔
      (list ≠ [] → addr.toNat % 4 = 0) ∧ m'.regs = m.regs ∧
        Bus.writeWords addr (list.map m.regs.read) m.bus = .ok () m'.bus := by
  induction list generalizing addr m with
  | nil =>
    obtain ⟨regs, bus⟩ := m
    obtain ⟨regs', bus'⟩ := m'
    constructor
    · intro h
      cases h
      exact ⟨fun h => absurd rfl h, rfl, rfl⟩
    · rintro ⟨_, rfl, h⟩
      cases h
      rfl
  | cons r rs ih =>
    have hcons : storeAll addr (r :: rs) m =
        (store .word addr (m.regs.read r) >>= fun _ => storeAll (addr + 4) rs) m := rfl
    rw [hcons, run_seq_ok_iff, List.map_cons, Bus.writeWords_cons_iff]
    simp only [store_word_ok_iff, ih, aligned_add_four]
    constructor
    · rintro ⟨m₁, ⟨haligned, hregs, hwrite⟩, _, hregs', hrest⟩
      rw [hregs] at hregs' hrest
      exact ⟨fun _ => haligned, hregs', m₁.bus, hwrite, hrest⟩
    · rintro ⟨haligned, hregs, bus, hwrite, hrest⟩
      have haligned := haligned (List.cons_ne_nil r rs)
      exact ⟨⟨m.regs, bus⟩, ⟨haligned, rfl, hwrite⟩, fun _ => haligned, hregs, hrest⟩

theorem loadAll_ok_iff {list : List Reg} :
    loadAll addr list m = .ok () m' ↔
      (list ≠ [] → addr.toNat % 4 = 0) ∧ ∃ ws,
        Bus.readWords addr list.length m.bus = .ok ws m'.bus ∧
          m'.regs = m.regs.receive list ws := by
  induction list generalizing addr m with
  | nil =>
    obtain ⟨regs, bus⟩ := m
    obtain ⟨regs', bus'⟩ := m'
    constructor
    · intro h
      cases h
      exact ⟨fun h => absurd rfl h, [], rfl, rfl⟩
    · rintro ⟨_, ws, h, rfl⟩
      cases h
      rfl
  | cons r rs ih =>
    have hcons : loadAll addr (r :: rs) m =
        (load .word addr >>= fun v => onRegs (·.writeAny r v) >>= fun _ =>
          loadAll (addr + 4) rs) m := rfl
    have hwrite {v : Word} {m₁ : Machine μ} :
        (onRegs (·.writeAny r v) >>= fun _ => loadAll (addr + 4) rs) m₁ =
          loadAll (addr + 4) rs ⟨m₁.regs.writeAny r v, m₁.bus⟩ := rfl
    rw [hcons, run_bind_ok_iff]
    simp only [load_word_ok_iff, hwrite, ih, aligned_add_four, List.length_cons,
      Bus.readWords_succ_iff]
    constructor
    · rintro ⟨v, m₁, ⟨haligned, hregs, hread⟩, _, ws, hrest, hregs'⟩
      rw [hregs] at hregs'
      exact ⟨fun _ => haligned, v :: ws, ⟨v, ws, m₁.bus, rfl, hread, hrest⟩, hregs'⟩
    · rintro ⟨haligned, _, ⟨v, ws, bus, rfl, hread, hrest⟩, hregs⟩
      have haligned := haligned (List.cons_ne_nil r rs)
      exact ⟨v, ⟨m.regs, bus⟩, ⟨haligned, rfl, hread⟩, fun _ => haligned, ws, hrest, hregs⟩

end Exec

end Thumb
