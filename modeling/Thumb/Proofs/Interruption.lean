import Thumb.Proofs.Protection

namespace Thumb

theorem run_seq_ok_iff {ε σ β : Type} {x : EStateM ε σ Unit} {next : EStateM ε σ β} {s s' : σ}
    {b : β} :
    (x >>= fun _ => next) s = .ok b s' ↔ ∃ s₁, x s = .ok () s₁ ∧ next s₁ = .ok b s' := by
  rw [run_bind_ok_iff]
  constructor
  · rintro ⟨_, s₁, hx, h⟩
    exact ⟨s₁, hx, h⟩
  · rintro ⟨s₁, hx, h⟩
    exact ⟨(), s₁, hx, h⟩

namespace Bus

variable {μ : Type} [Bus μ]

def writeWords : Word → List Word → EStateM BusError μ Unit
  | _, [] => pure ()
  | addr, v :: vs => do
    write .word addr v
    writeWords (addr + 4) vs

theorem writeWords_cons_iff {addr v : Word} {vs : List Word} {s s' : μ} :
    writeWords addr (v :: vs) s = .ok () s' ↔
      ∃ s₁, write .word addr v s = .ok () s₁ ∧ writeWords (addr + 4) vs s₁ = .ok () s' :=
  run_seq_ok_iff

end Bus

namespace Memory

theorem write_error {w : Width} {addr : Word} {v : BitVec w.bits} {e : BusError} {m m' : Memory}
    (h : write w addr v m = .error e m') : m' = m := by
  unfold write alter at h
  split at h
  · cases h
  · cases h
    rfl

end Memory

namespace Bank

/-- The registers of a list have the words from an address on, and nothing else has changed. -/
structure Loads (b : Bank) (memory : Memory) (addr : Word) (list : List Reg) (b' : Bank) :
    Prop where
  word {j : Nat} {r : Reg} (h : list[j]? = some r) :
    Memory.read .word (addr + BitVec.ofNat 32 (4 * j)) memory = .ok (b'.read r) memory
  other {r : Reg} (h : r ∉ list) : b'.read r = b.read r
  flags : b'.flags = b.flags

theorem Loads.nil (b : Bank) (memory : Memory) (addr : Word) : b.Loads memory addr [] b :=
  ⟨nofun, fun _ => rfl, rfl⟩

theorem Loads.cons {b b' : Bank} {memory : Memory} {addr value : Word} {r : Reg} {list : List Reg}
    (hr : r ∉ list) (hread : Memory.read .word addr memory = .ok value memory)
    (h : (b.write r value).Loads memory (addr + 4) list b') :
    b.Loads memory addr (r :: list) b' := by
  refine ⟨?_, ?_, h.flags⟩
  · intro j s hs
    cases j with
    | zero =>
      cases hs
      rw [h.other hr, read_write_self, Nat.mul_zero, BitVec.add_zero]
      exact hread
    | succ j =>
      have haddr : addr + BitVec.ofNat 32 (4 * (j + 1)) = addr + 4 + BitVec.ofNat 32 (4 * j) := by
        rw [Nat.mul_succ, Nat.add_comm, BitVec.ofNat_add, BitVec.add_assoc]
        rfl
      rw [haddr]
      exact h.word hs
  · intro s hs
    rw [List.mem_cons, not_or] at hs
    obtain ⟨hne, hlist⟩ := hs
    rw [h.other hlist, read_write_of_ne _ hne]

end Bank

namespace Exec

section Errors

variable {α β : Type} {x : Exec Memory α} {next : α → Exec Memory β} {m m' : Machine Memory}
  {t : Trap}

theorem error_of_bind (h : (x >>= next) m = .error t m')
    (hnext : ∀ a m₁, next a m₁ ≠ .error t m') : x m = .error t m' := by
  rcases bind_error h with h | ⟨a, m₁, _, h⟩
  · exact h
  · cases hnext a m₁ h

theorem Reads.eq_of_ok {a : α} (hx : Reads x) (h : x m = .ok a m') : m' = m := by
  have hstate := hx.state m
  rw [h] at hstate
  exact hstate.symm

theorem Reads.eq_of_error (hx : Reads x) (h : x m = .error t m') : m' = m := by
  have hstate := hx.state m
  rw [h] at hstate
  exact hstate.symm

/-- An action that changes nothing if it ends in a trap. -/
def Atomic (x : Exec Memory α) : Prop :=
  ∀ m m' t, x m = .error t m' → m' = m

theorem Atomic.bind (hx : Reads x) (hnext : ∀ a, Atomic (next a)) : Atomic (x >>= next) := by
  intro m m' t h
  rcases bind_error h with h | ⟨a, m₁, hm, h⟩
  · exact hx.eq_of_error h
  · cases hx.eq_of_ok hm
    exact hnext a _ _ _ h

end Errors

variable {addr : Word} {t : Trap} {m m' : Machine Memory}

theorem onRegs_atomic (f : Bank → Bank) : Atomic (onRegs f) := by
  intro m m' t h
  cases h

theorem onBus_ok {α : Type} {x : EStateM BusError Memory α} {a : α}
    (h : onBus addr x m = .ok a m') : m'.regs = m.regs ∧ x m.bus = .ok a m'.bus := by
  obtain ⟨regs, bus⟩ := m
  dsimp only [onBus] at h
  split at h
  case h_1 hx =>
    cases h
    exact ⟨rfl, hx⟩
  case h_2 => cases h

theorem store_atomic (w : Width) (addr value : Word) : Atomic (store w addr value) := by
  refine .bind (Within.checkAligned w addr) fun _ => ?_
  rintro ⟨regs, bus⟩ m' t h
  dsimp only [onBus] at h
  split at h
  case h_1 => cases h
  case h_2 he =>
    cases h
    rw [Memory.write_error he]

theorem transfer_atomic (k : Transfer) (addr : Word) (r : Fin 8) : Atomic (transfer k addr r) := by
  unfold transfer
  split
  · exact .bind (.load k.width addr) fun _ => onRegs_atomic _
  · exact .bind .regs fun _ => store_atomic _ _ _

theorem store_ok {value : Word} (h : store .word addr value m = .ok () m') :
    m'.regs = m.regs ∧ Memory.write .word addr value m.bus = .ok () m'.bus := by
  obtain ⟨_, m₁, hm, h⟩ := run_bind_ok_iff.mp h
  cases Reads.eq_of_ok (Within.checkAligned .word addr) hm
  have hwidth : value.setWidth Width.word.bits = value := BitVec.setWidth_eq value
  rw [hwidth] at h
  exact onBus_ok h

theorem load_ok {value : Word} (h : load .word addr m = .ok value m') :
    m' = m ∧ Memory.read .word addr m.bus = .ok value m.bus := by
  cases Reads.eq_of_ok (.load .word addr) h
  obtain ⟨_, m₁, hm, h⟩ := run_bind_ok_iff.mp h
  cases Reads.eq_of_ok (Within.checkAligned .word addr) hm
  obtain ⟨v, m₂, hbus, h⟩ := run_bind_ok_iff.mp h
  have hwidth : v.setWidth 32 = v := BitVec.setWidth_eq v
  cases h
  rw [hwidth]
  exact ⟨rfl, (onBus_ok hbus).2⟩

theorem storeAll_error {list : List Reg} (h : storeAll addr list m = .error t m') :
    ∃ k < list.length, m'.regs = m.regs ∧
      Bus.writeWords addr ((list.take k).map m.regs.read) m.bus = .ok () m'.bus := by
  induction list generalizing addr m with
  | nil => cases h
  | cons r rs ih =>
    rcases bind_error h with hregs | ⟨b, m₁, hregs, hrest⟩
    · cases hregs
    cases hregs
    rcases bind_error hrest with hstore | ⟨_, m₂, hstore, hothers⟩
    · cases store_atomic _ _ _ _ _ _ hstore
      exact ⟨0, Nat.succ_pos _, rfl, rfl⟩
    · -- A store leaves the registers alone, so the others still store what they held at first.
      obtain ⟨hregs, hwrite⟩ := store_ok hstore
      obtain ⟨k, hk, hsame, hwords⟩ := ih hothers
      rw [hregs] at hsame hwords
      exact ⟨k + 1, Nat.succ_lt_succ hk, hsame, Bus.writeWords_cons_iff.mpr ⟨_, hwrite, hwords⟩⟩

theorem loadAll_error {list : List Reg} (hlist : list.Nodup)
    (h : loadAll addr list m = .error t m') :
    ∃ k < list.length, m'.bus = m.bus ∧
      (.pc ∉ list.take k → m.regs.Loads m.bus addr (list.take k) m'.regs) := by
  induction list generalizing addr m with
  | nil => cases h
  | cons r rs ih =>
    obtain ⟨hr, hrs⟩ := List.nodup_cons.mp hlist
    rcases bind_error h with hload | ⟨value, m₁, hload, hrest⟩
    · cases Reads.eq_of_error (.load .word addr) hload
      exact ⟨0, Nat.succ_pos _, rfl, fun _ => .nil _ _ _⟩
    obtain ⟨rfl, hread⟩ := load_ok hload
    rcases bind_error hrest with hwrite | ⟨_, m₂, hwrite, hothers⟩
    · cases hwrite
    cases hwrite
    obtain ⟨k, hk, hbus, hloads⟩ := ih hrs hothers
    refine ⟨k + 1, Nat.succ_lt_succ hk, hbus, ?_⟩
    intro hpc
    rw [List.take_succ_cons, List.mem_cons, not_or] at hpc
    have hloads := hloads hpc.2
    rw [if_neg (Ne.symm hpc.1)] at hloads
    exact .cons (fun hmem => hr (List.mem_of_mem_take hmem)) hread hloads

end Exec

theorem listed_ascending (mask : BitVec 8) :
    (listed mask).Pairwise fun r s => r.number < s.number := by
  unfold listed
  rw [List.pairwise_map]
  exact (List.pairwise_lt_finRange 8).filter _

theorem isLow_of_mem_listed {mask : BitVec 8} {r : Reg} (h : r ∈ listed mask) :
    r.isLow = true := by
  obtain ⟨n, _, rfl⟩ := List.mem_map.mp h
  exact decide_eq_true n.isLt

namespace Instr

/-- The registers that an instruction moves to or from consecutive words, if it moves several. -/
def transferred : Instr → List Reg
  | .push withLr list => listed list ++ if withLr then [.lr] else []
  | .pop toPc list => listed list ++ if toPc then [.pc] else []
  | .storeMultiple _ list | .loadMultiple _ list => listed list
  | _ => []

/-- The address of the first of the words. -/
def transferBase (i : Instr) (b : Bank) : Word :=
  match i with
  | .push .. => b.sp - BitVec.ofNat 32 (4 * i.transferred.length)
  | .pop .. => b.sp
  | .storeMultiple n _ | .loadMultiple n _ => b.read (.low n)
  | _ => 0

theorem transferred_cases (i : Instr) :
    ∃ mask, i.transferred = listed mask ∨
      ∃ r : Reg, r.isLow = false ∧ i.transferred = listed mask ++ [r] := by
  cases i with
  | push withLr list =>
    cases withLr with
    | true => exact ⟨list, .inr ⟨.lr, rfl, rfl⟩⟩
    | false => exact ⟨list, .inl (List.append_nil _)⟩
  | pop toPc list =>
    cases toPc with
    | true => exact ⟨list, .inr ⟨.pc, rfl, rfl⟩⟩
    | false => exact ⟨list, .inl (List.append_nil _)⟩
  | storeMultiple n list => exact ⟨list, .inl rfl⟩
  | loadMultiple n list => exact ⟨list, .inl rfl⟩
  | _ => exact ⟨0, .inl rfl⟩

theorem transferred_ascending (i : Instr) :
    i.transferred.Pairwise fun r s => r.number < s.number := by
  obtain ⟨mask, h | ⟨last, hlast, h⟩⟩ := i.transferred_cases
  · rw [h]
    exact listed_ascending mask
  · rw [h, List.pairwise_append]
    refine ⟨listed_ascending mask, List.pairwise_singleton _ _, ?_⟩
    intro r hr s hs
    cases List.mem_singleton.mp hs
    have hlow := of_decide_eq_true (isLow_of_mem_listed hr)
    have hhigh := of_decide_eq_false hlast
    exact Nat.lt_of_lt_of_le hlow (Nat.le_of_not_lt hhigh)

theorem nodup_transferred (i : Instr) : i.transferred.Nodup := by
  refine i.transferred_ascending.imp ?_
  rintro r s hlt rfl
  exact lt_irrefl _ hlt

theorem isLow_of_mem_take {i : Instr} {k : Nat} (hk : k < i.transferred.length) {r : Reg}
    (hr : r ∈ i.transferred.take k) : r.isLow = true := by
  obtain ⟨mask, h | ⟨last, _, h⟩⟩ := i.transferred_cases
  · rw [h] at hr
    exact isLow_of_mem_listed (List.mem_of_mem_take hr)
  · rw [h, List.length_append, List.length_singleton] at hk
    rw [h, List.take_append_of_le_length (Nat.le_of_lt_succ hk)] at hr
    exact isLow_of_mem_listed (List.mem_of_mem_take hr)

/-- What an instruction that ends in a trap has done: nothing, or part of its transfers. -/
inductive Interrupted (i : Instr) (m : Machine Memory) : Machine Memory → Prop
  | single (hstore : i.form ∉ [.push, .storeMultiple]) (hload : i.form ∉ [.pop, .loadMultiple]) :
      Interrupted i m m
  | storing {bus : Memory} (k : Nat) (hform : i.form ∈ [.push, .storeMultiple])
      (hk : k < i.transferred.length)
      (h : Bus.writeWords (i.transferBase m.regs) ((i.transferred.take k).map m.regs.read)
        m.bus = .ok () bus) :
      Interrupted i m ⟨m.regs, bus⟩
  | loading {regs : Bank} (k : Nat) (hform : i.form ∈ [.pop, .loadMultiple])
      (hk : k < i.transferred.length)
      (h : m.regs.Loads m.bus (i.transferBase m.regs) (i.transferred.take k) regs) :
      Interrupted i m ⟨regs, m.bus⟩

theorem store_ne_load {f : Form} (h : f ∈ [.push, .storeMultiple]) :
    f ∉ [.pop, .loadMultiple] := by
  revert f
  decide

variable {i : Instr} {t : Trap} {m m' : Machine Memory}

theorem interrupted_of_storeAll (hform : i.form ∈ [.push, .storeMultiple])
    (h : Exec.storeAll (i.transferBase m.regs) i.transferred m = .error t m') :
    i.Interrupted m m' := by
  obtain ⟨regs, bus⟩ := m'
  obtain ⟨k, hk, rfl, hwords⟩ := Exec.storeAll_error h
  exact .storing k hform hk hwords

theorem interrupted_of_loadAll (hform : i.form ∈ [.pop, .loadMultiple])
    (h : Exec.loadAll (i.transferBase m.regs) i.transferred m = .error t m') :
    i.Interrupted m m' := by
  obtain ⟨regs, bus⟩ := m'
  obtain ⟨k, hk, rfl, hloads⟩ := Exec.loadAll_error i.nodup_transferred h
  refine .loading k hform hk (hloads ?_)
  -- The program counter can only be last, and the last register is not loaded.
  intro hpc
  cases isLow_of_mem_take hk hpc

theorem interrupted_of_transfer {address : Bank → Word} {k : Transfer} {r : Fin 8}
    (hstore : i.form ∉ [.push, .storeMultiple]) (hload : i.form ∉ [.pop, .loadMultiple])
    (h : (Exec.regs >>= fun b => Exec.transfer k (address b) r) m = .error t m') :
    i.Interrupted m m' := by
  cases Exec.transfer_atomic _ _ _ _ _ _ h
  exact .single hstore hload

theorem interrupted_of_exec (h : i.exec m = .error t m') : i.Interrupted m m' := by
  cases i with
  | transferSp load r words => exact interrupted_of_transfer (by simp [form]) (by simp [form]) h
  | transferImm load width units n r =>
    exact interrupted_of_transfer (by simp [form]) (by simp [form]) h
  | transferReg op a n r => exact interrupted_of_transfer (by simp [form]) (by simp [form]) h
  | loadLiteral r words => exact interrupted_of_transfer (by simp [form]) (by simp [form]) h
  | push withLr list =>
    apply interrupted_of_storeAll (by simp [form])
    exact Exec.error_of_bind h fun _ _ => nofun
  | pop toPc list =>
    apply interrupted_of_loadAll (by simp [form])
    exact Exec.error_of_bind h fun _ _ => nofun
  | storeMultiple n list =>
    apply interrupted_of_storeAll (by simp [form])
    exact Exec.error_of_bind h fun _ _ => nofun
  | loadMultiple n list =>
    apply interrupted_of_loadAll (by simp [form])
    refine Exec.error_of_bind h ?_
    intro _ m₁ hnext
    dsimp only at hnext
    split at hnext
    · cases hnext
    · cases hnext
  | _ => cases h

namespace Interrupted

theorem flags (h : i.Interrupted m m') : m'.regs.flags = m.regs.flags := by
  cases h with
  | single => rfl
  | storing => rfl
  | loading k hform hk hloads => exact hloads.flags

theorem read_of_not_low (h : i.Interrupted m m') {r : Reg} (hr : r.isLow = false) :
    m'.regs.read r = m.regs.read r := by
  cases h with
  | single => rfl
  | storing => rfl
  | loading k hform hk hloads =>
    refine hloads.other fun hmem => ?_
    rw [isLow_of_mem_take hk hmem] at hr
    cases hr

theorem bus_eq (h : i.Interrupted m m') (hform : i.form ∉ [.push, .storeMultiple]) :
    m'.bus = m.bus := by
  cases h with
  | single => rfl
  | storing k hstore => exact absurd hstore hform
  | loading => rfl

theorem regs_eq (h : i.Interrupted m m') (hform : i.form ∉ [.pop, .loadMultiple]) :
    m'.regs = m.regs := by
  cases h with
  | single => rfl
  | storing => rfl
  | loading k hload => exact absurd hload hform

theorem stored (h : i.Interrupted m m') (hform : i.form ∈ [.push, .storeMultiple]) :
    ∃ k < i.transferred.length,
      Bus.writeWords (i.transferBase m.regs) ((i.transferred.take k).map m.regs.read) m.bus =
        .ok () m'.bus := by
  cases h with
  | single hstore => exact absurd hform hstore
  | storing k _ hk hwords => exact ⟨k, hk, hwords⟩
  | loading k hload => exact absurd hload (store_ne_load hform)

theorem loaded (h : i.Interrupted m m') (hform : i.form ∈ [.pop, .loadMultiple]) :
    ∃ k < i.transferred.length,
      m.regs.Loads m.bus (i.transferBase m.regs) (i.transferred.take k) m'.regs := by
  cases h with
  | single _ hload => exact absurd hform hload
  | storing k hstore => exact absurd hform (store_ne_load hstore)
  | loading k _ hk hloads => exact ⟨k, hk, hloads⟩

end Interrupted

end Instr

namespace Board

def fetched? (b : Board) : Option Instr :=
  match Exec.fetch b.cpu.regs.pc ⟨b.cpu.regs, b.memory⟩ with
  | .ok d _ => some (d.form.decode d.opcode)
  | .error _ _ => none

theorem interrupted_of_step {b b' : Board} {t : Trap}
    (h : Exec.step ⟨b.cpu.regs, b.memory⟩ = .error t ⟨b'.cpu.regs, b'.memory⟩) :
    (b.fetched? = none ∧ b'.cpu.regs = b.cpu.regs ∧ b'.memory = b.memory) ∨
      ∃ i, b.fetched? = some i ∧
        i.Interrupted ⟨b.cpu.regs.beginCycle, b.memory⟩ ⟨b'.cpu.regs, b'.memory⟩ := by
  unfold fetched?
  rcases Exec.bind_error h with hregs | ⟨_, m, hregs, h⟩
  · cases hregs
  cases hregs
  rcases Exec.bind_error h with hfetch | ⟨d, m, hfetch, h⟩
  · have hm := Exec.Reads.eq_of_error (.fetch _) hfetch
    rw [Machine.mk.injEq] at hm
    rw [hfetch]
    exact .inl ⟨rfl, hm⟩
  · cases Exec.Reads.eq_of_ok (.fetch _) hfetch
    rw [hfetch]
    refine .inr ⟨_, rfl, ?_⟩
    rcases Exec.bind_error h with hbegin | ⟨_, m, hbegin, h⟩
    · cases hbegin
    cases hbegin
    exact Instr.interrupted_of_exec (Exec.error_of_bind h fun _ _ => nofun)

/-- A step that ends in a trap has changed no flag, no count of cycles and no register that is not
low. It has changed memory only if it is a store of several registers, and low registers only if it
is a load of several, and then exactly by moving some of them, not all, in ascending order. -/
theorem step_trap_restartable (b b' : Board) (t : Trap) (h : b.step = .error t b') :
    b'.cpu.cycles = b.cpu.cycles ∧ b'.cpu.regs.flags = b.cpu.regs.flags ∧
    (∀ r : Reg, r.isLow = false → b'.cpu.regs.read r = b.cpu.regs.read r) ∧
    ((∀ i, b.fetched? = some i → i.form ∉ [.push, .storeMultiple]) → b'.memory = b.memory) ∧
    ((∀ i, b.fetched? = some i → i.form ∉ [.pop, .loadMultiple]) →
      ∀ r, b'.cpu.regs.read r = b.cpu.regs.read r) ∧
    ∀ i, b.fetched? = some i →
      i.transferred.Pairwise (fun r s => r.number < s.number) ∧
      (i.form ∈ [.push, .storeMultiple] → ∃ k < i.transferred.length,
        Bus.writeWords (i.transferBase b.cpu.regs)
          ((i.transferred.take k).map b.cpu.regs.read) b.memory = .ok () b'.memory) ∧
      (i.form ∈ [.pop, .loadMultiple] → ∃ k < i.transferred.length,
        b.cpu.regs.Loads b.memory (i.transferBase b.cpu.regs) (i.transferred.take k)
          b'.cpu.regs) := by
  obtain ⟨hcycles, hstep⟩ := step_error h
  refine ⟨hcycles, ?_⟩
  rcases interrupted_of_step hstep with ⟨hnone, hregs, hmemory⟩ | ⟨i, hsome, hi⟩
  · rw [hregs, hnone]
    exact ⟨rfl, fun _ _ => rfl, fun _ => hmemory, fun _ _ => rfl, nofun⟩
  · have hbase : i.transferBase b.cpu.regs.beginCycle = i.transferBase b.cpu.regs := by
      cases i <;> rfl
    refine ⟨hi.flags, fun r hr => hi.read_of_not_low hr, fun hform => hi.bus_eq (hform i hsome),
      fun hform r => congrArg (·.read r) (hi.regs_eq (hform i hsome)), ?_⟩
    intro j hj
    cases hsome.symm.trans hj
    refine ⟨i.transferred_ascending, ?_, ?_⟩
    · intro hform
      have hstored := hi.stored hform
      rw [hbase] at hstored
      exact hstored
    · intro hform
      obtain ⟨k, hk, hloads⟩ := hi.loaded hform
      rw [hbase] at hloads
      exact ⟨k, hk, hloads.word, hloads.other, hloads.flags⟩

/-- The second word lies past the end of RAM. -/
theorem step_trap_restartable_store :
    let cpu : Processor := .ofConfig { entry := 0x08000000 }
    let b : Board := {
      cpu := { cpu with regs := cpu.regs.write (.low 0) 0x20000004 }
      memory := ⟨[
        { base := 0x08000000, size := 2, readOnly := true,
          written := Region.overwrite ∅ 0 [0x06, 0xC0] },
        .zeros 0x20000000 8 false]⟩ }
    ∃ t b', b.step = .error t b' ∧ b'.cpu.regs.read .pc = b.cpu.regs.read .pc ∧
      ∃ k < 2, Bus.writeWords 0x20000004
        (([.low 1, .low 2].take k).map b.cpu.regs.read) b.memory = .ok () b'.memory := by
  intro cpu b
  have hstep : (match b.step with
      | .ok _ _ => false
      | .error _ _ => true) = true := by
    decide +kernel
  have hfetched : b.fetched? = some (.storeMultiple 0 6) := by decide +kernel
  split at hstep
  case h_1 => cases hstep
  case h_2 t b' h =>
    obtain ⟨_, _, hhigh, _, _, hmany⟩ := step_trap_restartable b b' t h
    obtain ⟨_, hstored, _⟩ := hmany _ hfetched
    exact ⟨t, b', h, hhigh .pc rfl, hstored (by decide)⟩

end Board

end Thumb
