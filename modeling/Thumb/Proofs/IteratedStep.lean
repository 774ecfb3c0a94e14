import Thumb.Proofs.BoardCalls
import Thumb.Proofs.EndOfCode
import Thumb.Proofs.Interruption

namespace Thumb

inductive Trap.IsAccess : Trap → Prop
  | unaligned (addr : Word) : IsAccess (.unaligned addr)
  | bus (addr : Word) (cause : BusError) : IsAccess (.bus addr cause)

namespace Exec

/-- An action that only an access to memory can end. -/
def Accesses {α : Type} (x : Exec Memory α) : Prop :=
  ∀ m m' t, x m = .error t m' → t.IsAccess

namespace Accesses

variable {α β : Type} {x : Exec Memory α} {next : α → Exec Memory β}

theorem bind (hx : Accesses x) (hnext : ∀ a, Accesses (next a)) : Accesses (x >>= next) := by
  intro m m' t h
  rcases bind_error h with h | ⟨a, m₁, _, h⟩
  · exact hx m m' t h
  · exact hnext a m₁ m' t h

theorem ite {c : Prop} [Decidable c] {x y : Exec Memory α} (hx : Accesses x) (hy : Accesses y) :
    Accesses (if c then x else y) := by
  split
  · exact hx
  · exact hy

theorem pure (a : α) : Accesses (pure a) := by
  intro m m' t h
  cases h

theorem regs : Accesses Exec.regs := by
  intro m m' t h
  cases h

theorem onRegs (f : Bank → Bank) : Accesses (Exec.onRegs f) := by
  intro m m' t h
  cases h

theorem onBus (addr : Word) (x : EStateM BusError Memory α) : Accesses (Exec.onBus addr x) := by
  rintro ⟨regs, bus⟩ m' t h
  dsimp only [Exec.onBus] at h
  split at h
  · cases h
  · cases h
    exact .bus addr _

theorem checkAligned (w : Width) (addr : Word) : Accesses (Exec.checkAligned w addr) := by
  refine ite (pure ()) ?_
  intro m m' t h
  cases h
  exact .unaligned addr

theorem load (w : Width) (addr : Word) : Accesses (Exec.load w addr) :=
  (checkAligned w addr).bind fun _ => (onBus addr _).bind fun _ => pure _

theorem store (w : Width) (addr value : Word) : Accesses (Exec.store w addr value) :=
  (checkAligned w addr).bind fun _ => onBus addr _

theorem storeAll (addr : Word) (list : List Reg) : Accesses (Exec.storeAll addr list) := by
  induction list generalizing addr with
  | nil => exact pure ()
  | cons r rs ih =>
    exact regs.bind fun b => (store .word addr (b.read r)).bind fun _ => ih (addr + 4)

theorem loadAll (addr : Word) (list : List Reg) : Accesses (Exec.loadAll addr list) := by
  induction list generalizing addr with
  | nil => exact pure ()
  | cons r rs ih => exact (load .word addr).bind fun _ => (onRegs _).bind fun _ => ih (addr + 4)

theorem transfer (k : Transfer) (addr : Word) (t : Fin 8) : Accesses (Exec.transfer k addr t) :=
  ite ((load k.width addr).bind fun _ => onRegs _)
    (regs.bind fun _ => store k.width addr _)

theorem multiple (load : Bool) (n : Fin 8) (mask : BitVec 8) :
    Accesses (Exec.multiple load n mask) := by
  refine regs.bind fun b => ?_
  cases load with
  | true => exact (loadAll _ _).bind fun _ => ite (onRegs _) (pure _)
  | false => exact (storeAll _ _).bind fun _ => ite (onRegs _) (pure _)

theorem exec (i : Instr) : Accesses (i.exec : Exec Memory Unit) := by
  cases i with
  | transferSp => exact regs.bind fun _ => transfer _ _ _
  | transferImm => exact regs.bind fun _ => transfer _ _ _
  | transferReg => exact regs.bind fun _ => transfer _ _ _
  | loadLiteral => exact regs.bind fun _ => transfer _ _ _
  | push => exact regs.bind fun _ => (storeAll _ _).bind fun _ => onRegs _
  | pop => exact regs.bind fun b => (loadAll b.sp _).bind fun _ => onRegs _
  | storeMultiple => exact multiple _ _ _
  | loadMultiple => exact multiple _ _ _
  | _ => exact onRegs _

end Accesses

/-- Only the fetch of the end marker gives the trap for it. -/
theorem fetch_of_step {m m' : Machine Memory} {pc : Word} (h : step m = .error (.endOfCode pc) m') :
    m' = m ∧ fetch m.regs.pc m = .error (.endOfCode pc) m := by
  rcases bind_error h with hregs | ⟨_, m₁, hregs, h⟩
  · cases hregs
  cases hregs
  rcases bind_error h with hfetch | ⟨d, m₁, _, h⟩
  · cases Reads.eq_of_error (.fetch _) hfetch
    exact ⟨rfl, hfetch⟩
  · have haccess := (Accesses.onRegs _).bind
      (fun _ => (Accesses.exec _).bind fun _ => Accesses.onRegs _) _ _ _ h
    cases haccess

theorem marker_of_fetch {m m' : Machine Memory} {addr pc : Word}
    (h : fetch addr m = .error (.endOfCode pc) m') :
    addr = pc ∧ Memory.read .halfword addr m.bus = .ok AddressMap.endOfCode m.bus := by
  rcases bind_error h with hread | ⟨first, m₁, hread, h⟩
  · cases Accesses.onBus _ _ _ _ _ hread
  cases Reads.eq_of_ok (.onBus (Reads.bus_read .halfword addr) addr) hread
  split at h
  case isTrue hfirst =>
    cases h
    rw [← hfirst]
    exact ⟨rfl, (onBus_ok hread).2⟩
  case isFalse =>
    rcases bind_error h with hsecond | ⟨second, m₂, _, h⟩
    · obtain ⟨v, hv⟩ := exists_attempt_read (addr + 2) m
      cases hsecond.symm.trans hv
    · cases hdecode : decode? first second with
      | some d =>
        rw [hdecode] at h
        cases h
      | none =>
        rw [hdecode] at h
        cases h

end Exec

namespace Board

def steps : Nat → EStateM Trap Board Unit
  | 0 => pure ()
  | n + 1 => do
    step
    steps n

/-- How many of up to so many steps are done before a trap. -/
def stepsDone : Nat → Board → Nat
  | 0, _ => 0
  | n + 1, b =>
    match step b with
    | .ok () b => stepsDone n b + 1
    | .error _ _ => 0

/-- What a run answers after its steps. -/
def stopOf : EStateM.Result Trap Board Unit → EStateM.Result Trap Board Stop
  | .ok () b => .ok .stepLimit b.start.halt
  | .error (.endOfCode pc) b => .ok (.endOfCode pc) b.start.halt
  | .error t b => .error t b.start.halt

theorem steps_of_ok {b b' : Board} (h : b.step = .ok () b') (n : Nat) :
    steps (n + 1) b = steps n b' := by
  simp only [steps, bind, EStateM.bind, h]

theorem steps_of_error {b b' : Board} {t : Trap} (h : b.step = .error t b') (n : Nat) :
    steps (n + 1) b = .error t b' := by
  simp only [steps, bind, EStateM.bind, h]

/-- Whether the processor runs makes no difference to a step. -/
theorem step_start (b : Board) :
    (∃ b', b.step = .ok () b' ∧ b.start.step = .ok () b'.start) ∨
      ∃ t b', b.step = .error t b' ∧ b.start.step = .error t b'.start := by
  obtain ⟨cpu, memory, image⟩ := b
  dsimp only [step, start, Processor.start]
  cases Exec.step ⟨cpu.regs, memory⟩ with
  | ok u m => exact .inl ⟨_, rfl, rfl⟩
  | error t m => exact .inr ⟨t, _, rfl, rfl⟩

theorem cycle_start (b : Board) : b.start.cycle =
    match b.start.step with
    | .ok () b' => .ok true b'
    | .error t b' => .error t b'.halt :=
  if_neg (not_not.mpr rfl)

theorem run_eq (limit : Nat) (b : Board) : run limit b = stopOf (steps limit b) := by
  show cycles limit b.start = _
  induction limit generalizing b with
  | zero => rfl
  | succ limit ih =>
    unfold cycles
    rw [cycle_start]
    rcases b.step_start with ⟨b', hstep, hstart⟩ | ⟨t, b', hstep, hstart⟩
    · rw [hstart, steps_of_ok hstep]
      exact ih b'
    · rw [hstart, steps_of_error hstep]
      cases t <;> rfl

theorem steps_add {n : Nat} {b b' : Board} (h : steps n b = .ok () b') (m : Nat) :
    steps (n + m) b = steps m b' := by
  induction n generalizing b with
  | zero =>
    cases h
    rw [Nat.zero_add]
  | succ n ih =>
    rw [Nat.succ_add]
    cases hstep : b.step with
    | ok u b₁ =>
      rw [steps_of_ok hstep] at h ⊢
      exact ih h
    | error t b₁ =>
      rw [steps_of_error hstep] at h
      cases h

theorem exists_step_of_steps {n : Nat} {b b' : Board} {t : Trap} (h : steps n b = .error t b') :
    ∃ b₀ : Board, b₀.step = .error t b' := by
  induction n generalizing b with
  | zero => cases h
  | succ n ih =>
    cases hstep : b.step with
    | ok u b₁ =>
      rw [steps_of_ok hstep] at h
      exact ih h
    | error t' b₁ =>
      rw [steps_of_error hstep] at h
      cases h
      exact ⟨b, hstep⟩

/-- The trap for the end marker comes where the marker is, and has no other effect. -/
theorem step_endOfCode_iff {b b' : Board} {pc : Word} :
    b.step = .error (.endOfCode pc) b' ↔ b' = b ∧ b.cpu.regs.pc = pc ∧
      Memory.read .halfword pc b.memory = .ok AddressMap.endOfCode b.memory := by
  constructor
  · intro h
    obtain ⟨_, hfetch⟩ := Exec.fetch_of_step (step_error h).2
    obtain ⟨rfl, hread⟩ := Exec.marker_of_fetch hfetch
    cases h.symm.trans (step_of_fetch_error hfetch)
    exact ⟨rfl, rfl, hread⟩
  · rintro ⟨rfl, rfl, hread⟩
    have hmarker : Memory.read .halfword b'.cpu.regs.pc b'.memory =
        .ok (unusedOpcode 0xFF) b'.memory := hread
    exact step_of_fetch_error (Exec.fetch_unusedOpcode hmarker _)

theorem cycles_of_step {b b' : Board} (h : b.step = .ok () b') :
    b'.cpu.cycles = b.cpu.cycles + 1 := by
  obtain ⟨cpu, memory, image⟩ := b
  dsimp only [step] at h
  split at h
  · cases h
    rfl
  · cases h

theorem cycles_steps (n : Nat) (b : Board) :
    (endState (steps n b)).cpu.cycles.val = (b.cpu.cycles.val + stepsDone n b) % 2 ^ 64 := by
  induction n generalizing b with
  | zero => exact (Nat.mod_eq_of_lt b.cpu.cycles.isLt).symm
  | succ n ih =>
    unfold stepsDone
    cases hstep : b.step with
    | ok u b' =>
      have hcount : b'.cpu.cycles.val = (b.cpu.cycles.val + 1) % 2 ^ 64 :=
        congrArg Fin.val (cycles_of_step hstep)
      rw [steps_of_ok hstep, ih, hcount, Nat.mod_add_mod, Nat.add_right_comm]
      rfl
    | error t b' =>
      rw [steps_of_error hstep]
      exact (congrArg Fin.val (step_error hstep).1).trans
        (Nat.mod_eq_of_lt b.cpu.cycles.isLt).symm

theorem endState_stopOf (r : EStateM.Result Trap Board Unit) :
    endState (stopOf r) = (endState r).start.halt := by
  unfold stopOf
  split <;> rfl

section Answers

variable {limit : Nat} {b b' : Board}

theorem run_stepLimit_iff :
    run limit b = .ok .stepLimit b' ↔ ∃ b₁, steps limit b = .ok () b₁ ∧ b₁.start.halt = b' := by
  rw [run_eq]
  rcases steps limit b with ⟨u, b₁⟩ | ⟨t, b₁⟩
  · simp [stopOf]
  · cases t <;> simp [stopOf]

theorem run_endOfCode_iff {pc : Word} :
    run limit b = .ok (.endOfCode pc) b' ↔
      ∃ b₁, steps limit b = .error (.endOfCode pc) b₁ ∧ b₁.start.halt = b' := by
  rw [run_eq]
  rcases steps limit b with ⟨u, b₁⟩ | ⟨t, b₁⟩
  · simp [stopOf]
  · cases t <;> simp [stopOf, and_assoc]

theorem run_error_iff {t : Trap} :
    run limit b = .error t b' ↔
      (∃ b₁, steps limit b = .error t b₁ ∧ b₁.start.halt = b') ∧ ∀ pc, t ≠ .endOfCode pc := by
  rw [run_eq]
  rcases steps limit b with ⟨u, b₁⟩ | ⟨t', b₁⟩
  · simp [stopOf]
  · cases t' <;> cases t <;> simp [stopOf, and_assoc]

end Answers

theorem run_add {n : Nat} {b b' : Board} (h : run n b = .ok .stepLimit b') (m : Nat) :
    run (n + m) b = run m b' := by
  obtain ⟨b₁, hsteps, rfl⟩ := run_stepLimit_iff.mp h
  rw [run_eq, steps_add hsteps, ← run_eq]
  rfl

theorem run_of_endOfCode {n : Nat} {b b' : Board} {pc : Word}
    (h : run n b = .ok (.endOfCode pc) b') :
    b'.cpu.regs.pc = pc ∧
      Memory.read .halfword pc b'.memory = .ok AddressMap.endOfCode b'.memory ∧
      ∀ limit, run (limit + 1) b' = .ok (.endOfCode pc) b' := by
  obtain ⟨b₁, hsteps, rfl⟩ := run_endOfCode_iff.mp h
  obtain ⟨b₀, hstep⟩ := exists_step_of_steps hsteps
  obtain ⟨rfl, hpc, hread⟩ := step_endOfCode_iff.mp hstep
  refine ⟨hpc, hread, ?_⟩
  intro limit
  have hagain : run (limit + 1) b₁ = .ok (.endOfCode pc) b₁.start.halt := by
    rw [run_eq, steps_of_error hstep]
    rfl
  exact hagain

/-- A run that does what up to so many steps do. -/
structure Iterates (b : Board) (limit : Nat) : Prop where
  /-- Registers and flags. -/
  regs : (endState (run limit b)).cpu.regs = (endState (steps limit b)).cpu.regs
  memory : (endState (run limit b)).memory = (endState (steps limit b)).memory
  cycles : (endState (run limit b)).cpu.cycles = (endState (steps limit b)).cpu.cycles
  /-- The count is of 64 bits. -/
  counted : (endState (run limit b)).cpu.cycles.val =
    (b.cpu.cycles.val + stepsDone limit b) % 2 ^ 64
  stepLimit : (∃ b', run limit b = .ok .stepLimit b') ↔ ∃ b', steps limit b = .ok () b'
  endOfCode (pc : Word) : (∃ b', run limit b = .ok (.endOfCode pc) b') ↔
    ∃ b', steps limit b = .error (.endOfCode pc) b'
  trap (t : Trap) : (∃ b', run limit b = .error t b') ↔
    (∃ b', steps limit b = .error t b') ∧ ∀ pc, t ≠ .endOfCode pc

theorem iterates (b : Board) (limit : Nat) : b.Iterates limit := by
  have hend : endState (run limit b) = (endState (steps limit b)).start.halt := by
    rw [run_eq, endState_stopOf]
  constructor
  case regs =>
    rw [hend]
    rfl
  case memory =>
    rw [hend]
    rfl
  case cycles =>
    rw [hend]
    rfl
  case counted =>
    rw [hend, ← cycles_steps]
    rfl
  case stepLimit => simp [run_stepLimit_iff]
  case endOfCode =>
    intro pc
    simp [run_endOfCode_iff]
  case trap =>
    intro t
    simp [run_error_iff]

/-- For every board and all limits, a run is iterated steps, budgets add up, and where the end
marker was fetched nothing more happens. -/
theorem run_iterates_step (b : Board) (n m : Nat) :
    b.Iterates n ∧
    (∀ b', run n b = .ok .stepLimit b' → run (n + m) b = run m b') ∧
    ∀ pc b', run n b = .ok (.endOfCode pc) b' →
      b'.cpu.regs.pc = pc ∧
      Memory.read .halfword pc b'.memory = .ok AddressMap.endOfCode b'.memory ∧
      ∀ limit, 1 ≤ limit → run limit b' = .ok (.endOfCode pc) b' := by
  refine ⟨b.iterates n, fun b' h => run_add h m, ?_⟩
  intro pc b' h
  obtain ⟨hpc, hread, hagain⟩ := run_of_endOfCode h
  refine ⟨hpc, hread, ?_⟩
  intro limit hlimit
  obtain ⟨rest, rfl⟩ := Nat.exists_eq_add_of_le' hlimit
  exact hagain rest

/-- An instruction and the end marker, with the limit spent in two runs. After the last number of
its count the processor counts from zero. -/
theorem run_iterates_step_resumed :
    let b : Board := {
      cpu := .ofConfig { entry := 0x08000000 }
      memory := ⟨[{
        base := 0x08000000, size := 4, readOnly := true,
        written := Region.overwrite ∅ 0 [0x01, 0x20, 0xFF, 0xFF] }]⟩ }
    ∃ b₁ b₂ : Board, run 1 b = .ok .stepLimit b₁ ∧ run (1 + 5) b = run 5 b₁ ∧
      run 5 b₁ = .ok (.endOfCode 0x08000002) b₂ ∧ b₂.cpu.cycles = 1 ∧
      run 7 b₂ = .ok (.endOfCode 0x08000002) b₂ ∧
      (endState (run 1 { b with cpu.cycles := 0xFFFFFFFFFFFFFFFF })).cpu.cycles = 0 := by
  intro b
  have hfirst : (match run 1 b with
      | .ok .stepLimit _ => true
      | _ => false) = true := by decide
  have hwhole : (match run 6 b with
      | .ok (.endOfCode pc) b₂ => pc == 0x08000002 && b₂.cpu.cycles == 1
      | _ => false) = true := by decide
  split at hfirst
  case h_2 => cases hfirst
  case h_1 b₁ h₁ =>
    split at hwhole
    case h_2 => cases hwhole
    case h_1 pc b₂ h₂ =>
      rw [Bool.and_eq_true, beq_iff_eq, beq_iff_eq] at hwhole
      obtain ⟨rfl, hcycles⟩ := hwhole
      obtain ⟨_, hadd, _⟩ := run_iterates_step b 1 5
      obtain ⟨_, _, hend⟩ := run_iterates_step b 6 0
      obtain ⟨_, _, hagain⟩ := hend _ b₂ h₂
      obtain ⟨hlast, _, _⟩ := run_iterates_step { b with cpu.cycles := 0xFFFFFFFFFFFFFFFF } 1 0
      have hdone : stepsDone 1 { b with cpu.cycles := 0xFFFFFFFFFFFFFFFF } = 1 := by decide
      have hlimit : ((0xFFFFFFFFFFFFFFFF : Fin 0x10000000000000000).val + 1) % 2 ^ 64 = 0 := by
        decide
      refine ⟨b₁, b₂, h₁, hadd b₁ h₁, (hadd b₁ h₁).symm.trans h₂, hcycles, hagain 7 (by decide), ?_⟩
      refine Fin.ext ?_
      rw [hlast.counted, hdone]
      exact hlimit

end Board

end Thumb
