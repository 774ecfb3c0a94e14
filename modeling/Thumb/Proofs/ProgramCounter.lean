import Thumb.Proofs.BoardCalls
import Thumb.Proofs.OperandText

namespace Thumb

theorem Word.two_dvd_and_not_one (w : Word) : 2 ∣ (w &&& ~~~1).toNat := by
  have hbit : (w &&& ~~~1).getLsbD 0 = false := by
    rw [BitVec.getLsbD_and, BitVec.getLsbD_not]
    exact Bool.and_false _
  rw [BitVec.getLsbD, Nat.testBit_zero, decide_eq_false_iff_not] at hbit
  omega

theorem Word.two_dvd_add {a b : Word} (ha : 2 ∣ a.toNat) (hb : 2 ∣ b.toNat) :
    2 ∣ (a + b).toNat := by
  rw [BitVec.toNat_add]
  omega

namespace Bank

def PcEven (b : Bank) : Prop :=
  2 ∣ b.pc.toNat

namespace PcEven

variable {b : Bank}

theorem write (hb : b.PcEven) {r : Reg} {value : Word} (hvalue : r = .pc → 2 ∣ value.toNat) :
    (b.write r value).PcEven := by
  by_cases hr : r = .pc
  · subst hr
    rw [PcEven, pc, read_write_self]
    exact hvalue rfl
  · rw [PcEven, pc, read_write_of_ne b (Ne.symm hr)]
    exact hb

theorem write_low (hb : b.PcEven) (d : Fin 8) (value : Word) : (b.write (.low d) value).PcEven := by
  apply hb.write
  intro h
  exact absurd h (Reg.low_ne_pc d)

theorem write_sp (hb : b.PcEven) (value : Word) : (b.write .sp value).PcEven := by
  apply hb.write
  intro h
  cases h

theorem write_lr (hb : b.PcEven) (value : Word) : (b.write .lr value).PcEven := by
  apply hb.write
  intro h
  cases h

theorem writeAny (hb : b.PcEven) (r : Reg) (value : Word) : (b.writeAny r value).PcEven := by
  apply hb.write
  intro hr
  rw [if_pos hr]
  exact value.two_dvd_and_not_one

theorem jump (hb : b.PcEven) {n : Nat} (halfwords : BitVec n) : (b.jump halfwords).PcEven := by
  apply hb.write
  intro _
  have hdouble : 2 ∣ (halfwords.signExtend 32 <<< 1).toNat := by
    rw [BitVec.toNat_shiftLeft, Nat.shiftLeft_eq]
    omega
  exact Word.two_dvd_add (Word.two_dvd_add hb (by decide)) hdouble

theorem jumpTo (hb : b.PcEven) (addr : Word) : (b.jumpTo addr).PcEven := by
  apply hb.write
  intro _
  exact addr.two_dvd_and_not_one

theorem beginCycle (hb : b.PcEven) : b.beginCycle.PcEven :=
  hb

theorem advance (hb : b.PcEven) {pc : Word} (hpc : 2 ∣ pc.toNat) (f : Form) :
    (b.write .pc (pc + BitVec.ofNat 32 f.size)).PcEven := by
  apply hb.write
  intro _
  apply Word.two_dvd_add hpc
  rw [BitVec.toNat_ofNat, Form.size]
  omega

end PcEven

end Bank

theorem Instr.effect_pcEven (i : Instr) {b : Bank} (hb : b.PcEven) : (i.effect b).PcEven := by
  cases i with
  | moveReg m d => exact hb.write_low d _
  | moveImm d imm => exact hb.write_low d _
  | moveHigh m d => exact hb.writeAny d _
  | unary op m d => exact hb.write_low d _
  | shiftImm op amount m d => exact hb.write_low d _
  | immThree op imm n d => exact hb.write_low d _
  | immEight op d imm => exact hb.write_low d _
  | regThree op m n d => exact hb.write_low d _
  | adjustSp op words =>
    cases op with
    | add => exact hb.write_sp _
    | sub => exact hb.write_sp _
  | addSp d words => exact hb.write_low d _
  | addHigh m d => exact hb.writeAny d _
  | adr d words => exact hb.write_low d _
  | data op m d =>
    have hresult (value : Option Word) (flags : Flags) :
        ((value.elim b (b.write (.low d))).setFlags flags).PcEven := by
      cases value with
      | none => exact hb
      | some v => exact hb.write_low d v
    exact hresult _ _
  | branch halfwords => exact hb.jump halfwords
  | branchLink halfwords => exact (hb.write_lr _).jump halfwords
  | exchange link m =>
    cases link with
    | false => exact hb.jumpTo _
    | true => exact (hb.write_lr _).jumpTo _
  | branchIf condition halfwords =>
    dsimp only [effect]
    split
    · exact hb.jump halfwords
    · exact hb
  | _ => exact hb

namespace Exec

def Steady (m m' : Machine Memory) : Prop :=
  m.regs.PcEven → m'.regs.PcEven

instance : Std.Refl Steady :=
  ⟨fun _ h => h⟩

instance : IsTrans (Machine Memory) Steady :=
  ⟨fun _ _ _ h h' => h' ∘ h⟩

namespace Steady

theorem onRegs {f : Bank → Bank} (hf : ∀ {b : Bank}, b.PcEven → (f b).PcEven) :
    Within Steady (Exec.onRegs f) :=
  ⟨fun _ => hf, nofun⟩

theorem store (w : Width) (addr value : Word) : Within Steady (Exec.store w addr value) :=
  (Within.checkAligned w addr).bind fun _ => .onBus (fun _ h => h) addr

theorem storeAll (addr : Word) (list : List Reg) : Within Steady (Exec.storeAll addr list) := by
  induction list generalizing addr with
  | nil => exact .pure ()
  | cons r rs ih =>
    apply Within.regs.bind
    intro b
    exact (store .word addr (b.read r)).bind fun _ => ih (addr + 4)

theorem loadAll (addr : Word) (list : List Reg) : Within Steady (Exec.loadAll addr list) := by
  induction list generalizing addr with
  | nil => exact .pure ()
  | cons r rs ih =>
    apply (Within.of_reads (.load .word addr)).bind
    intro value
    exact (onRegs (·.writeAny r value)).bind fun _ => ih (addr + 4)

theorem transfer (k : Transfer) (addr : Word) (t : Fin 8) :
    Within Steady (Exec.transfer k addr t) := by
  apply Within.ite
  · exact (Within.of_reads (.load k.width addr)).bind fun _ => onRegs (·.write_low t _)
  · exact Within.regs.bind fun _ => store k.width addr _

theorem multiple (load : Bool) (n : Fin 8) (mask : BitVec 8) :
    Within Steady (Exec.multiple load n mask) := by
  apply Within.regs.bind
  intro b
  cases load with
  | true => exact (loadAll _ _).bind fun _ => .ite (onRegs (·.write_low n _)) (.pure _)
  | false => exact (storeAll _ _).bind fun _ => .ite (onRegs (·.write_low n _)) (.pure _)

theorem push (list : List Reg) : Within Steady (Exec.push list) :=
  Within.regs.bind fun _ => (storeAll _ list).bind fun _ => onRegs (·.write_sp _)

theorem pop (list : List Reg) : Within Steady (Exec.pop list) :=
  Within.regs.bind fun b => (loadAll b.sp list).bind fun _ => onRegs (·.write_sp _)

theorem exec (i : Instr) : Within Steady i.exec := by
  cases i with
  | transferSp => exact .bind .regs fun _ => transfer _ _ _
  | transferImm => exact .bind .regs fun _ => transfer _ _ _
  | transferReg => exact .bind .regs fun _ => transfer _ _ _
  | loadLiteral => exact .bind .regs fun _ => transfer _ _ _
  | push => exact push _
  | pop => exact pop _
  | storeMultiple => exact multiple _ _ _
  | loadMultiple => exact multiple _ _ _
  | _ => exact onRegs (Instr.effect_pcEven _)

theorem advance {pc : Word} (hpc : 2 ∣ pc.toNat) (f : Form) :
    Within Steady (Exec.advance pc f.size) := by
  apply onRegs
  intro b hb
  split
  · exact hb
  · exact hb.advance hpc f

-- The counter that is advanced is the one at the start of the step, so that one has to be even, and
-- not only those in between.
theorem step {m : Machine Memory} (hm : m.regs.PcEven) : (endState (Exec.step m)).regs.PcEven := by
  have hstep : Within Steady (do
      let d ← Exec.fetch m.regs.pc
      Exec.onRegs Bank.beginCycle
      d.form.exec d.opcode
      Exec.advance m.regs.pc d.form.size) := by
    apply Within.bind (.of_reads (.fetch m.regs.pc))
    intro d
    apply Within.bind (onRegs Bank.PcEven.beginCycle)
    intro _
    exact .bind (exec _) fun _ => advance hm d.form
  exact hstep.state m hm

end Steady

end Exec

namespace Board

/-- A board whose program counter is even, now and after a reset. -/
structure PcEven (b : Board) : Prop where
  entry : 2 ∣ b.cpu.config.entry.toNat
  pc : b.cpu.regs.PcEven

namespace PcEven

variable {b : Board}

theorem ofRegs (hb : b.PcEven) {b' : Board} (hconfig : b'.cpu.config = b.cpu.config)
    (hregs : b'.cpu.regs.PcEven) : b'.PcEven := by
  refine ⟨?_, hregs⟩
  rw [hconfig]
  exact hb.entry

theorem halt (hb : b.PcEven) : b.halt.PcEven := by
  apply hb.ofRegs (Executed.halt b).config
  unfold Board.halt Processor.halt
  split
  · exact hb.pc
  · exact hb.pc

theorem step (hb : b.PcEven) : (endState b.step).PcEven := by
  apply hb.ofRegs b.step_executed.config
  obtain ⟨cpu, memory, image⟩ := b
  have hstep := Exec.Steady.step (m := ⟨cpu.regs, memory⟩) hb.pc
  dsimp only [Board.step]
  cases h : Exec.step ⟨cpu.regs, memory⟩ with
  | ok u m =>
    rw [h] at hstep
    exact hstep
  | error t m =>
    rw [h] at hstep
    exact hstep

theorem cycle (hb : b.PcEven) : (endState b.cycle).PcEven := by
  have hstep := hb.step
  unfold Board.cycle
  split
  · exact hb
  · cases h : b.step with
    | ok u b' =>
      rw [h] at hstep
      exact hstep
    | error t b' =>
      rw [h] at hstep
      exact hstep.halt

end PcEven

/-- The boards that so many cycles go through: the first one, and the one after each instruction. -/
def passed : Nat → Board → List Board
  | 0, b => [b]
  | limit + 1, b =>
    b :: match cycle b with
      | .ok _ b' => passed limit b'
      | .error _ b' => [b']

theorem endState_cycles (limit : Nat) (b : Board) :
    ∃ last ∈ passed limit b, endState (cycles limit b) = last.halt := by
  induction limit generalizing b with
  | zero => exact ⟨b, .head _, rfl⟩
  | succ limit ih =>
    unfold passed cycles
    cases h : b.cycle with
    | ok executed b' =>
      obtain ⟨last, hlast, hend⟩ := ih b'
      exact ⟨last, .tail _ hlast, hend⟩
    | error t b' =>
      have hhalted : b'.halt = b' := by
        unfold halt Processor.halt
        rw [if_neg (cycle_trap h).2]
      refine ⟨b', .tail _ (.head _), ?_⟩
      rw [hhalted]
      cases t <;> rfl

namespace PcEven

variable {b : Board}

theorem passed (hb : b.PcEven) (limit : Nat) : ∀ b' ∈ Board.passed limit b, b'.PcEven := by
  induction limit generalizing b with
  | zero =>
    intro b' hb'
    cases List.mem_singleton.mp hb'
    exact hb
  | succ limit ih =>
    have hcycle := hb.cycle
    intro b' hb'
    rcases List.mem_cons.mp hb' with rfl | hb'
    · exact hb
    · cases h : b.cycle with
      | ok executed b₁ =>
        rw [h] at hb' hcycle
        exact ih hcycle b' hb'
      | error t b₁ =>
        rw [h] at hb' hcycle
        cases List.mem_singleton.mp hb'
        exact hcycle

theorem run (hb : b.PcEven) (limit : Nat) : (endState (Board.run limit b)).PcEven := by
  have hstart : b.start.PcEven := ⟨hb.entry, hb.pc⟩
  obtain ⟨last, hlast, hend⟩ := endState_cycles limit b.start
  rw [Board.run, hend]
  exact (hstart.passed limit last hlast).halt

theorem of_new {c : Config} (hc : 2 ∣ c.entry.toNat) (hb : b.cpu = .ofConfig c) : b.PcEven := by
  have hpc : (Processor.ofConfig c).regs.pc = c.entry := rfl
  constructor
  · rw [hb]
    exact hc
  · rw [Bank.PcEven, hb, hpc]
    exact hc

theorem reset (hb : b.PcEven) : (endState b.reset).PcEven := by
  by_cases hrunning : b.cpu.activity = .running
  · unfold Board.reset
    rw [if_pos hrunning]
    exact hb
  · exact of_new hb.entry (reset_cpu hrunning)

theorem perform (hb : b.PcEven) (call : Call) : (endState (call.perform b)).PcEven := by
  cases call with
  | load x =>
    have hload : ({ b with image := some x } : Board).PcEven := ⟨hb.entry, hb.pc⟩
    exact hload.reset
  | reset => exact hb.reset
  | step =>
    rw [Call.perform, Call.endState_trapping]
    exact hb.step
  | run limit =>
    rw [Call.perform, Call.endState_trapping]
    exact hb.run limit
  | runToEnd =>
    rw [Call.perform, Call.endState_trapping]
    exact hb.run _

theorem after (hb : b.PcEven) (calls : List Call) : (b.after calls).PcEven := by
  induction calls generalizing b with
  | nil => exact hb
  | cons call calls ih => exact ih (hb.perform call)

end PcEven

/-- From an even entry, whatever memory holds and whatever is loaded, the program counter is even
after all calls, whether or not they trap, and after every instruction of a run that follows. -/
theorem pc_even (c : Config) (hc : 2 ∣ c.entry.toNat) (b : Board) (hb : b.cpu = .ofConfig c)
    (calls : List Call) :
    2 ∣ (b.after calls).cpu.regs.pc.toNat ∧
    ∀ limit, ∀ b' ∈ passed limit (b.after calls).start, 2 ∣ b'.cpu.regs.pc.toNat := by
  have hafter : (b.after calls).PcEven := (PcEven.of_new hc hb).after calls
  have hstart : (b.after calls).start.PcEven := ⟨hafter.entry, hafter.pc⟩
  refine ⟨hafter.pc, ?_⟩
  intro limit b' hb'
  exact (hstart.passed limit b' hb').pc

/-- A program that pops an odd word from the stack into the program counter. -/
theorem pc_even_pop :
    let c : Config := {}
    let x : Executable := {
      segments := [⟨0, 4, 0x08000008⟩, ⟨4, 4, 0x20002000⟩]
      content := [0x00, 0xBD, 0xFF, 0xFF, 0x0B, 0x00, 0x00, 0x08] }
    2 ∣ c.entry.toNat ∧
      ((ofConfig c).after [.step, .load x, .run 5]).cpu.regs.pc = 0x0800000A ∧
      2 ∣ ((ofConfig c).after [.step, .load x, .run 5]).cpu.regs.pc.toNat ∧
      ∀ b ∈ passed 5 ((ofConfig c).after [.step, .load x]).start, 2 ∣ b.cpu.regs.pc.toNat := by
  intro c x
  have hc : 2 ∣ c.entry.toNat := by decide
  have hpc : ((ofConfig c).after [.step, .load x, .run 5]).cpu.regs.pc = 0x0800000A := by
    decide +kernel
  obtain ⟨hrun, _⟩ := pc_even c hc (ofConfig c) rfl [.step, .load x, .run 5]
  obtain ⟨_, hpassed⟩ := pc_even c hc (ofConfig c) rfl [.step, .load x]
  exact ⟨hc, hpc, hrun, hpassed 5⟩

end Board

end Thumb
