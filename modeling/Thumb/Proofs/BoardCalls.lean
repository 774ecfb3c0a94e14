import Thumb.Proofs.Flash
import Thumb.Proofs.Protection

namespace Thumb

theorem Region.of_clear_eq {r r' : Region} (h : r'.clear = r.clear) :
    r'.base = r.base ∧ r'.size = r.size ∧ r'.readOnly = r.readOnly := by
  unfold clear at h
  injection h with hbase hsize _ hreadOnly
  exact ⟨hbase, hsize, hreadOnly⟩

namespace Memory

theorem clear_clear (m : Memory) : m.clear.clear = m.clear := by
  unfold clear
  rw [List.map_map]
  rfl

theorem clear_load (addr : Word) (bytes : List Byte) (m : Memory) :
    (endState (Bus.load addr bytes m)).clear = m.clear := by
  show (endState (alter addr bytes.length (·.program addr bytes) m)).clear = _
  unfold alter
  split
  · have hprogram (r : Region) : (r.program addr bytes).clear = r.clear := rfl
    exact congrArg Memory.mk (map_clear_alterFirst hprogram m.regions)
  · rfl

theorem regions_of_clear {m : Memory} {c : Config} (h : m.clear = .ofConfig c) :
    ∃ flash ram, m.regions = [flash, ram] ∧ flash.clear = .zeros c.flashOrigin c.flashSize true ∧
      ram.clear = .zeros c.ramOrigin c.ramSize false := by
  obtain ⟨flash, rest, hregions, hflash, hrest⟩ :=
    List.map_eq_cons_iff.mp (congrArg Memory.regions h)
  obtain ⟨ram, rest, rfl, hram, hnil⟩ := List.map_eq_cons_iff.mp hrest
  cases List.map_eq_nil_iff.mp hnil
  exact ⟨flash, ram, hregions, hflash, hram⟩

end Memory

namespace Executable

theorem clear_loadSegment (x : Executable) (g : Segment) (m : Memory) :
    (endState (x.loadSegment g m)).clear = m.clear := by
  unfold loadSegment
  split
  case h_1 => rfl
  case h_2 bytes _ =>
    have hload := Memory.clear_load g.address bytes m
    cases h : Bus.load g.address bytes m with
    | ok u m' => rwa [h] at hload
    | error e m' => rwa [h] at hload

theorem clear_loadAll (x : Executable) (gs : List Segment) (m : Memory) :
    (endState (x.loadAll gs m)).clear = m.clear := by
  induction gs generalizing m with
  | nil => rfl
  | cons g gs ih =>
    have hfirst := x.clear_loadSegment g m
    simp only [loadAll, bind, EStateM.bind]
    cases h : x.loadSegment g m with
    | ok u m₁ =>
      rw [h] at hfirst
      exact (ih m₁).trans hfirst
    | error e m₁ => rwa [h] at hfirst

end Executable

namespace Board

/-- A board on which only instructions were executed since. -/
structure Executed (b b' : Board) : Prop where
  memory : b.memory.Kept b'.memory
  image : b'.image = b.image
  config : b'.cpu.config = b.cpu.config

namespace Executed

theorem refl (b : Board) : b.Executed b :=
  ⟨.refl b.memory, rfl, rfl⟩

theorem trans {b₁ b₂ b₃ : Board} (h : b₁.Executed b₂) (h' : b₂.Executed b₃) : b₁.Executed b₃ :=
  ⟨h.memory.trans h'.memory, h'.image.trans h.image, h'.config.trans h.config⟩

theorem start (b : Board) : b.Executed b.start :=
  ⟨.refl b.memory, rfl, rfl⟩

theorem halt (b : Board) : b.Executed b.halt := by
  refine ⟨.refl b.memory, rfl, ?_⟩
  unfold Board.halt Processor.halt
  split
  · rfl
  · rfl

end Executed

/-- A board of the same configuration, with memory where it was. -/
structure SameLayout (b b' : Board) : Prop where
  config : b'.cpu.config = b.cpu.config
  memory : b'.memory.clear = b.memory.clear

theorem SameLayout.refl (b : Board) : b.SameLayout b :=
  ⟨rfl, rfl⟩

theorem SameLayout.trans {b₁ b₂ b₃ : Board} (h : b₁.SameLayout b₂) (h' : b₂.SameLayout b₃) :
    b₁.SameLayout b₃ :=
  ⟨h'.config.trans h.config, h'.memory.trans h.memory⟩

theorem Executed.sameLayout {b b' : Board} (h : b.Executed b') : b.SameLayout b' :=
  ⟨h.config, h.memory.clear_eq⟩

theorem halt_activity (b : Board) : b.halt.cpu.activity ≠ .running := by
  unfold halt Processor.halt
  split
  case isTrue => nofun
  case isFalse h => exact h

theorem step_executed (b : Board) : b.Executed (endState b.step) := by
  obtain ⟨cpu, memory, image⟩ := b
  have hkept := Exec.Contained.step.state ⟨cpu.regs, memory⟩
  dsimp only [step]
  cases h : Exec.step ⟨cpu.regs, memory⟩ with
  | ok u m =>
    rw [h] at hkept
    exact ⟨hkept, rfl, rfl⟩
  | error t m =>
    rw [h] at hkept
    exact ⟨hkept, rfl, rfl⟩

theorem step_activity (b : Board) : (endState b.step).cpu.activity = b.cpu.activity := by
  obtain ⟨cpu, memory, image⟩ := b
  dsimp only [step]
  split
  · rfl
  · rfl

theorem step_trap_ne {b b' : Board} {t : Trap} (h : b.step = .error t b') : t ≠ .running :=
  Exec.Contained.step.trap_ne (step_error h).2

theorem cycle_executed (b : Board) : b.Executed (endState b.cycle) := by
  have hstep := b.step_executed
  unfold cycle
  split
  · exact .refl b
  · cases h : b.step with
    | ok u b' => rwa [h] at hstep
    | error t b' =>
      rw [h] at hstep
      exact hstep.trans (.halt b')

theorem cycle_trap {b b' : Board} {t : Trap} (h : b.cycle = .error t b') :
    t ≠ .running ∧ b'.cpu.activity ≠ .running := by
  unfold cycle at h
  split at h
  · cases h
  · split at h
    case h_1 => cases h
    case h_2 hstep =>
      cases h
      exact ⟨step_trap_ne hstep, halt_activity _⟩

theorem cycles_executed (limit : Nat) (b : Board) : b.Executed (endState (cycles limit b)) := by
  induction limit generalizing b with
  | zero => exact .halt b
  | succ limit ih =>
    have hcycle := b.cycle_executed
    unfold cycles
    split
    case h_1 b' h =>
      rw [h] at hcycle
      exact hcycle.trans (ih b')
    case h_2 h => rwa [h] at hcycle
    case h_3 h => rwa [h] at hcycle

theorem cycles_activity (limit : Nat) (b : Board) :
    (endState (cycles limit b)).cpu.activity ≠ .running := by
  induction limit generalizing b with
  | zero => exact b.halt_activity
  | succ limit ih =>
    unfold cycles
    split
    case h_1 b' _ => exact ih b'
    case h_2 h => exact (cycle_trap h).2
    case h_3 h => exact (cycle_trap h).2

theorem cycles_trap_ne {limit : Nat} {b b' : Board} {t : Trap}
    (h : cycles limit b = .error t b') : t ≠ .running := by
  induction limit generalizing b with
  | zero => cases h
  | succ limit ih =>
    unfold cycles at h
    split at h
    case h_1 => exact ih h
    case h_2 => cases h
    case h_3 hcycle =>
      cases h
      exact (cycle_trap hcycle).1

theorem run_executed (limit : Nat) (b : Board) : b.Executed (endState (run limit b)) :=
  (Executed.start b).trans (cycles_executed limit b.start)

theorem program_sameLayout (x : Executable) (b : Board) :
    b.SameLayout (endState (program x b)) := by
  have hload := x.clear_loadAll x.segments b.memory
  unfold program
  split
  case h_1 h =>
    rw [← Executable.load, h] at hload
    exact ⟨rfl, hload⟩
  case h_2 h =>
    rw [← Executable.load, h] at hload
    exact ⟨rfl, hload⟩
  case h_3 h =>
    rw [← Executable.load, h] at hload
    exact ⟨rfl, hload⟩

theorem reset_sameLayout (b : Board) : b.SameLayout (endState b.reset) := by
  unfold reset
  split
  · exact .refl b
  · have hcleared : b.SameLayout { b with cpu := b.cpu.reset, memory := b.memory.clear } :=
      ⟨rfl, b.memory.clear_clear⟩
    dsimp only
    split
    · exact hcleared
    · exact hcleared.trans (program_sameLayout _ _)

/-- A reset that is not refused leaves a processor that has done nothing, even if the executable
cannot be loaded. -/
theorem reset_cpu {b : Board} (hb : b.cpu.activity ≠ .running) :
    (endState b.reset).cpu = b.cpu.reset := by
  unfold reset
  rw [if_neg hb]
  dsimp only
  split
  · rfl
  · unfold program
    split
    · rfl
    · rfl
    · rfl

theorem reset_ne {b b' : Board} (hb : b.cpu.activity ≠ .running) :
    b.reset ≠ .error (.trap .running) b' := by
  intro h
  unfold reset at h
  rw [if_neg hb] at h
  dsimp only at h
  split at h
  · cases h
  · unfold program at h
    split at h
    · cases h
    · cases h
    · cases h

/-- What a successful load leaves depends only on the executable, the configuration and where memory
lies. -/
theorem load_cases {x : Executable} {b loaded : Board} (hb : b.cpu.activity ≠ .running)
    (h : load x b = .ok () loaded) :
    loaded.cpu = .ofConfig b.cpu.config ∧ loaded.image = some x ∧
      x.load b.memory.clear = .ok () loaded.memory := by
  unfold load reset at h
  rw [if_neg hb] at h
  dsimp only [program] at h
  split at h
  case h_1 m hm =>
    cases h
    exact ⟨rfl, rfl, hm⟩
  case h_2 => cases h
  case h_3 => cases h

theorem sameLayout_of_load {x : Executable} {b loaded : Board} (h : load x b = .ok () loaded) :
    b.SameLayout loaded := by
  have hreset := reset_sameLayout { b with image := some x }
  rw [show reset { b with image := some x } = .ok () loaded from h] at hreset
  exact ⟨hreset.config, hreset.memory⟩

theorem load_of_sameLayout {x : Executable} {b b' loaded : Board}
    (hb : b.cpu.activity ≠ .running) (hb' : b'.cpu.activity ≠ .running) (h : b.SameLayout b')
    (hload : load x b = .ok () loaded) : load x b' = .ok () loaded := by
  obtain ⟨hcpu, himage, hmemory⟩ := load_cases hb hload
  have hreset : b'.cpu.reset = loaded.cpu := by
    rw [Processor.reset, h.config, hcpu]
  unfold load reset
  rw [if_neg hb']
  dsimp only [program]
  rw [h.memory, hmemory, hreset]
  dsimp only
  obtain ⟨cpu, memory, image⟩ := loaded
  cases himage
  rfl

theorem reset_of_executed {x : Executable} {b loaded b' : Board} (hb : b.cpu.activity ≠ .running)
    (hload : load x b = .ok () loaded) (hb' : b'.cpu.activity ≠ .running)
    (h : loaded.Executed b') : b'.reset = .ok () loaded := by
  obtain ⟨_, himage, _⟩ := load_cases hb hload
  have hkept : { b' with image := some x } = b' := by rw [← himage, ← h.image]
  rw [← hkept]
  exact load_of_sameLayout hb hb' ((sameLayout_of_load hload).trans h.sameLayout) hload

inductive Call
  | load (x : Executable)
  | reset
  | step
  | run (limit : Nat)
  | runToEnd

namespace Call

def executes : Call → Bool
  | .load _ | .reset => false
  | .step | .run _ | .runToEnd => true

/-- A computation without its result, with traps as one kind of error. -/
def trapping {α : Type} (x : EStateM Trap Board α) : EStateM ResetError Board Unit :=
  fun b =>
    match x b with
    | .ok _ b => .ok () b
    | .error t b => .error (.trap t) b

def perform : Call → EStateM ResetError Board Unit
  | .load x => Board.load x
  | .reset => Board.reset
  | .step => trapping Board.step
  | .run limit => trapping (Board.run limit)
  | .runToEnd => trapping Board.runToEnd

theorem endState_trapping {α : Type} (x : EStateM Trap Board α) (b : Board) :
    endState (trapping x b) = endState (x b) := by
  unfold trapping
  cases x b with
  | ok a b' => rfl
  | error t b' => rfl

theorem trapping_ne {α : Type} {x : EStateM Trap Board α} {b b' : Board}
    (hx : ∀ {t b'}, x b = .error t b' → t ≠ .running) :
    trapping x b ≠ .error (.trap .running) b' := by
  intro h
  unfold trapping at h
  split at h
  case h_1 => cases h
  case h_2 htrap =>
    cases h
    exact hx htrap rfl

theorem perform_executed {call : Call} (hcall : call.executes = true) (b : Board) :
    b.Executed (endState (call.perform b)) := by
  cases call with
  | load x => cases hcall
  | reset => cases hcall
  | step => exact endState_trapping Board.step b ▸ b.step_executed
  | run limit => exact endState_trapping (Board.run limit) b ▸ run_executed limit b
  | runToEnd => exact endState_trapping Board.runToEnd b ▸ run_executed _ b

theorem perform_sameLayout (call : Call) (b : Board) :
    b.SameLayout (endState (call.perform b)) := by
  cases call with
  | load x =>
    have hreset := reset_sameLayout { b with image := some x }
    exact ⟨hreset.config, hreset.memory⟩
  | reset => exact reset_sameLayout b
  | step => exact (perform_executed rfl b).sameLayout
  | run limit => exact (perform_executed rfl b).sameLayout
  | runToEnd => exact (perform_executed rfl b).sameLayout

theorem perform_activity (call : Call) {b : Board} (hb : b.cpu.activity ≠ .running) :
    (endState (call.perform b)).cpu.activity ≠ .running := by
  cases call with
  | load x =>
    have hcpu := reset_cpu (b := { b with image := some x }) hb
    exact hcpu ▸ nofun
  | reset => exact reset_cpu hb ▸ nofun
  | step =>
    rw [perform, endState_trapping, step_activity]
    exact hb
  | run limit =>
    rw [perform, endState_trapping]
    exact cycles_activity limit b.start
  | runToEnd =>
    rw [perform, endState_trapping]
    exact cycles_activity _ b.start

theorem perform_ne (call : Call) {b b' : Board} (hb : b.cpu.activity ≠ .running) :
    call.perform b ≠ .error (.trap .running) b' := by
  cases call with
  | load x => exact reset_ne (b := { b with image := some x }) hb
  | reset => exact reset_ne hb
  | step => exact trapping_ne step_trap_ne
  | run limit => exact trapping_ne cycles_trap_ne
  | runToEnd => exact trapping_ne cycles_trap_ne

end Call

def after (b : Board) (calls : List Call) : Board :=
  calls.foldl (fun b call => endState (call.perform b)) b

theorem after_executed {calls : List Call} (h : ∀ call ∈ calls, call.executes = true) (b : Board) :
    b.Executed (b.after calls) := by
  induction calls generalizing b with
  | nil => exact .refl b
  | cons call calls ih =>
    obtain ⟨hcall, hcalls⟩ := List.forall_mem_cons.mp h
    exact (Call.perform_executed hcall b).trans (ih hcalls _)

theorem after_sameLayout (calls : List Call) (b : Board) : b.SameLayout (b.after calls) := by
  induction calls generalizing b with
  | nil => exact .refl b
  | cons call calls ih => exact (call.perform_sameLayout b).trans (ih _)

theorem after_activity (calls : List Call) {b : Board} (hb : b.cpu.activity ≠ .running) :
    (b.after calls).cpu.activity ≠ .running := by
  induction calls generalizing b with
  | nil => exact hb
  | cons call calls ih => exact ih (call.perform_activity hb)

/-- Whatever bytes the memory of a board of some configuration holds, executing leaves flash as it
is and RAM where it is. -/
theorem flash_unchanged (c : Config) (b : Board) (hb : b.memory.clear = .ofConfig c)
    (calls : List Call) (hcalls : ∀ call ∈ calls, call.executes = true) :
    ∃ flash ram ram', b.memory.regions = [flash, ram] ∧
      (b.after calls).memory.regions = [flash, ram'] ∧
      ram'.base = ram.base ∧ ram'.size = ram.size ∧ ram'.readOnly = ram.readOnly := by
  have hkept := (after_executed hcalls b).memory
  obtain ⟨flash, ram, hregions, hflash, hram⟩ := Memory.regions_of_clear hb
  obtain ⟨flash', ram', hregions', _, hram'⟩ := Memory.regions_of_clear (hkept.clear_eq.trans hb)
  have hreadOnly : flash.readOnly = true :=
    (Region.of_clear_eq (r := .zeros c.flashOrigin c.flashSize true) hflash).2.2
  have hsame := hkept.region (i := 0) (hregions ▸ rfl) hreadOnly
  rw [hregions'] at hsame
  cases hsame
  exact ⟨flash, ram, ram', hregions, hregions', Region.of_clear_eq (hram'.trans hram.symm)⟩

/-- RAM begins inside flash, and the program pushes a word where it is. -/
theorem flash_unchanged_overlap :
    let c : Config := {
      flashSize := 16, ramOrigin := 0x08000004, ramSize := 16, entry := 0x08000000,
      initialSp := 0x08000008 }
    let flash : Region := {
      base := 0x08000000, size := 16, readOnly := true,
      written := Region.overwrite ∅ 0 [0x01, 0xB4, 0xFF, 0xFF] }
    let b : Board := { ofConfig c with memory := ⟨[flash, .zeros 0x08000004 16 false]⟩ }
    let calls : List Call := [.step, .run 2, .runToEnd]
    b.memory.clear = .ofConfig c ∧ (∀ call ∈ calls, call.executes = true) ∧
      ∃ ram', (b.after calls).memory.regions = [flash, ram'] ∧ ram'.size = 16 := by
  intro c flash b calls
  have hb : b.memory.clear = .ofConfig c := rfl
  have hcalls : ∀ call ∈ calls, call.executes = true := by simp [calls, Call.executes]
  obtain ⟨_, _, ram', hregions, hafter, _, hsize, _⟩ := flash_unchanged c b hb calls hcalls
  cases hregions
  exact ⟨hb, hcalls, ram', hafter, hsize⟩

/-- After any calls of a new board the processor is not running, so no call is refused because it
is. Once an executable is loaded, a reset after executing gives back the board as it was then. -/
theorem never_left_running (c : Config) (calls : List Call) :
    ((ofConfig c).after calls).cpu.activity ≠ .running ∧
    (∀ call b', Call.perform call ((ofConfig c).after calls) ≠ .error (.trap .running) b') ∧
    ∀ x loaded, load x ((ofConfig c).after calls) = .ok () loaded →
      ∀ later : List Call, (∀ call ∈ later, call.executes = true) →
        reset (loaded.after later) = .ok () loaded := by
  have hidle : ((ofConfig c).after calls).cpu.activity ≠ .running := after_activity calls nofun
  refine ⟨hidle, fun call b' => call.perform_ne hidle, ?_⟩
  intro x loaded hload later hlater
  have hloaded : loaded.cpu.activity ≠ .running := (load_cases hidle hload).1 ▸ nofun
  exact reset_of_executed hidle hload (after_activity later hloaded) (after_executed hlater loaded)

/-- A program that pushes a word, loaded after a run of empty memory. -/
theorem never_left_running_push :
    let x : Executable := {
      segments := [⟨0, 6, 0x08000008⟩], content := [0x01, 0x20, 0x01, 0xB4, 0xFF, 0xFF] }
    let later : List Call := [.step, .run 0, .runToEnd]
    ∃ loaded, load x ((ofConfig {}).after [.step, .run 3]) = .ok () loaded ∧
      reset (loaded.after later) = .ok () loaded := by
  intro x later
  have hlater : ∀ call ∈ later, call.executes = true := by simp [later, Call.executes]
  have hload : (match load x ((ofConfig {}).after [.step, .run 3]) with
      | .ok _ _ => true
      | .error _ _ => false) = true := by
    decide +kernel
  obtain ⟨_, _, hreset⟩ := never_left_running {} [.step, .run 3]
  split at hload
  case h_1 loaded h => exact ⟨loaded, h, hreset x loaded h later hlater⟩
  case h_2 => cases hload

end Board

end Thumb
