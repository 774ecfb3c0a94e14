import Mathlib
import Thumb.Machine.Board

namespace Thumb

/-- The state that a computation ends in, whether or not it fails. -/
def endState {ε σ α : Type} : EStateM.Result ε σ α → σ
  | .ok _ s => s
  | .error _ s => s

namespace Region

theorem clear_store (r : Region) (addr : Word) (bytes : List Byte) :
    (r.store addr bytes).clear = r.clear := by
  unfold store
  split
  · rfl
  · rfl

theorem store_of_readOnly {r : Region} (h : r.readOnly = true) (addr : Word)
    (bytes : List Byte) : r.store addr bytes = r :=
  if_pos h

end Region

namespace Memory

section AlterFirst

variable {addr : Word} {length : Nat} {f : Region → Region}

theorem map_clear_alterFirst (hf : ∀ r, (f r).clear = r.clear) (rs : List Region) :
    (alterFirst addr length f rs).map Region.clear = rs.map Region.clear := by
  induction rs with
  | nil => rfl
  | cons r rs ih =>
    unfold alterFirst
    split
    · rw [List.map_cons, List.map_cons, hf]
    · rw [List.map_cons, List.map_cons, ih]

theorem getElem?_alterFirst {rs : List Region} {i : Nat} {r : Region} (hr : rs[i]? = some r)
    (hf : f r = r) : (alterFirst addr length f rs)[i]? = some r := by
  induction rs generalizing i with
  | nil => cases hr
  | cons s rs ih =>
    unfold alterFirst
    cases i with
    | zero =>
      cases hr
      split
      · rw [List.getElem?_cons_zero, hf]
      · rfl
    | succ i =>
      split
      · exact hr
      · exact ih hr

end AlterFirst

/-- Memory that has the same regions as before, and the same bytes in the protected ones. -/
structure Kept (m m' : Memory) : Prop where
  clear_eq : m'.clear = m.clear
  region {i : Nat} {r : Region} (h : m.regions[i]? = some r) (hr : r.readOnly = true) :
    m'.regions[i]? = some r

theorem Kept.refl (m : Memory) : m.Kept m :=
  ⟨rfl, fun h _ => h⟩

theorem Kept.trans {m₁ m₂ m₃ : Memory} (h : m₁.Kept m₂) (h' : m₂.Kept m₃) : m₁.Kept m₃ :=
  ⟨h'.clear_eq.trans h.clear_eq, fun hi hr => h'.region (h.region hi hr) hr⟩

theorem read_state (w : Width) (addr : Word) (m : Memory) : endState (read w addr m) = m := by
  unfold read
  split
  · rfl
  · rfl

theorem write_kept (w : Width) (addr : Word) (v : BitVec w.bits) (m : Memory) :
    m.Kept (endState (write w addr v m)) := by
  unfold write alter
  split
  · constructor
    · exact congrArg Memory.mk (map_clear_alterFirst (fun r => r.clear_store addr _) m.regions)
    · intro i r hi hr
      exact getElem?_alterFirst hi (Region.store_of_readOnly hr addr _)
  · exact .refl m

end Memory

theorem run_bind_ok_iff {ε σ α β : Type} {x : EStateM ε σ α} {next : α → EStateM ε σ β} {s s' : σ}
    {b : β} : (x >>= next) s = .ok b s' ↔ ∃ a s₁, x s = .ok a s₁ ∧ next a s₁ = .ok b s' := by
  simp only [bind, EStateM.bind]
  cases hx : x s with
  | ok a s₁ =>
    constructor
    · exact fun h => ⟨a, s₁, rfl, h⟩
    · rintro ⟨_, _, ha, h⟩
      cases ha
      exact h
  | error e s₁ =>
    apply iff_of_false nofun
    rintro ⟨_, _, ha, _⟩
    cases ha

namespace Exec

section Bind

variable {α β : Type} {x : Exec Memory α} {next : α → Exec Memory β} {m m' : Machine Memory}

theorem bind_error {t : Trap} (h : (x >>= next) m = .error t m') :
    x m = .error t m' ∨ ∃ a m₁, x m = .ok a m₁ ∧ next a m₁ = .error t m' := by
  simp only [bind, EStateM.bind] at h
  split at h
  case h_1 a m₁ hx => exact .inr ⟨a, m₁, hx, h⟩
  case h_2 hx =>
    cases h
    exact .inl hx

end Bind

variable {α β : Type} {R : Machine Memory → Machine Memory → Prop}

/-- Whatever an action does, it takes a machine to a related one, and no trap of it says that the
processor is running. -/
structure Within (R : Machine Memory → Machine Memory → Prop) (x : Exec Memory α) : Prop where
  state (m : Machine Memory) : R m (endState (x m))
  trap_ne {m m' : Machine Memory} {t : Trap} (h : x m = .error t m') : t ≠ .running

/-- An action that changes nothing. -/
abbrev Reads (x : Exec Memory α) : Prop :=
  Within Eq x

abbrev Contained (x : Exec Memory α) : Prop :=
  Within (fun m m' => m.bus.Kept m'.bus) x

instance : Std.Refl (fun m m' : Machine Memory => m.bus.Kept m'.bus) :=
  ⟨fun m => .refl m.bus⟩

instance : IsTrans (Machine Memory) (fun m m' => m.bus.Kept m'.bus) :=
  ⟨fun _ _ _ h h' => h.trans h'⟩

namespace Within

theorem of_reads [Std.Refl R] {x : Exec Memory α} (h : Reads x) : Within R x := by
  refine ⟨?_, h.trap_ne⟩
  intro m
  rw [← h.state m]
  exact Std.Refl.refl m

theorem pure [Std.Refl R] (a : α) : Within R (pure a) :=
  ⟨Std.Refl.refl, nofun⟩

theorem throw [Std.Refl R] {t : Trap} (ht : t ≠ .running) :
    Within R (throw t : Exec Memory α) := by
  refine ⟨Std.Refl.refl, ?_⟩
  intro m m' t' h
  cases h
  exact ht

theorem bind [IsTrans (Machine Memory) R] {x : Exec Memory α} {next : α → Exec Memory β}
    (hx : Within R x) (hnext : ∀ a, Within R (next a)) : Within R (x >>= next) := by
  constructor
  · intro m
    have hfirst := hx.state m
    simp only [Bind.bind, EStateM.bind]
    cases h : x m with
    | ok a m₁ =>
      rw [h] at hfirst
      exact IsTrans.trans _ _ _ hfirst ((hnext a).state m₁)
    | error t m₁ =>
      rw [h] at hfirst
      exact hfirst
  · intro m m' t ht
    rcases bind_error ht with h | ⟨a, m₁, _, h⟩
    · exact hx.trap_ne h
    · exact (hnext a).trap_ne h

theorem ite {c : Prop} [Decidable c] {x y : Exec Memory α} (hx : Within R x) (hy : Within R y) :
    Within R (if c then x else y) := by
  split
  · exact hx
  · exact hy

theorem regs [Std.Refl R] : Within R Exec.regs :=
  ⟨Std.Refl.refl, nofun⟩

theorem onBus {x : EStateM BusError Memory α} (hx : ∀ m, R m ⟨m.regs, endState (x m.bus)⟩)
    (addr : Word) : Within R (Exec.onBus addr x) := by
  constructor
  · rintro ⟨regs, bus⟩
    have h := hx ⟨regs, bus⟩
    dsimp only [Exec.onBus] at h ⊢
    cases hbus : x bus with
    | ok a bus' => rwa [hbus] at h
    | error e bus' => rwa [hbus] at h
  · rintro ⟨regs, bus⟩ m' t ht
    dsimp only [Exec.onBus] at ht
    split at ht
    · cases ht
    · cases ht
      nofun

theorem checkAligned [Std.Refl R] (w : Width) (addr : Word) :
    Within R (Exec.checkAligned w addr) :=
  ite (pure ()) (throw nofun)

end Within

namespace Reads

theorem bus_read (w : Width) (addr : Word) (m : Machine Memory) :
    m = ⟨m.regs, endState (Bus.read w addr m.bus)⟩ :=
  congrArg (Machine.mk m.regs) (Memory.read_state w addr m.bus).symm

theorem load (w : Width) (addr : Word) : Reads (Exec.load w addr) := by
  refine (Within.checkAligned w addr).bind fun _ => ?_
  exact (Within.onBus (bus_read w addr) addr).bind fun _ => .pure _

theorem attempt (w : Width) (addr : Word) : Reads (Exec.attempt (Bus.read w addr)) := by
  constructor
  · intro m
    have h := bus_read w addr m
    dsimp only [Exec.attempt] at h ⊢
    cases hbus : (Bus.read w addr m.bus : EStateM.Result BusError Memory (BitVec w.bits)) with
    | ok a bus' => rwa [hbus] at h
    | error e bus' => rwa [hbus] at h
  · intro m m' t ht
    dsimp only [Exec.attempt] at ht
    split at ht
    · cases ht
    · cases ht

theorem fetch (pc : Word) : Reads (Exec.fetch pc) := by
  refine .bind (.onBus (bus_read .halfword pc) pc) fun first => ?_
  refine .ite (.bind (.throw nofun) fun _ => ?_) ?_
  all_goals
    refine .bind (attempt .halfword (pc + 2)) fun second => ?_
    cases decode? first second with
    | some d => exact .pure d
    | none => exact .throw nofun

end Reads

namespace Contained

theorem onRegs (f : Bank → Bank) : Contained (Exec.onRegs f) :=
  ⟨fun m => .refl m.bus, nofun⟩

theorem store (w : Width) (addr value : Word) : Contained (Exec.store w addr value) :=
  (Within.checkAligned w addr).bind fun _ => .onBus (fun m => Memory.write_kept w addr _ m.bus) addr

theorem storeAll (addr : Word) (list : List Reg) : Contained (Exec.storeAll addr list) := by
  induction list generalizing addr with
  | nil => exact .pure ()
  | cons r rs ih =>
    refine Within.regs.bind fun b => ?_
    exact (store .word addr (b.read r)).bind fun _ => ih (addr + 4)

theorem loadAll (addr : Word) (list : List Reg) : Contained (Exec.loadAll addr list) := by
  induction list generalizing addr with
  | nil => exact .pure ()
  | cons r rs ih =>
    refine (Within.of_reads (.load .word addr)).bind fun value => ?_
    exact (onRegs _).bind fun _ => ih (addr + 4)

theorem transfer (k : Transfer) (addr : Word) (t : Fin 8) :
    Contained (Exec.transfer k addr t) := by
  refine .ite ?_ ?_
  · exact (Within.of_reads (.load k.width addr)).bind fun _ => onRegs _
  · exact Within.regs.bind fun _ => store k.width addr _

theorem multiple (load : Bool) (n : Fin 8) (mask : BitVec 8) :
    Contained (Exec.multiple load n mask) := by
  refine Within.regs.bind fun b => ?_
  cases load with
  | true => exact (loadAll _ _).bind fun _ => .ite (onRegs _) (.pure _)
  | false => exact (storeAll _ _).bind fun _ => .ite (onRegs _) (.pure _)

theorem push (list : List Reg) : Contained (Exec.push list) :=
  Within.regs.bind fun _ => (storeAll _ list).bind fun _ => onRegs _

theorem pop (list : List Reg) : Contained (Exec.pop list) :=
  Within.regs.bind fun b => (loadAll b.sp list).bind fun _ => onRegs _

theorem exec (i : Instr) : Contained i.exec := by
  cases i with
  | transferSp => exact .bind .regs fun _ => transfer _ _ _
  | transferImm => exact .bind .regs fun _ => transfer _ _ _
  | transferReg => exact .bind .regs fun _ => transfer _ _ _
  | loadLiteral => exact .bind .regs fun _ => transfer _ _ _
  | push => exact push _
  | pop => exact pop _
  | storeMultiple => exact multiple _ _ _
  | loadMultiple => exact multiple _ _ _
  | _ => exact onRegs _

theorem step : Contained Exec.step := by
  refine .bind .regs fun b => ?_
  refine .bind (.of_reads (.fetch b.pc)) fun d => ?_
  refine .bind (onRegs _) fun _ => ?_
  exact .bind (exec _) fun _ => onRegs _

end Contained

end Exec

theorem Board.step_error {b b' : Board} {t : Trap} (h : b.step = .error t b') :
    b'.cpu.cycles = b.cpu.cycles ∧
      Exec.step ⟨b.cpu.regs, b.memory⟩ = .error t ⟨b'.cpu.regs, b'.memory⟩ := by
  dsimp only [step] at h
  split at h
  case h_1 => cases h
  case h_2 hstep =>
    cases h
    exact ⟨rfl, hstep⟩

end Thumb
