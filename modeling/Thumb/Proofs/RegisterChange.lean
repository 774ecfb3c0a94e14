import Thumb.Machine.Basic

namespace Thumb

/-- A bank after some registers got new values. Every other register reads as before, and a new
value of the program counter is remembered. -/
structure Bank.Becomes (b : Bank) (new : List (Reg × Word)) (flags : Flags) (b' : Bank) : Prop where
  read (r : Reg) : b'.read r = (new.lookup r).getD (b.read r)
  flags : b'.flags = flags
  pcWritten : b'.pcWritten = (b.pcWritten || (new.lookup .pc).isSome)

namespace Bank.Becomes

variable {b b' : Bank} {new : List (Reg × Word)} {flags : Flags}

theorem refl (b : Bank) : b.Becomes [] b.flags b :=
  ⟨fun _ => rfl, rfl, (Bool.or_false _).symm⟩

theorem write (h : b.Becomes new flags b') (r : Reg) (value : Word) :
    b.Becomes ((r, value) :: new) flags (b'.write r value) := by
  refine ⟨?_, h.flags, ?_⟩
  · intro s
    by_cases hs : s = r
    · subst hs
      rw [read_write_self, List.lookup_cons_self]
      rfl
    · rw [read_write_of_ne _ hs, List.lookup_cons, beq_false_of_ne hs]
      exact h.read s
  · show (b'.pcWritten || decide (r = .pc)) = _
    rw [h.pcWritten, List.lookup_cons]
    by_cases hr : r = .pc
    · subst hr
      simp
    · simp [hr, beq_false_of_ne (Ne.symm hr)]

theorem read_of_ne {r s : Reg} {value : Word} (h : b.Becomes [(r, value)] flags b') (hs : s ≠ r) :
    b'.read s = b.read s := by
  rw [h.read, List.lookup_cons, beq_false_of_ne hs]
  rfl

theorem setFlags (h : b.Becomes new flags b') (f : Flags) : b.Becomes new f (b'.setFlags f) :=
  ⟨h.read, rfl, h.pcWritten⟩

/-- Once the program counter is written, it no longer matters whether it was before. -/
theorem of_beginCycle (h : b.beginCycle.Becomes new flags b')
    (hpc : (new.lookup .pc).isSome = true) : b.Becomes new flags b' := by
  refine ⟨h.read, h.flags, ?_⟩
  rw [h.pcWritten, hpc, Bool.or_true, Bool.or_true]

end Bank.Becomes

/-- A result that leaves new values in registers, and the bus in a given state. -/
def Machine.Sets {μ : Type} (m : Machine μ) (new : List (Reg × Word)) (bus : μ)
    (result : EStateM.Result Trap (Machine μ) Unit) : Prop :=
  ∃ regs, result = .ok () ⟨regs, bus⟩ ∧ m.regs.Becomes new m.regs.flags regs

end Thumb
