import Thumb.Memory.Map
import Thumb.Proofs.Decoding
import Thumb.Proofs.Operation
import Thumb.Proofs.RegisterChange

namespace Thumb

namespace Condition

def named : List (String × Condition) :=
  [("EQ", .eq), ("NE", .ne), ("CS", .cs), ("HS", .cs), ("CC", .cc), ("LO", .cc), ("MI", .mi),
    ("PL", .pl), ("VS", .vs), ("VC", .vc), ("HI", .hi), ("LS", .ls), ("GE", .ge), ("LT", .lt),
    ("GT", .gt), ("LE", .le), ("AL", .al)]

/-- What a condition says of two words that were compared, as numbers with or without sign. -/
def compares (c : Condition) (a b : Word) : Bool :=
  match c with
  | .eq => a = b
  | .ne => a ≠ b
  | .cs => b.toNat ≤ a.toNat
  | .cc => a.toNat < b.toNat
  | .mi => ((a.toNat - b.toNat : Int) % 2 ^ 32).toNat.testBit 31
  | .pl => !((a.toNat - b.toNat : Int) % 2 ^ 32).toNat.testBit 31
  | .vs => a.toInt - b.toInt < -2 ^ 31 ∨ 2 ^ 31 - 1 < a.toInt - b.toInt
  | .vc => -2 ^ 31 ≤ a.toInt - b.toInt ∧ a.toInt - b.toInt ≤ 2 ^ 31 - 1
  | .hi => b.toNat < a.toNat
  | .ls => a.toNat ≤ b.toNat
  | .ge => b.toInt ≤ a.toInt
  | .lt => a.toInt < b.toInt
  | .gt => b.toInt < a.toInt
  | .le => a.toInt ≤ b.toInt
  | .al => true

end Condition

namespace Exact

theorem flags_difference (a b : Word) (f : Flags) :
    (difference a b false).flags f =
      { f with
        n := ((a.toNat - b.toNat : Int) % 2 ^ 32).toNat.testBit 31
        z := a = b
        c := b.toNat ≤ a.toNat
        v := overflows (a.toInt - b.toInt) } := by
  have ha := a.isLt
  have hb := b.isLt
  have hn : ((a.toNat - b.toNat : Int) % 2 ^ 32).toNat.testBit 31 =
      decide (2 ^ 31 ≤ (a.toNat - b.toNat : Int) % 2 ^ 32) := by
    rw [Nat.testBit_eq_decide_div_mod_eq, decide_eq_decide]
    omega
  have hz : decide (a = b) = decide ((a.toNat - b.toNat : Int) % 2 ^ 32 = 0) := by
    rw [decide_eq_decide, ← BitVec.toNat_inj]
    omega
  rw [hn, hz]
  simp [flags, difference]

/-- The sign of a difference tells which number with sign is greater, unless it overflows: then it
tells the contrary. -/
theorem sign_difference (a b : Word) :
    (((a.toNat - b.toNat : Int) % 2 ^ 32).toNat.testBit 31 == overflows (a.toInt - b.toInt)) =
      decide (b.toInt ≤ a.toInt) := by
  have ha := a.isLt
  have hb := b.isLt
  rw [Bool.eq_iff_iff, beq_iff_eq, Bool.eq_iff_iff, Nat.testBit_eq_decide_div_mod_eq, overflows,
    Bool.or_eq_true, decide_eq_true_eq, decide_eq_true_eq, decide_eq_true_eq, decide_eq_true_eq,
    a.toInt_eq_toNat_cond, b.toInt_eq_toNat_cond]
  split_ifs <;> omega

end Exact

theorem Condition.holds_sub (c : Condition) (a b : Word) (f : Flags) :
    c.holds ((Alu.sub a b).setNzcv f) = c.compares a b := by
  have hsign := Exact.sign_difference a b
  have hunsigned : a = b ↔ a.toNat = b.toNat := BitVec.toNat_inj.symm
  have hsigned : a = b ↔ a.toInt = b.toInt := BitVec.toInt_inj.symm
  rw [(Alu.sub_gives a b).flags, Exact.flags_difference, Bool.eq_iff_iff]
  cases c with
  | eq => rfl
  | ne => simp [holds, compares]
  | cs => rfl
  | cc => simp [holds, compares]
  | mi => rfl
  | pl => rfl
  | vs =>
    simp only [holds, compares, Exact.overflows, Bool.or_eq_true, decide_eq_true_eq]
    omega
  | vc =>
    simp only [holds, compares, Exact.overflows, Bool.not_eq_true', Bool.or_eq_false_iff,
      decide_eq_false_iff_not, decide_eq_true_eq]
    omega
  | hi =>
    simp only [holds, compares, Bool.and_eq_true, Bool.not_eq_true', decide_eq_false_iff_not,
      decide_eq_true_eq, hunsigned]
    omega
  | ls =>
    simp only [holds, compares, Bool.or_eq_true, Bool.not_eq_true', decide_eq_false_iff_not,
      decide_eq_true_eq, hunsigned]
    omega
  | ge => exact Bool.eq_iff_iff.mp hsign
  | lt =>
    simp only [holds, compares, bne, hsign, Bool.not_eq_true', decide_eq_false_iff_not,
      decide_eq_true_eq]
    omega
  | gt =>
    simp only [holds, compares, hsign, Bool.and_eq_true, Bool.not_eq_true',
      decide_eq_false_iff_not, decide_eq_true_eq, hsigned]
    omega
  | le =>
    simp only [holds, compares, bne, hsign, Bool.or_eq_true, Bool.not_eq_true',
      decide_eq_false_iff_not, decide_eq_true_eq, hsigned]
    omega
  | al => rfl

theorem Form.select_branchIf {e : String × Condition} (he : e ∈ Condition.named) {label : String}
    (hlabel : Operand.isLabel label = true) :
    select ("B" ++ e.1) [label] = .ok (.branchIf e.2) := by
  have hnames : ∀ e ∈ Condition.named, ∀ f ∈ all,
      f.answersTo (String.ofList (Text.upper ("B" ++ e.1).toList)) =
        decide (f = .branchIf e.2) := by
    decide
  have hfind : all.find? (·.canEncode (String.ofList (Text.upper ("B" ++ e.1).toList)) [label]) =
      some (.branchIf e.2) := by
    apply find?_eq_some_of_unique (mem_all _)
    · rw [canEncode, hnames e he _ (mem_all _), decide_eq_true rfl]
      exact hlabel
    · intro f hf hcan
      rw [canEncode, hnames e he f hf, Bool.and_eq_true] at hcan
      exact of_decide_eq_true hcan.1
  rw [select, hfind]

namespace Instr

/-- The two values that a comparison compares. -/
def compared (i : Instr) (b : Bank) : Option (Word × Word) :=
  match i with
  | .compareImm n imm => some (b.read (.low n), imm.setWidth 32)
  | .compareHigh m n => some (b.operand n, b.operand m)
  | .data .cmp m n => some (b.read (.low n), b.read (.low m))
  | _ => none

theorem exists_compared {i : Instr} (h : i.form.answersTo "CMP" = true) (b : Bank) :
    ∃ x y, i.compared b = some (x, y) := by
  have hforms : ∀ f ∈ Form.all, f.answersTo "CMP" = true →
      f = .compareImm ∨ f = .compareHigh ∨ f = .data .cmp := by
    decide
  rcases hforms i.form (Form.mem_all _) h with hi | hi | hi
  all_goals
    cases i <;> cases hi
    exact ⟨_, _, rfl⟩

theorem exec_of_compared {μ : Type} [Bus μ] {i : Instr} {m : Machine μ} {x y : Word}
    (h : i.compared m.regs = some (x, y)) :
    i.exec m = .ok () ⟨m.regs.setFlags ((Alu.sub x y).setNzcv m.regs.flags), m.bus⟩ := by
  unfold compared at h
  split at h <;> cases h <;> rfl

def branchTarget (pc : Word) (halfwords : BitVec 8) : Word :=
  BitVec.ofInt 32 (pc.toNat + 4 + 2 * halfwords.toInt)

theorem jump_eq_write (b : Bank) (halfwords : BitVec 8) :
    b.jump halfwords = b.write .pc (branchTarget b.pc halfwords) := by
  have htwice : halfwords.signExtend 32 <<< 1 = BitVec.ofInt 32 (2 * halfwords.toInt) := by
    rw [BitVec.shiftLeft_eq_mul_twoPow, BitVec.signExtend, Int.mul_comm, BitVec.ofInt_mul]
    rfl
  have hpc : BitVec.ofInt 32 (b.pc.toNat + 4) = b.pc + 4 := by
    rw [BitVec.ofInt_add, BitVec.ofInt_natCast, BitVec.ofNat_toNat, BitVec.setWidth_eq]
    rfl
  rw [Bank.jump, htwice, branchTarget, BitVec.ofInt_add, hpc]
  rfl

theorem exec_branchIf {μ : Type} [Bus μ] (c : Condition) (halfwords : BitVec 8) (m : Machine μ) :
    m.Sets (if c.holds m.regs.flags then [(.pc, branchTarget m.regs.pc halfwords)] else []) m.bus
      ((branchIf c halfwords).exec m) := by
  refine ⟨if c.holds m.regs.flags then m.regs.jump halfwords else m.regs, rfl, ?_⟩
  split
  · rw [jump_eq_write]
    exact (Bank.Becomes.refl m.regs).write .pc _
  · exact .refl m.regs

end Instr

/-- After a comparison, whatever the flags were before it, a conditional branch is taken exactly if
its condition holds of the numbers that were compared. -/
theorem compare_and_branch {μ : Type} [Bus μ] (i : Instr) (hi : i.form.answersTo "CMP" = true)
    (m : Machine μ) :
    (∀ a b, Alu.sub a b = Alu.sbc a b true) ∧
    (∀ e ∈ Condition.named, ∀ label, Operand.isLabel label = true →
      Form.select ("B" ++ e.1) [label] = .ok (.branchIf e.2)) ∧
    ∃ a b regs, i.compared m.regs = some (a, b) ∧ i.exec m = .ok () ⟨regs, m.bus⟩ ∧
      m.regs.Becomes [] regs.flags regs ∧
      ∀ (c : Condition) (halfwords : BitVec 8) (n : Machine μ), n.regs.flags = regs.flags →
        n.Sets (if c.compares a b then [(.pc, Instr.branchTarget n.regs.pc halfwords)] else [])
          n.bus ((Instr.branchIf c halfwords).exec n) := by
  refine ⟨Alu.sub_eq_sbc, fun _ he _ hlabel => Form.select_branchIf he hlabel, ?_⟩
  obtain ⟨a, b, hcompared⟩ := Instr.exists_compared hi m.regs
  refine ⟨a, b, _, hcompared, Instr.exec_of_compared hcompared,
    (Bank.Becomes.refl m.regs).setFlags _, ?_⟩
  intro c halfwords n hflags
  have hholds : c.holds n.regs.flags = c.compares a b := by
    rw [hflags]
    exact c.holds_sub a b m.regs.flags
  rw [← hholds]
  exact Instr.exec_branchIf c halfwords n

/-- The least number with sign is less than one, though without sign it is greater. -/
theorem compare_and_branch_least :
    let i : Instr := .compareHigh ⟨8⟩ ⟨0⟩
    let m : Machine Memory :=
      ⟨{ regs := #v[0x80000000, 0, 0, 0, 0, 0, 0, 0, 1, 0, 0, 0, 0, 0, 0, 0x08000010] }, ⟨[]⟩⟩
    i.form.answersTo "CMP" = true ∧ ∃ regs, i.exec m = .ok () ⟨regs, m.bus⟩ ∧
      regs.read .pc = 0x08000010 ∧
      (∃ taken, (Instr.branchIf .lt 0xFC).exec ⟨regs, m.bus⟩ = .ok () ⟨taken, m.bus⟩ ∧
        taken.read .pc = 0x0800000C ∧ taken.pcWritten = true ∧ taken.read ⟨0⟩ = 0x80000000) ∧
      ∃ passed, (Instr.branchIf .cc 0xFC).exec ⟨regs, m.bus⟩ = .ok () ⟨passed, m.bus⟩ ∧
        passed.read .pc = 0x08000010 ∧ passed.pcWritten = false := by
  intro i m
  have hi : i.form.answersTo "CMP" = true := by decide +kernel
  have hvalues : i.compared m.regs = some (0x80000000, 1) := by decide
  obtain ⟨_, _, a, b, regs, hcompared, hexec, hregs, hbranch⟩ := compare_and_branch i hi m
  cases hvalues.symm.trans hcompared
  have hpc : regs.pc = 0x08000010 := hregs.read .pc
  have htarget : Instr.branchTarget regs.pc 0xFC = 0x0800000C := by
    rw [hpc]
    decide
  obtain ⟨taken, htaken, hjump⟩ := hbranch .lt 0xFC ⟨regs, m.bus⟩ rfl
  obtain ⟨passed, hpassed, hstay⟩ := hbranch .cc 0xFC ⟨regs, m.bus⟩ rfl
  refine ⟨hi, regs, hexec, hpc, ⟨taken, htaken, ?_, ?_, ?_⟩, passed, hpassed, ?_, ?_⟩
  · exact (hjump.read .pc).trans htarget
  · exact hjump.pcWritten.trans (Bool.or_true _)
  · exact (hjump.read ⟨0⟩).trans (hregs.read ⟨0⟩)
  · exact (hstay.read .pc).trans hpc
  · exact hstay.pcWritten.trans (congrArg (· || false) hregs.pcWritten)

end Thumb
