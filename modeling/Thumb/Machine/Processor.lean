import Thumb.Machine.Config
import Thumb.Register.Json

namespace Thumb

inductive Activity
  | idle
  | running
  | halted
deriving DecidableEq, Repr

namespace Activity

def name : Activity → String
  | .idle => "Idle"
  | .running => "Running"
  | .halted => "Halted"

def ofName? (name : String) : Option Activity :=
  [idle, running, halted].find? (·.name = name)

end Activity

structure Processor where
  regs : Bank
  activity : Activity
  /-- A count of 64 bits, after whose last number comes zero. -/
  cycles : Fin 0x10000000000000000
  config : Config
deriving DecidableEq, Repr

namespace Processor

def initialRegs (c : Config) : Bank :=
  ((({} : Bank).write .pc c.entry).write .sp c.initialSp).beginCycle

def ofConfig (c : Config) : Processor :=
  { regs := initialRegs c, activity := .idle, cycles := 0, config := c }

def reset (p : Processor) : Processor :=
  ofConfig p.config

def start (p : Processor) : Processor :=
  { p with activity := .running }

/-- Halts the processor if it is running. -/
def halt (p : Processor) : Processor :=
  if p.activity = .running then { p with activity := .halted } else p

/-- The processor after a cycle that leaves these registers. -/
def afterCycle (p : Processor) (regs : Bank) : Processor :=
  { p with regs, cycles := p.cycles + 1 }

def toJson (p : Processor) : Json :=
  .ofMembers [("regs", p.regs.toJson), ("state", .ofString p.activity.name),
    ("cycles", .ofNat p.cycles), ("cfg", p.config.toJson)]

def ofJson? (j : Json) : Option Processor := do
  match ← j.required? ["regs", "state", "cycles", "cfg"] with
  | [regs, state, cycles, cfg] =>
    some {
      regs := ← Bank.ofJson? regs
      activity := ← Activity.ofName? (← state.variant?)
      cycles := .ofNat _ (← cycles.unsigned? 64)
      config := ← Config.ofJson? cfg }
  | _ => none

end Processor

end Thumb
