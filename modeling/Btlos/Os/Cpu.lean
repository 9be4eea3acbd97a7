import Mathlib.Tactic.Common

/-! A process and the routine that a CPU runs. What lies between two calls to
the scheduler or to `run` is a function of the CPU's local variables. -/
namespace Btlos

inductive InsOpcode where
  | calc
  | alloc
  | free
  | read
  | write
deriving DecidableEq

structure Inst where
  opcode : InsOpcode
  arg0 : Nat
  arg1 : Nat
  arg2 : Nat
deriving DecidableEq

/-- The fields of a PCB that the scheduler and the CPUs use; the size of the
code segment is the length of its text. -/
structure Pcb where
  text : List Inst
  pc : Nat
  prio : Nat

/-- The instruction that `run` would execute, and the PCB with the next one. -/
def Pcb.step? (proc : Pcb) : Option (Inst × Pcb) :=
  if h : proc.pc < proc.text.length then
    some (proc.text[proc.pc], { proc with pc := proc.pc + 1 })
  else none

def Pcb.Finished (proc : Pcb) : Prop := proc.pc = proc.text.length

instance (proc : Pcb) : Decidable proc.Finished :=
  inferInstanceAs (Decidable (proc.pc = proc.text.length))

/-- The number of the process in the order of loading, for the address of its PCB. -/
abbrev ProcId := Nat

/-- In which branch of `cpu_routine` the call of `get_proc` stands. -/
inductive Fetch where
  | idle
  | finished
  | overdue
deriving DecidableEq

/-- Where a CPU stands in its loop: at the first test, about to free or to put
back its process, about to call `get_proc`, at the second test, about to run. -/
inductive CpuLoc where
  | check
  | free
  | put
  | fetch (why : Fetch)
  | recheck
  | run
  | stopped
deriving DecidableEq

/-- The local variables of `cpu_routine`. -/
structure Cpu where
  loc : CpuLoc
  proc : Option ProcId
  timeLeft : Int
deriving DecidableEq

def Cpu.initial : Cpu := ⟨.check, none, 0⟩

/-- The first test of the loop, for a process that has or has not finished. -/
def Cpu.check (cpu : Cpu) (finished : ProcId → Bool) : Cpu :=
  match cpu.proc with
  | none => { cpu with loc := .fetch .idle }
  | some proc =>
      if finished proc then { cpu with loc := .free }
      else if cpu.timeLeft = 0 then { cpu with loc := .put }
      else { cpu with loc := .recheck }

/-- What each branch does with the result of `get_proc`. -/
def Cpu.fetched (cpu : Cpu) (why : Fetch) (result : Option ProcId) : Cpu :=
  match why with
  | .idle => { cpu with loc := if result = none then .check else .recheck, proc := result }
  | .finished => { loc := .recheck, proc := result, timeLeft := 0 }
  | .overdue => { cpu with loc := .recheck, proc := result }

/-- The second test of the loop. -/
def Cpu.recheck (cpu : Cpu) (timeSlot : Int) (done : Bool) : Cpu :=
  if cpu.proc = none ∧ done then { cpu with loc := .stopped }
  else if cpu.proc = none then { cpu with loc := .check }
  else if cpu.timeLeft = 0 then { cpu with loc := .run, timeLeft := timeSlot }
  else { cpu with loc := .run }

/-- After `run`. -/
def Cpu.ran (cpu : Cpu) : Cpu := { cpu with loc := .check, timeLeft := cpu.timeLeft - 1 }

/-- The process that a CPU has: between `free` or `put_proc` and the next
`get_proc`, the variable `proc` still points to the one that was given up. -/
def Cpu.holds (cpu : Cpu) : Option ProcId :=
  match cpu.loc with
  | .fetch _ => none
  | _ => cpu.proc

end Btlos
