import Btlos.Os.Cpu
import Btlos.Sched.Conservation

/-! The loader and any number of CPUs over one scheduler. A step is one call of
the scheduler, of `free` or of `run`, or a test of local variables; the barrier
of `next_slot` only restricts the order of the steps and is left out.

That a call of the scheduler is one step is an assumption: it is what the source
does if `queue_lock` is held for the whole call (Sched.Serial). `get_mlq_proc` holds
it for its `dequeue` only, and Sched.Concurrent has its tests as steps of their own. -/
namespace Btlos

variable {CpuId Mem : Type*}

/-- What the configuration file asks for. A program that cannot be read makes
the loader exit. -/
structure Config where
  numProcesses : Nat
  program : ProcId → Option (List Inst)
  prio : ProcId → Nat
  timeSlot : Int

/-- Where the loader stands: about to load, about to hand in a process, done. -/
inductive LoaderLoc where
  | load
  | add
  | stopped
deriving DecidableEq

/-- `freed` and `executed` record the past and have no effect. -/
structure Os (CpuId Mem : Type*) where
  mlq : Mlq ProcId
  pcb : ProcId → Pcb
  cpu : CpuId → Cpu
  loader : LoaderLoc
  index : Nat
  done : Bool
  mem : Mem
  exited : Bool
  freed : List ProcId
  executed : ProcId → List Inst

def Os.initial (mem : Mem) : Os CpuId Mem where
  mlq := Mlq.initial
  pcb := fun _ => ⟨[], 0, 0⟩
  cpu := fun _ => Cpu.initial
  loader := .load
  index := 0
  done := false
  mem := mem
  exited := false
  freed := []
  executed := fun _ => []

def Os.prio (s : Os CpuId Mem) (proc : ProcId) : Nat := (s.pcb proc).prio

/-- The steps as an observer sees them. -/
inductive OsCall (CpuId : Type*) where
  | compute (cpu : CpuId)
  | free (cpu : CpuId) (proc : ProcId)
  | putProc (cpu : CpuId) (proc : ProcId)
  | getProc (cpu : CpuId) (result : Option ProcId)
  | run (cpu : CpuId) (proc : ProcId)
  | load (proc : ProcId)
  | addProc (proc : ProcId)
  | finish

variable [DecidableEq CpuId]

def Os.setCpu (s : Os CpuId Mem) (cpu : CpuId) (vars : Cpu) : Os CpuId Mem :=
  { s with cpu := Function.update s.cpu cpu vars }

/-- The steps of the parties. What an instruction does to the memory and which
status it gives is a parameter; the status -1 ends the whole program. Calls of
`get_proc` do not overlap: each is one step, which sees the queues and slots of
one moment and returns. -/
inductive OsMove (cfg : Config) (execute : ProcId → Inst → Mem → Int → Mem → Prop) :
    Os CpuId Mem → OsCall CpuId → Os CpuId Mem → Prop where
  | check {s : Os CpuId Mem} (c : CpuId) (hLoc : (s.cpu c).loc = .check) :
      OsMove cfg execute s (.compute c)
        (s.setCpu c ((s.cpu c).check fun proc => decide (s.pcb proc).Finished))
  | recheck {s : Os CpuId Mem} (c : CpuId) (hLoc : (s.cpu c).loc = .recheck) :
      OsMove cfg execute s (.compute c) (s.setCpu c ((s.cpu c).recheck cfg.timeSlot s.done))
  | free {s : Os CpuId Mem} {proc : ProcId} (c : CpuId) (hLoc : (s.cpu c).loc = .free)
      (hProc : (s.cpu c).proc = some proc) :
      OsMove cfg execute s (.free c proc)
        ({ s with freed := proc :: s.freed }.setCpu c { s.cpu c with loc := .fetch .finished })
  | putProc {s : Os CpuId Mem} {proc : ProcId} (c : CpuId) (hLoc : (s.cpu c).loc = .put)
      (hProc : (s.cpu c).proc = some proc) :
      OsMove cfg execute s (.putProc c proc)
        ({ s with mlq := Btlos.putProc s.prio s.mlq proc }.setCpu c
          { s.cpu c with loc := .fetch .overdue })
  | getProc {s : Os CpuId Mem} {t : Mlq ProcId} {result : Option ProcId} {why : Fetch}
      (fuel : Nat) (c : CpuId) (hLoc : (s.cpu c).loc = .fetch why)
      (hGet : Btlos.getProc fuel s.mlq = some (result, t)) :
      OsMove cfg execute s (.getProc c result)
        ({ s with mlq := t }.setCpu c ((s.cpu c).fetched why result))
  | run {s : Os CpuId Mem} {proc : ProcId} {ins : Inst} {next : Pcb} {stat : Int} {mem : Mem}
      (c : CpuId) (hLoc : (s.cpu c).loc = .run) (hProc : (s.cpu c).proc = some proc)
      (hStep : (s.pcb proc).step? = some (ins, next)) (hExecute : execute proc ins s.mem stat mem) :
      OsMove cfg execute s (.run c proc)
        ({ s with
            pcb := Function.update s.pcb proc next
            executed := Function.update s.executed proc (s.executed proc ++ [ins])
            mem := mem
            exited := stat == -1 }.setCpu c (s.cpu c).ran)
  | runNothing {s : Os CpuId Mem} {proc : ProcId} (c : CpuId) (hLoc : (s.cpu c).loc = .run)
      (hProc : (s.cpu c).proc = some proc) (hStep : (s.pcb proc).step? = none) :
      OsMove cfg execute s (.run c proc) (s.setCpu c (s.cpu c).ran)
  | load {s : Os CpuId Mem} {text : List Inst} (hLoc : s.loader = .load)
      (hMore : s.index < cfg.numProcesses) (hProgram : cfg.program s.index = some text) :
      OsMove cfg execute s (.load s.index)
        { s with
          pcb := Function.update s.pcb s.index ⟨text, 0, cfg.prio s.index⟩
          loader := .add }
  | loadFails {s : Os CpuId Mem} (hLoc : s.loader = .load) (hMore : s.index < cfg.numProcesses)
      (hProgram : cfg.program s.index = none) :
      OsMove cfg execute s (.load s.index) { s with exited := true }
  | addProc {s : Os CpuId Mem} (hLoc : s.loader = .add) :
      OsMove cfg execute s (.addProc s.index)
        { s with
          mlq := Btlos.addProc s.prio s.mlq s.index
          index := s.index + 1
          loader := .load }
  | finish {s : Os CpuId Mem} (hLoc : s.loader = .load) (hMore : ¬ s.index < cfg.numProcesses) :
      OsMove cfg execute s .finish { s with done := true, loader := .stopped }

/-- Nothing moves once the program has exited. -/
def OsStep (cfg : Config) (execute : ProcId → Inst → Mem → Int → Mem → Prop)
    (s : Os CpuId Mem) (call : OsCall CpuId) (t : Os CpuId Mem) : Prop :=
  s.exited = false ∧ OsMove cfg execute s call t

/-- The process that a CPU has. -/
def Os.holds (s : Os CpuId Mem) (c : CpuId) : Option ProcId := (s.cpu c).holds

/-- Where a process can be. -/
inductive Place (CpuId : Type*) where
  | queue (level : Fin maxPrio) (position : Nat)
  | cpu (c : CpuId)

def Os.At (s : Os CpuId Mem) : Place CpuId → ProcId → Prop
  | .queue level position, proc => (s.mlq.waiting level)[position]? = some proc
  | .cpu c, proc => s.holds c = some proc

/-- The process has been handed in and its PCB has not been freed. -/
def Os.Alive (s : Os CpuId Mem) (proc : ProcId) : Prop := proc < s.index ∧ proc ∉ s.freed

end Btlos
