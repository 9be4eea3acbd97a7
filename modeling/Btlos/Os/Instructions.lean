import Btlos.Os.Ownership
import Btlos.Vm.FrameAccounting

/-! The instructions of the processes on their memory. Instructions of different CPUs
run one after the other; with more than one CPU that is an assumption, since the
memory has no lock. Paging.FrameRace and Paging.Overlap have calls that overlap. -/
namespace Btlos

open Transition

/-- The memory call of an instruction, which has the arguments of `run`. CALC has none. -/
def Inst.memCall? (ins : Inst) : Option MemCall :=
  match ins.opcode with
  | .calc => none
  | .alloc => some (.pgalloc ins.arg0 ins.arg1)
  | .free => some (.pgfreeData ins.arg0)
  | .read => some (.pgread ins.arg0 ins.arg1 ins.arg2)
  | .write => some (.pgwrite (BitVec.ofNat 8 ins.arg0) ins.arg1 ins.arg2)

/-- What `run` does with its instruction, and the status that it gets. The instruction is
one step of the memory of all processes, so those of two CPUs do not overlap. -/
def runInst (proc : ProcId) (ins : Inst) (sys : System ProcId) (stat : Int)
    (sys' : System ProcId) : Prop :=
  match ins.memCall? with
  | none => stat = 0 ∧ sys' = sys
  | some call => ∃ u ok s', (call.run u (sys.caller proc)).code? = some (ok, s') ∧
      stat = (if ok then 0 else -1) ∧ sys' = sys.put proc s'

def ProcCall.memCall? : ProcCall → Option MemCall
  | .mem call => some call
  | .finish => none

namespace Processes

variable {Proc : Type*} [DecidableEq Proc]

/-- A step of a process with its return code. -/
def CodedStep (s : Processes Proc) (label : Proc × ProcCall × Bool) (t : Processes Proc) : Prop :=
  s.finished label.1 = false ∧
    match label.2.1 with
    | .mem call => ∃ u s', (call.run u (s.caller label.1)).code? = some (label.2.2, s') ∧
        t = { s with toSystem := s.put label.1 s' }
    | .finish => label.2.2 = true ∧
        t = { s with finished := Function.update s.finished label.1 true }

theorem CodedStep.frameStep {s t : Processes Proc} {label : Proc × ProcCall × Bool}
    (step : CodedStep s label t) : FrameStep s (label.1, label.2.1) t := by
  obtain ⟨proc, call, ok⟩ := label
  obtain ⟨hLive, hCall⟩ := step
  refine ⟨hLive, ?_⟩
  cases call with
  | mem call =>
      obtain ⟨u, s', hCode, hPut⟩ := hCall
      exact ⟨u, s', Outcome.state?_of_code? hCode, hPut⟩
  | finish => exact hCall.2

/-- The memory calls of one process, in order. -/
def callsOf (proc : Proc) (log : List (Proc × ProcCall × Bool)) : List MemCall :=
  log.filterMap fun entry => if entry.1 = proc then entry.2.1.memCall? else none

theorem callsOf_concat (proc : Proc) (log : List (Proc × ProcCall × Bool))
    (entry : Proc × ProcCall × Bool) :
    callsOf proc (log ++ [entry]) =
      callsOf proc log ++ (if entry.1 = proc then entry.2.1.memCall? else none).toList := by
  rw [callsOf, List.filterMap_append]
  cases h : if entry.1 = proc then entry.2.1.memCall? else none <;> simp [callsOf, h]

end Processes

variable {CpuId : Type*}

/-- The memory of the processes. The PCB of a process that has finished is freed. -/
def Os.processes (s : Os CpuId (System ProcId)) : Processes ProcId :=
  ⟨s.mem, fun proc => decide (proc ∈ s.freed)⟩

/-- The calls that the memory has got are those of the instructions executed so far, for
each process in its own order. The program exits at the first one that fails, or at a
program that cannot be read. -/
structure Os.Performed (cfg : Config) (memramsz memswpsz : Int) (s : Os CpuId (System ProcId))
    (log : List (ProcId × ProcCall × Bool)) : Prop where
  memory : Runs Processes.CodedStep (Processes.initial memramsz memswpsz) log s.processes
  order : ∀ proc, Processes.callsOf proc log = (s.executed proc).filterMap Inst.memCall?
  earlier : ∀ entry ∈ log.dropLast, entry.2.2 = true
  succeeded : s.exited = false → ∀ entry ∈ log, entry.2.2 = true
  aborted : s.exited = true → (∃ entry ∈ log, entry.2.2 = false) ∨
    s.index < cfg.numProcesses ∧ cfg.program s.index = none

section Step

variable {cfg : Config} {memramsz memswpsz : Int} {s t : Os CpuId (System ProcId)}
  {log : List (ProcId × ProcCall × Bool)}

theorem performed_initial :
    (Os.initial (System.initial memramsz memswpsz) : Os CpuId (System ProcId)).Performed
      cfg memramsz memswpsz [] where
  memory := Runs.nil
  order _ := rfl
  earlier := by simp
  succeeded _ := by simp
  aborted hExited := by cases hExited

/-- A step that the memory does not see. -/
private theorem Os.Performed.hidden (h : s.Performed cfg memramsz memswpsz log)
    (hRuns : s.exited = false) (hProcesses : t.processes = s.processes)
    (hOrder : ∀ proc, (t.executed proc).filterMap Inst.memCall? =
      (s.executed proc).filterMap Inst.memCall?)
    (hExited : t.exited = true → t.index < cfg.numProcesses ∧ cfg.program t.index = none) :
    t.Performed cfg memramsz memswpsz log where
  memory := by
    rw [hProcesses]
    exact h.memory
  order proc := (h.order proc).trans (hOrder proc).symm
  earlier := h.earlier
  succeeded _ := h.succeeded hRuns
  aborted hExit := Or.inr (hExited hExit)

/-- A step that the memory sees. -/
private theorem Os.Performed.shown (h : s.Performed cfg memramsz memswpsz log)
    (hRuns : s.exited = false) {entry : ProcId × ProcCall × Bool}
    (step : Processes.CodedStep s.processes entry t.processes)
    (hOrder : ∀ proc, (t.executed proc).filterMap Inst.memCall? =
      (s.executed proc).filterMap Inst.memCall? ++
        (if entry.1 = proc then entry.2.1.memCall? else none).toList)
    (hExited : t.exited = !entry.2.2) :
    t.Performed cfg memramsz memswpsz (log ++ [entry]) where
  memory := Runs.snoc h.memory step
  order proc := by rw [Processes.callsOf_concat, h.order proc, hOrder proc]
  earlier := by
    rw [List.dropLast_concat]
    exact h.succeeded hRuns
  succeeded hStill := by
    intro other hOther
    rcases List.mem_append.mp hOther with hOld | hNew
    · exact h.succeeded hRuns other hOld
    · rw [List.mem_singleton.mp hNew]
      simpa [hStill] using hExited
  aborted hExit := by
    refine Or.inl ⟨entry, List.mem_append_right _ (List.mem_singleton_self _), ?_⟩
    simpa [hExit] using hExited

private theorem memCalls_update (executed : ProcId → List Inst) (proc : ProcId) (ins : Inst)
    (other : ProcId) :
    (Function.update executed proc (executed proc ++ [ins]) other).filterMap Inst.memCall? =
      (executed other).filterMap Inst.memCall? ++
        (if proc = other then ins.memCall? else none).toList := by
  by_cases hSame : proc = other
  · subst hSame
    rw [Function.update_self, List.filterMap_append, if_pos rfl]
    cases h : ins.memCall? <;> simp [h]
  · simp [Function.update_of_ne (Ne.symm hSame), hSame]

variable [DecidableEq CpuId] {call : OsCall CpuId}

theorem Os.Performed.step (h : s.Performed cfg memramsz memswpsz log) (hOwned : s.Owned cfg)
    (step : OsStep cfg runInst s call t) :
    ∃ more, t.Performed cfg memramsz memswpsz (log ++ more) := by
  obtain ⟨hRuns, move⟩ := step
  have hSame : s.Performed cfg memramsz memswpsz (log ++ []) := by rwa [List.append_nil]
  cases move with
  | free c hLoc hProc =>
      have hHolds : s.holds c = some _ := (Cpu.holds_of_loc (by simp [hLoc])).trans hProc
      have hAlive := hOwned.exclusive.held_alive c _ hHolds
      refine ⟨[(_, .finish, true)], h.shown hRuns ⟨decide_eq_false hAlive.2, rfl, ?_⟩ ?_ ?_⟩
      · rw [Os.processes, Os.processes]
        congr 1
        funext other
        rw [Function.update_apply]
        split_ifs with hSame
        · simp [Os.setCpu, hSame]
        · simp [Os.setCpu, hSame]
      · intro proc
        simp [ProcCall.memCall?, Os.setCpu]
      · exact hRuns
  | @run proc ins next stat mem c hLoc hProc hStep hExecute =>
      have hHolds : s.holds c = some proc := (Cpu.holds_of_loc (by simp [hLoc])).trans hProc
      have hAlive := hOwned.exclusive.held_alive c proc hHolds
      cases hCall : ins.memCall? with
      | none =>
          simp only [runInst, hCall] at hExecute
          obtain ⟨rfl, rfl⟩ := hExecute
          refine ⟨[], hSame.hidden hRuns rfl (fun other => ?_) fun hExit => by cases hExit⟩
          refine (memCalls_update s.executed proc ins other).trans ?_
          simp [hCall]
      | some call =>
          simp only [runInst, hCall] at hExecute
          obtain ⟨u, ok, s', hCode, rfl, rfl⟩ := hExecute
          refine ⟨[(proc, .mem call, ok)],
            h.shown hRuns ⟨decide_eq_false hAlive.2, u, s', hCode, rfl⟩ (fun other => ?_) ?_⟩
          · refine (memCalls_update s.executed proc ins other).trans ?_
            rw [hCall]
            rfl
          · cases ok <;> rfl
  | loadFails hLoc hMore hProgram =>
      exact ⟨[], hSame.hidden hRuns rfl (fun _ => rfl) fun _ => ⟨hMore, hProgram⟩⟩
  | _ =>
      exact ⟨[], hSame.hidden hRuns rfl (fun _ => rfl) fun hExit =>
        absurd (hRuns.symm.trans hExit) Bool.false_ne_true⟩

/-- In every run, with any number of CPUs and in every order of the steps, the memory gets
the memory calls of the programs, each of the instructions executed so far once and for
each process in the order of its program. No process that has been freed makes a call. -/
theorem performed_run {steps : List (OsCall CpuId)}
    (run : Runs (OsStep cfg runInst) (Os.initial (System.initial memramsz memswpsz)) steps s) :
    ∃ log, s.Performed cfg memramsz memswpsz log ∧
      ∀ proc, s.Loaded proc → ∃ text, cfg.program proc = some text ∧ s.executed proc <+: text := by
  have hBoth := run.invariant (fun s => s.Owned cfg ∧ ∃ log, s.Performed cfg memramsz memswpsz log)
    ⟨owned_initial cfg _, [], performed_initial⟩ fun s label t h step => by
      obtain ⟨hOwned, log, hLog⟩ := h
      obtain ⟨more, hMore⟩ := hLog.step hOwned step
      exact ⟨owned_step hOwned step, log ++ more, hMore⟩
  obtain ⟨hOwned, log, hLog⟩ := hBoth
  refine ⟨log, hLog, fun proc hLoaded => ⟨_, hOwned.program proc hLoaded, ?_⟩⟩
  rw [(hOwned.executed proc).2]
  exact List.take_prefix _ _

end Step

section Example

/-- One process that allocates 100 bytes. -/
def oneAlloc : Config where
  numProcesses := 1
  program := fun _ => some [⟨.alloc, 100, 0, 0⟩]
  prio := fun _ => 0
  timeSlot := 1

/-- The allocation succeeds on a RAM of four frames. -/
theorem oneAlloc_run : ∃ s : Os Unit (System ProcId),
    Runs (OsStep oneAlloc runInst) (Os.initial (System.initial 1024 4096))
        [.load 0, .addProc 0, .compute (), .getProc () (some 0), .compute (), .run () 0] s ∧
      s.exited = false ∧ s.executed 0 = [⟨.alloc, 100, 0, 0⟩] := by
  let start : System ProcId := System.initial 1024 4096
  have hEval : (((MemCall.pgalloc 100 0).run ⟨2, 0, 0, 0⟩
      (start.caller 0)).code?.any fun result => result.1) = true := by
    decide +kernel
  obtain ⟨⟨ok, s'⟩, hCode, rfl⟩ := (Option.any_eq_true _ _).mp hEval
  exact ⟨_, Runs.cons ⟨rfl, .load rfl (by decide) rfl⟩ <|
    Runs.cons ⟨rfl, .addProc rfl⟩ <|
    Runs.cons ⟨rfl, .check () rfl⟩ <|
    Runs.cons ⟨rfl, .getProc 1 () rfl rfl⟩ <|
    Runs.cons ⟨rfl, .recheck () rfl⟩ <|
    Runs.one ⟨rfl, .run () rfl rfl rfl ⟨⟨2, 0, 0, 0⟩, true, s', hCode, rfl, rfl⟩⟩, rfl, rfl⟩

theorem performed_run_alloc : ∃ s : Os Unit (System ProcId),
    s.executed 0 = [⟨.alloc, 100, 0, 0⟩] ∧ ∃ log, s.Performed oneAlloc 1024 4096 log ∧
      ∀ proc, s.Loaded proc →
        ∃ text, oneAlloc.program proc = some text ∧ s.executed proc <+: text := by
  obtain ⟨s, run, -, hExecuted⟩ := oneAlloc_run
  exact ⟨s, hExecuted, performed_run run⟩

end Example

end Btlos
