import Btlos.Os.Ownership

/-! The end of the simulation: all processes have been loaded, none waits, and those
that the CPUs have are finished. A CPU stops when it comes to the second test of its
loop without a process; the branch for a CPU that had none does not get there. -/
namespace Btlos

open Transition

variable {CpuId Mem : Type*}

/-- Nothing is left to do, in a program that has not exited. -/
structure Os.Quiet (s : Os CpuId Mem) : Prop where
  exited : s.exited = false
  done : s.done = true
  waiting : ∀ level, s.mlq.waiting level = []
  finished : ∀ c proc, s.holds c = some proc → (s.pcb proc).Finished

/-- The steps of one CPU. -/
def OsCall.IsOf (c : CpuId) : OsCall CpuId → Prop
  | .compute cpu | .free cpu _ | .putProc cpu _ | .getProc cpu _ | .run cpu _ => cpu = c
  | .load _ | .addProc _ | .finish => False

/-- The CPU is on its way to the second test with no process left. -/
def Cpu.Leaving (cpu : Cpu) : Prop :=
  match cpu.loc with
  | .check => cpu.proc ≠ none
  | .free | .put => True
  | .fetch why => why ≠ .idle
  | .recheck => cpu.proc = none
  | .run => False
  | .stopped => True

variable [DecidableEq CpuId]

/-- From here on the CPU does not wait for another slot, and at any time its own steps
lead out of the loop. A step to the first test of the loop is one that has waited. -/
structure Os.Leaves (cfg : Config) (execute : ProcId → Inst → Mem → Int → Mem → Prop)
    (s : Os CpuId Mem) (c : CpuId) : Prop where
  never_waits : ∀ calls u call t, Runs (OsStep cfg execute) s calls u →
    OsStep cfg execute u call t → call.IsOf c → (t.cpu c).loc ≠ .check
  stops : ∀ calls u, Runs (OsStep cfg execute) s calls u →
    ∃ own t, Runs (OsStep cfg execute) u own t ∧ (∀ call ∈ own, call.IsOf c) ∧
      own.length ≤ 4 ∧ (t.cpu c).loc = .stopped

/-! What the places of the CPUs say of their processes -/

theorem Pcb.Finished.step? {proc : Pcb} (h : proc.Finished) : proc.step? = none := by
  rw [Pcb.step?, dif_neg (Nat.not_lt.mpr (Nat.le_of_eq (Eq.symm h)))]

/-- A process is freed when it is finished, put back when it is not, and there when
it is run. -/
def Cpu.Consistent (cpu : Cpu) (pcb : ProcId → Pcb) : Prop :=
  match cpu.loc with
  | .free => ∃ proc, cpu.proc = some proc ∧ (pcb proc).Finished
  | .put => ∃ proc, cpu.proc = some proc ∧ ¬ (pcb proc).Finished
  | .run => ∃ proc, cpu.proc = some proc
  | _ => True

structure Os.Consistent (s : Os CpuId Mem) : Prop where
  loader : s.done = true → s.loader = .stopped
  cpu : ∀ c, (s.cpu c).Consistent s.pcb

section Invariant

variable {pcb : ProcId → Pcb}

omit [DecidableEq CpuId] in
theorem consistent_initial (mem : Mem) : (Os.initial mem : Os CpuId Mem).Consistent :=
  ⟨nofun, fun _ => trivial⟩

theorem Cpu.consistent_check (cpu : Cpu) :
    (cpu.check fun proc => decide (pcb proc).Finished).Consistent pcb := by
  rcases cpu with ⟨loc, proc, timeLeft⟩
  cases proc with
  | none => exact trivial
  | some proc =>
      simp only [Cpu.check, decide_eq_true_eq]
      split_ifs with hFinished
      · exact ⟨proc, rfl, hFinished⟩
      · exact ⟨proc, rfl, hFinished⟩
      · exact trivial

/-- With a process the second test leads to `run`. -/
theorem Cpu.recheck_some {cpu : Cpu} {proc : ProcId} (h : cpu.proc = some proc) (timeSlot : Int)
    (done : Bool) :
    (cpu.recheck timeSlot done).loc = .run ∧ (cpu.recheck timeSlot done).proc = some proc := by
  rcases cpu with ⟨loc, here, timeLeft⟩
  obtain rfl : here = some proc := h
  simp only [Cpu.recheck, reduceCtorEq, false_and, if_false]
  split_ifs
  · exact ⟨rfl, rfl⟩
  · exact ⟨rfl, rfl⟩

theorem Cpu.consistent_recheck (cpu : Cpu) (timeSlot : Int) (done : Bool) :
    (cpu.recheck timeSlot done).Consistent pcb := by
  cases hProc : cpu.proc with
  | none =>
      rw [Cpu.recheck, hProc]
      cases done <;> exact trivial
  | some proc =>
      obtain ⟨hLoc, hSame⟩ := Cpu.recheck_some hProc timeSlot done
      rw [Cpu.Consistent, hLoc]
      exact ⟨proc, hSame⟩

theorem Cpu.consistent_fetched (cpu : Cpu) (why : Fetch) (result : Option ProcId) :
    (cpu.fetched why result).Consistent pcb := by
  cases why <;> cases result <;> exact trivial

/-- The PCB of the CPU's process stays as it is. -/
theorem Cpu.Consistent.congr {cpu : Cpu} {pcb' : ProcId → Pcb} (h : cpu.Consistent pcb)
    (hSame : ∀ proc, cpu.holds = some proc → pcb' proc = pcb proc) : cpu.Consistent pcb' := by
  rcases cpu with ⟨loc, proc, timeLeft⟩
  cases loc with
  | free =>
      obtain ⟨proc, hProc, hFinished⟩ := h
      exact ⟨proc, hProc, (hSame proc hProc).symm ▸ hFinished⟩
  | put =>
      obtain ⟨proc, hProc, hUnfinished⟩ := h
      exact ⟨proc, hProc, (hSame proc hProc).symm ▸ hUnfinished⟩
  | run => exact h
  | check | fetch | recheck | stopped => exact trivial

variable {cfg : Config} {execute : ProcId → Inst → Mem → Int → Mem → Prop} {s t : Os CpuId Mem}
  {call : OsCall CpuId}

/-- A step of one CPU. -/
private theorem Os.Consistent.move (h : s.Consistent) (c : CpuId) {vars : Cpu}
    (hCpu : t.cpu = Function.update s.cpu c vars)
    (hLoader : t.loader = s.loader) (hDone : t.done = s.done)
    (hPcb : ∀ other, other ≠ c → ∀ proc, s.holds other = some proc → t.pcb proc = s.pcb proc)
    (hVars : vars.Consistent t.pcb) : t.Consistent := by
  constructor
  · rw [hDone, hLoader]
    exact h.loader
  · intro other
    rw [hCpu]
    by_cases hOther : other = c
    · subst hOther
      rw [Function.update_self]
      exact hVars
    · rw [Function.update_of_ne hOther]
      exact (h.cpu other).congr (hPcb other hOther)

theorem consistent_step (hOwned : s.Owned cfg) (h : s.Consistent)
    (step : OsStep cfg execute s call t) : t.Consistent := by
  obtain ⟨-, move⟩ := step
  cases move with
  | check c hLoc =>
      exact h.move c rfl rfl rfl (fun _ _ _ _ => rfl) (Cpu.consistent_check _)
  | recheck c hLoc =>
      exact h.move c rfl rfl rfl (fun _ _ _ _ => rfl) (Cpu.consistent_recheck _ _ _)
  | free c hLoc hProc | putProc c hLoc hProc =>
      exact h.move c rfl rfl rfl (fun _ _ _ _ => rfl) trivial
  | getProc fuel c hLoc hGet =>
      exact h.move c rfl rfl rfl (fun _ _ _ _ => rfl) (Cpu.consistent_fetched _ _ _)
  | runNothing c hLoc hProc hStep =>
      exact h.move c rfl rfl rfl (fun _ _ _ _ => rfl) trivial
  | run c hLoc hProc hStep hExecute =>
      refine h.move c rfl rfl rfl ?_ trivial
      intro other hOther proc hHolds
      apply Function.update_of_ne
      rintro rfl
      apply hOther
      apply hOwned.exclusive.unique other c proc hHolds
      exact (Cpu.holds_of_loc (by simp [hLoc])).trans hProc
  | load hLoc hMore hProgram =>
      refine ⟨fun hDone => ?_, fun c => (h.cpu c).congr fun proc hHolds => ?_⟩
      · have hStopped := h.loader hDone
        rw [hLoc] at hStopped
        cases hStopped
      · apply Function.update_of_ne
        rintro rfl
        exact (hOwned.exclusive.held_alive c _ hHolds).1.false
  | loadFails hLoc hMore hProgram => exact ⟨h.loader, h.cpu⟩
  | addProc hLoc =>
      refine ⟨fun hDone => ?_, h.cpu⟩
      have hStopped := h.loader hDone
      rw [hLoc] at hStopped
      cases hStopped
  | finish hLoc hMore => exact ⟨fun _ => rfl, h.cpu⟩

end Invariant

/-! The steps that are left -/

/-- What a CPU does next when the queues are empty and the loader is done. -/
def Cpu.windDown (cpu : Cpu) (finished : ProcId → Bool) (timeSlot : Int) : Cpu :=
  match cpu.loc with
  | .check => cpu.check finished
  | .free => { cpu with loc := .fetch .finished }
  | .put => { cpu with loc := .fetch .overdue }
  | .fetch why => cpu.fetched why none
  | .recheck => cpu.recheck timeSlot true
  | .run => cpu.ran
  | .stopped => cpu

/-- A quiet state that a run has led to. -/
structure Os.Ended (cfg : Config) (s : Os CpuId Mem) : Prop where
  quiet : s.Quiet
  owned : s.Owned cfg
  consistent : s.Consistent

def Os.windDown (s : Os CpuId Mem) (cfg : Config) (c : CpuId) : Cpu :=
  (s.cpu c).windDown (fun proc => decide (s.pcb proc).Finished) cfg.timeSlot

section WindDown

variable {cfg : Config} {execute : ProcId → Inst → Mem → Int → Mem → Prop} {s t : Os CpuId Mem}
  {call : OsCall CpuId} {c : CpuId}

/-- No CPU gets a process. -/
theorem Cpu.holds_windDown {cpu : Cpu} {finished : ProcId → Bool} {timeSlot : Int} {proc : ProcId}
    (h : (cpu.windDown finished timeSlot).holds = some proc) : cpu.holds = some proc := by
  rw [Cpu.windDown] at h
  cases hLoc : cpu.loc with
  | check =>
      rw [hLoc] at h
      rwa [Cpu.holds_check hLoc] at h
  | recheck =>
      rw [hLoc] at h
      rwa [Cpu.holds_recheck hLoc] at h
  | run =>
      rw [hLoc] at h
      rwa [Cpu.holds_ran hLoc] at h
  | fetch why =>
      rw [hLoc] at h
      rw [Cpu.holds_fetched] at h
      cases h
  | free | put =>
      rw [hLoc] at h
      cases h
  | stopped =>
      rw [hLoc] at h
      exact h

/-- A step of one CPU that leaves everything else as it was. -/
private theorem Os.Quiet.windDown (h : s.Quiet)
    (hCpu : t.cpu = Function.update s.cpu c (s.windDown cfg c))
    (hPcb : t.pcb = s.pcb) (hExited : t.exited = s.exited) (hDone : t.done = s.done)
    (hMlq : t.mlq = s.mlq) : t.Quiet := by
  refine ⟨hExited.trans h.exited, hDone.trans h.done, fun level => ?_, fun other proc hHolds => ?_⟩
  · rw [hMlq]
    exact h.waiting level
  · rw [hPcb]
    rw [Os.holds, hCpu] at hHolds
    by_cases hOther : other = c
    · subst hOther
      rw [Function.update_self] at hHolds
      exact h.finished other proc (Cpu.holds_windDown hHolds)
    · rw [Function.update_of_ne hOther] at hHolds
      exact h.finished other proc hHolds

private theorem Os.Ended.step_eq (h : s.Ended cfg) (step : OsStep cfg execute s call t) :
    ∃ c, call.IsOf c ∧ t.cpu = Function.update s.cpu c (s.windDown cfg c) ∧ t.pcb = s.pcb ∧
      t.exited = s.exited ∧ t.done = s.done ∧ t.mlq = s.mlq := by
  obtain ⟨-, move⟩ := step
  have hStopped := h.consistent.loader h.quiet.done
  cases move with
  | check c hLoc =>
      refine ⟨c, rfl, ?_, rfl, rfl, rfl, rfl⟩
      rw [Os.windDown, Cpu.windDown, hLoc]
      rfl
  | recheck c hLoc =>
      refine ⟨c, rfl, ?_, rfl, rfl, rfl, rfl⟩
      rw [Os.windDown, Cpu.windDown, hLoc, h.quiet.done]
      rfl
  | free c hLoc hProc | runNothing c hLoc hProc =>
      refine ⟨c, rfl, ?_, rfl, rfl, rfl, rfl⟩
      rw [Os.windDown, Cpu.windDown, hLoc]
      rfl
  | getProc fuel c hLoc hGet =>
      rw [Btlos.getProc, getMlqProc, if_pos (queueEmpty_eq_one.mpr h.quiet.waiting)] at hGet
      cases hGet
      refine ⟨c, rfl, ?_, rfl, rfl, rfl, rfl⟩
      rw [Os.windDown, Cpu.windDown, hLoc]
      rfl
  | putProc c hLoc hProc =>
      have hUnfinished := h.consistent.cpu c
      rw [Cpu.Consistent, hLoc] at hUnfinished
      obtain ⟨proc, hSame, hNot⟩ := hUnfinished
      apply absurd (h.quiet.finished c proc _) hNot
      exact (Cpu.holds_of_loc (by simp [hLoc])).trans hSame
  | run c hLoc hProc hStep hExecute =>
      have hHolds := (Cpu.holds_of_loc (by simp [hLoc])).trans hProc
      rw [(h.quiet.finished c _ hHolds).step?] at hStep
      cases hStep
  | load hLoc | loadFails hLoc | addProc hLoc | finish hLoc =>
      rw [hStopped] at hLoc
      cases hLoc

/-- Every step from such a state is one of a CPU, and takes it one place further. -/
theorem Os.Ended.step (h : s.Ended cfg) (step : OsStep cfg execute s call t) :
    ∃ c, call.IsOf c ∧ t.cpu = Function.update s.cpu c (s.windDown cfg c) ∧ t.pcb = s.pcb ∧
      t.Ended cfg := by
  obtain ⟨c, hCall, hCpu, hPcb, hExited, hDone, hMlq⟩ := h.step_eq step
  exact ⟨c, hCall, hCpu, hPcb, h.quiet.windDown hCpu hPcb hExited hDone hMlq,
    owned_step h.owned step, consistent_step h.owned h.consistent step⟩

/-- A CPU that has not stopped can take its next step. -/
theorem Os.Ended.exists_step (h : s.Ended cfg) (execute : ProcId → Inst → Mem → Int → Mem → Prop)
    (hLoc : (s.cpu c).loc ≠ .stopped) : ∃ call t, OsStep cfg execute s call t ∧ call.IsOf c := by
  have hCpu := h.consistent.cpu c
  rw [Cpu.Consistent] at hCpu
  cases hHere : (s.cpu c).loc with
  | check => exact ⟨_, _, ⟨h.quiet.exited, .check c hHere⟩, rfl⟩
  | recheck => exact ⟨_, _, ⟨h.quiet.exited, .recheck c hHere⟩, rfl⟩
  | free =>
      rw [hHere] at hCpu
      obtain ⟨proc, hProc, -⟩ := hCpu
      exact ⟨_, _, ⟨h.quiet.exited, .free c hHere hProc⟩, rfl⟩
  | put =>
      rw [hHere] at hCpu
      obtain ⟨proc, hProc, -⟩ := hCpu
      exact ⟨_, _, ⟨h.quiet.exited, .putProc c hHere hProc⟩, rfl⟩
  | fetch why =>
      have hGet : Btlos.getProc 0 s.mlq = some (none, s.mlq) :=
        if_pos (queueEmpty_eq_one.mpr h.quiet.waiting)
      exact ⟨_, _, ⟨h.quiet.exited, .getProc 0 c hHere hGet⟩, rfl⟩
  | run =>
      rw [hHere] at hCpu
      obtain ⟨proc, hProc⟩ := hCpu
      have hHolds := (Cpu.holds_of_loc (by simp [hHere])).trans hProc
      have hNone := (h.quiet.finished c proc hHolds).step?
      exact ⟨_, _, ⟨h.quiet.exited, .runNothing c hHere hProc hNone⟩, rfl⟩
  | stopped => exact absurd hHere hLoc

omit [DecidableEq CpuId] in
theorem OsCall.IsOf.unique {first second : CpuId} (h : call.IsOf first) (h' : call.IsOf second) :
    first = second := by
  cases call with
  | compute | free | putProc | getProc | run => exact h.symm.trans h'
  | load | addProc | finish => exact h.elim

/-- The next step of a CPU that has not stopped. -/
theorem Os.Ended.next (h : s.Ended cfg) (execute : ProcId → Inst → Mem → Int → Mem → Prop)
    (hLoc : (s.cpu c).loc ≠ .stopped) :
    ∃ call t, OsStep cfg execute s call t ∧ call.IsOf c ∧ t.cpu c = s.windDown cfg c ∧
      t.Ended cfg := by
  obtain ⟨call, t, step, hCall⟩ := h.exists_step execute hLoc
  obtain ⟨other, hOther, hCpu, -, hEnded⟩ := h.step step
  obtain rfl := hCall.unique hOther
  refine ⟨call, t, step, hCall, ?_, hEnded⟩
  rw [hCpu, Function.update_self]

/-- The steps that are left up to the end of the loop. -/
def Cpu.distance (cpu : Cpu) : Nat :=
  match cpu.loc with
  | .check => 4
  | .free | .put => 3
  | .fetch _ => 2
  | .recheck => 1
  | .run | .stopped => 0

/-- On the way out every step leads further, and none to another slot. -/
theorem Cpu.Leaving.windDown {cpu : Cpu} {pcb : ProcId → Pcb} (h : cpu.Leaving)
    (hCpu : cpu.Consistent pcb) (hFinished : ∀ proc, cpu.holds = some proc → (pcb proc).Finished)
    (timeSlot : Int) :
    (cpu.windDown (fun proc => decide (pcb proc).Finished) timeSlot).Leaving ∧
      (cpu.windDown (fun proc => decide (pcb proc).Finished) timeSlot).loc ≠ .check ∧
      (cpu.loc ≠ .stopped →
        (cpu.windDown (fun proc => decide (pcb proc).Finished) timeSlot).distance <
          cpu.distance) := by
  rcases cpu with ⟨loc, proc, timeLeft⟩
  cases loc with
  | check =>
      cases proc with
      | none => exact absurd rfl h
      | some proc =>
          have hNext : Cpu.windDown ⟨.check, some proc, timeLeft⟩
              (fun proc => decide (pcb proc).Finished) timeSlot = ⟨.free, some proc, timeLeft⟩ := by
            simp [Cpu.windDown, Cpu.check, hFinished proc rfl]
          rw [hNext]
          exact ⟨trivial, by simp, fun _ => Nat.lt_succ_self 3⟩
  | free =>
      exact ⟨by simp [Cpu.windDown, Cpu.Leaving], by simp [Cpu.windDown],
        fun _ => Nat.lt_succ_self 2⟩
  | put =>
      obtain ⟨proc, hProc, hNot⟩ := hCpu
      exact absurd (hFinished proc hProc) hNot
  | fetch why =>
      cases why with
      | idle => exact absurd rfl h
      | finished | overdue =>
          exact ⟨rfl, by simp [Cpu.windDown, Cpu.fetched], fun _ => Nat.lt_succ_self 1⟩
  | recheck =>
      obtain rfl : proc = none := h
      exact ⟨trivial, by simp [Cpu.windDown, Cpu.recheck], fun _ => Nat.lt_succ_self 0⟩
  | run => exact h.elim
  | stopped => exact ⟨trivial, by simp [Cpu.windDown], fun hLoc => absurd rfl hLoc⟩

theorem Os.Ended.leaving_run (h : s.Ended cfg) (hLeaving : (s.cpu c).Leaving)
    {calls : List (OsCall CpuId)} (run : Runs (OsStep cfg execute) s calls t) :
    t.Ended cfg ∧ (t.cpu c).Leaving := by
  refine run.invariant (fun t => t.Ended cfg ∧ (t.cpu c).Leaving) ⟨h, hLeaving⟩ ?_
  rintro u call t ⟨hEnded, hLeaving⟩ step
  obtain ⟨other, -, hCpu, -, hNext⟩ := hEnded.step step
  refine ⟨hNext, ?_⟩
  rw [hCpu]
  by_cases hOther : c = other
  · subst hOther
    rw [Function.update_self]
    exact (hLeaving.windDown (hEnded.consistent.cpu c) (hEnded.quiet.finished c) _).1
  · rwa [Function.update_of_ne hOther]

/-- The CPU leaves the loop by its own steps. -/
theorem Os.Ended.stops (h : s.Ended cfg) (execute : ProcId → Inst → Mem → Int → Mem → Prop)
    (hLeaving : (s.cpu c).Leaving) :
    ∃ own t, Runs (OsStep cfg execute) s own t ∧ (∀ call ∈ own, call.IsOf c) ∧
      own.length ≤ (s.cpu c).distance ∧ (t.cpu c).loc = .stopped := by
  induction hDistance : (s.cpu c).distance using Nat.strongRecOn generalizing s with
  | ind distance ih =>
      by_cases hLoc : (s.cpu c).loc = .stopped
      · exact ⟨[], s, Runs.nil, nofun, Nat.zero_le _, hLoc⟩
      · obtain ⟨call, u, step, hCall, hCpu, hEnded⟩ := h.next execute hLoc
        obtain ⟨hNext, -, hLess⟩ :=
          hLeaving.windDown (h.consistent.cpu c) (h.quiet.finished c) cfg.timeSlot
        have hCloser : (u.cpu c).distance < distance := by
          rw [hCpu, ← hDistance]
          exact hLess hLoc
        have hStill : (u.cpu c).Leaving := by
          rw [hCpu]
          exact hNext
        obtain ⟨own, t, run, hOwn, hLength, hStopped⟩ := ih _ hCloser hEnded hStill rfl
        refine ⟨call :: own, t, Runs.cons step run, ?_, Nat.succ_le_of_lt (by omega), hStopped⟩
        intro other hOther
        rcases List.mem_cons.mp hOther with rfl | hOther
        · exact hCall
        · exact hOwn other hOther

theorem Cpu.distance_le (cpu : Cpu) : cpu.distance ≤ 4 := by
  rw [Cpu.distance]
  split <;> decide

theorem Os.Ended.leaves (h : s.Ended cfg) (execute : ProcId → Inst → Mem → Int → Mem → Prop)
    (hLeaving : (s.cpu c).Leaving) : s.Leaves cfg execute c := by
  constructor
  · intro calls u call t run step hCall
    obtain ⟨hEnded, hStill⟩ := h.leaving_run hLeaving run
    obtain ⟨other, hOther, hCpu, -, -⟩ := hEnded.step step
    obtain rfl := hCall.unique hOther
    rw [hCpu, Function.update_self]
    exact (hStill.windDown (hEnded.consistent.cpu c) (hEnded.quiet.finished c) _).2.1
  · intro calls u run
    obtain ⟨hEnded, hStill⟩ := h.leaving_run hLeaving run
    obtain ⟨own, t, hRun, hOwn, hLength, hStopped⟩ := hEnded.stops execute hStill
    exact ⟨own, t, hRun, hOwn, Nat.le_trans hLength (u.cpu c).distance_le, hStopped⟩

/-- What is known of a CPU that leaves is known of it after its next step. -/
private theorem Os.Leaves.next (h : s.Leaves cfg execute c) (hEnded : s.Ended cfg)
    (hLoc : (s.cpu c).loc ≠ .stopped) :
    (s.windDown cfg c).loc ≠ .check ∧
      ∃ t : Os CpuId Mem, t.Ended cfg ∧ t.cpu c = s.windDown cfg c ∧ t.Leaves cfg execute c := by
  obtain ⟨call, t, step, hCall, hCpu, hNext⟩ := hEnded.next execute hLoc
  refine ⟨hCpu ▸ h.never_waits [] s call t Runs.nil step hCall, t, hNext, hCpu, ?_, ?_⟩
  · intro calls u other v run
    exact h.never_waits (call :: calls) u other v (Runs.cons step run)
  · intro calls u run
    exact h.stops (call :: calls) u (Runs.cons step run)

/-- A CPU that leaves does not stand before `run`. -/
private theorem Os.Leaves.not_run (h : s.Leaves cfg execute c) (hEnded : s.Ended cfg) :
    (s.cpu c).loc ≠ .run := by
  intro hLoc
  apply (h.next hEnded (by simp [hLoc])).1
  rw [Os.windDown, Cpu.windDown, hLoc]
  rfl

/-- A CPU that leaves does not stand in the branch for a CPU without a process. -/
private theorem Os.Leaves.not_idle (h : s.Leaves cfg execute c) (hEnded : s.Ended cfg) :
    (s.cpu c).loc ≠ .fetch .idle := by
  intro hLoc
  apply (h.next hEnded (by simp [hLoc])).1
  rw [Os.windDown, Cpu.windDown, hLoc]
  rfl

theorem Os.Leaves.leaving (h : s.Leaves cfg execute c) (hEnded : s.Ended cfg) :
    (s.cpu c).Leaving := by
  rw [Cpu.Leaving]
  cases hLoc : (s.cpu c).loc with
  | free | put | stopped => exact trivial
  | run => exact h.not_run hEnded hLoc
  | fetch why =>
      rintro rfl
      exact h.not_idle hEnded hLoc
  | check =>
      intro hNone
      obtain ⟨-, t, hNext, hCpu, hLeaves⟩ := h.next hEnded (by simp [hLoc])
      apply hLeaves.not_idle hNext
      rw [hCpu, Os.windDown, Cpu.windDown, hLoc]
      simp only [Cpu.check, hNone]
  | recheck =>
      cases hProc : (s.cpu c).proc with
      | none => rfl
      | some proc =>
          obtain ⟨-, t, hNext, hCpu, hLeaves⟩ := h.next hEnded (by simp [hLoc])
          apply absurd _ (hLeaves.not_run hNext)
          rw [hCpu, Os.windDown, Cpu.windDown, hLoc]
          exact (Cpu.recheck_some hProc _ _).1

end WindDown

theorem ended_of_run {cfg : Config} {execute : ProcId → Inst → Mem → Int → Mem → Prop} {mem : Mem}
    {calls : List (OsCall CpuId)} {s : Os CpuId Mem}
    (run : Runs (OsStep cfg execute) (Os.initial mem) calls s) (hQuiet : s.Quiet) :
    s.Ended cfg := by
  have hBoth := run.invariant (fun s => s.Owned cfg ∧ s.Consistent)
    ⟨owned_initial cfg mem, consistent_initial mem⟩ fun _ _ _ h step =>
      ⟨owned_step h.1 step, consistent_step h.1 h.2 step⟩
  exact ⟨hQuiet, hBoth.1, hBoth.2⟩

/-- When all work is done, a CPU leaves its loop without waiting for another slot
exactly when it is on its way to the second test with no process left. -/
theorem leaves_iff {cfg : Config} {execute : ProcId → Inst → Mem → Int → Mem → Prop} {mem : Mem}
    {calls : List (OsCall CpuId)} {s : Os CpuId Mem}
    (run : Runs (OsStep cfg execute) (Os.initial mem) calls s) (hQuiet : s.Quiet) (c : CpuId) :
    s.Leaves cfg execute c ↔ (s.cpu c).Leaving := by
  have hEnded := ended_of_run run hQuiet
  exact ⟨fun h => h.leaving hEnded, hEnded.leaves execute⟩

/-- The only process has been run to its end before the loader is done. -/
theorem leaves_iff_finished : ∃ s : Os Unit Nat,
    Runs (OsStep (calculations 1) calcSucceeds) (Os.initial 0)
        [.load 0, .addProc 0, .compute (), .getProc () (some 0), .compute (), .run () 0,
          .finish] s ∧
      s.Quiet ∧ (s.Leaves (calculations 1) calcSucceeds () ↔ (s.cpu ()).Leaving) ∧
      (s.cpu ()).Leaving := by
  have hRun : ∃ s : Os Unit Nat,
      Runs (OsStep (calculations 1) calcSucceeds) (Os.initial 0)
          [.load 0, .addProc 0, .compute (), .getProc () (some 0), .compute (), .run () 0,
            .finish] s ∧
        s.Quiet ∧ (s.cpu ()).Leaving := by
    refine ⟨_, Runs.cons ⟨rfl, .load rfl (by decide) rfl⟩ <|
      Runs.cons ⟨rfl, .addProc rfl⟩ <|
      Runs.cons ⟨rfl, .check () rfl⟩ <|
      Runs.cons ⟨rfl, .getProc 1 () rfl rfl⟩ <|
      Runs.cons ⟨rfl, .recheck () rfl⟩ <|
      Runs.cons ⟨rfl, .run () rfl rfl rfl ⟨rfl, rfl⟩⟩ <|
      Runs.one ⟨rfl, .finish rfl (by decide)⟩, ⟨rfl, rfl, ?_, ?_⟩, nofun⟩
    · exact queueEmpty_eq_one.mp (by decide +kernel)
    · intro c proc hHolds
      cases hHolds
      rfl
  obtain ⟨s, run, hQuiet, hLeaving⟩ := hRun
  exact ⟨s, run, hQuiet, leaves_iff run hQuiet (), hLeaving⟩

/-- Without any process the CPU waits for one slot after the other. -/
theorem idle_waits : ∃ s : Os Unit Nat,
    Runs (OsStep { calculations 0 with numProcesses := 0 } calcSucceeds) (Os.initial 0)
        [.finish] s ∧
      s.Quiet ∧ (s.cpu ()).loc ≠ .stopped ∧
      (∃ t : Os Unit Nat,
        Runs (OsStep { calculations 0 with numProcesses := 0 } calcSucceeds) s
          [.compute (), .getProc () none] t ∧ t.cpu () = s.cpu ()) ∧
      ¬ s.Leaves { calculations 0 with numProcesses := 0 } calcSucceeds () := by
  refine ⟨_, Runs.one ⟨rfl, .finish rfl (by decide)⟩, ⟨rfl, rfl, fun _ => rfl, nofun⟩, nofun,
    ⟨_, Runs.cons ⟨rfl, .check () rfl⟩ <| Runs.one ⟨rfl, .getProc 0 () rfl rfl⟩, rfl⟩, ?_⟩
  intro hLeaves
  exact hLeaves.never_waits [.compute ()] _ (.getProc () none) _
    (Runs.one ⟨rfl, .check () rfl⟩) ⟨rfl, .getProc 0 () rfl rfl⟩ rfl rfl

end Btlos
