import Btlos.Library.Transition
import Btlos.Os.Cpu

/-! One CPU with its calls of `next_slot`. What `get_proc` returns, what the others
have done to a process before, and when `done` is set are left open. -/
namespace Btlos

open Transition

/-- A PCB whose program counter is within its code or at its end. -/
structure LoadedPcb extends Pcb where
  pc_le : pc ≤ text.length

/-- The PCB after `run`, which does nothing for a process that has finished. -/
def LoadedPcb.run (proc : LoadedPcb) : LoadedPcb where
  toPcb := match proc.step? with
    | some (_, next) => next
    | none => proc.toPcb
  pc_le := by
    by_cases h : proc.pc < proc.text.length
    · simp only [Pcb.step?, dif_pos h]
      exact h
    · simp only [Pcb.step?, dif_neg h]
      exact proc.pc_le

/-- A CPU, the PCBs, and whether the CPU is about to call `next_slot`: it does so
whenever it goes back to the head of its loop. -/
structure Core where
  cpu : Cpu
  pcb : ProcId → LoadedPcb
  atSlot : Bool

inductive CoreCall where
  | test
  | getProc (result : Option ProcId)
  | putProc (proc : ProcId)
  | free (proc : ProcId)
  | run (proc : ProcId)
  | nextSlot
deriving DecidableEq

/-- The CPU goes on with these variables. -/
def Core.goOn (s : Core) (vars : Cpu) : Core :=
  { s with cpu := vars, atSlot := decide (vars.loc = .check) }

/-- The steps of `cpu_routine`. Only the CPU that has a process changes its PCB, so
`get_proc` can find all of them changed. A status of `run` that ends the program
ends the run. -/
inductive CoreStep (timeSlot : Int) : Core → CoreCall → Core → Prop where
  | check {s : Core} (hLoc : s.cpu.loc = .check) (hSlot : s.atSlot = false) :
      CoreStep timeSlot s .test
        (s.goOn (s.cpu.check fun proc => decide (s.pcb proc).Finished))
  | recheck {s : Core} (done : Bool) (hLoc : s.cpu.loc = .recheck) :
      CoreStep timeSlot s .test (s.goOn (s.cpu.recheck timeSlot done))
  | free {s : Core} {proc : ProcId} (hLoc : s.cpu.loc = .free) (hProc : s.cpu.proc = some proc) :
      CoreStep timeSlot s (.free proc) (s.goOn { s.cpu with loc := .fetch .finished })
  | putProc {s : Core} {proc : ProcId} (hLoc : s.cpu.loc = .put)
      (hProc : s.cpu.proc = some proc) :
      CoreStep timeSlot s (.putProc proc) (s.goOn { s.cpu with loc := .fetch .overdue })
  | getProc {s : Core} {why : Fetch} (result : Option ProcId) (pcb : ProcId → LoadedPcb)
      (hLoc : s.cpu.loc = .fetch why) :
      CoreStep timeSlot s (.getProc result)
        ({ s with pcb := pcb }.goOn (s.cpu.fetched why result))
  | run {s : Core} {proc : ProcId} (hLoc : s.cpu.loc = .run) (hProc : s.cpu.proc = some proc) :
      CoreStep timeSlot s (.run proc)
        ({ s with pcb := Function.update s.pcb proc (s.pcb proc).run }.goOn s.cpu.ran)
  | nextSlot {s : Core} (hSlot : s.atSlot = true) :
      CoreStep timeSlot s .nextSlot { s with atSlot := false }

/-- A CPU at the start of its routine. -/
def Core.initial (pcb : ProcId → LoadedPcb) : Core := ⟨Cpu.initial, pcb, false⟩

/-- The head of the loop. -/
def Core.AtHead (s : Core) : Prop := s.cpu.loc = .check ∧ s.atSlot = false

/-- What the last `get_proc` returned, and the number of calls of `run` since. -/
def turn (calls : List CoreCall) : Option ProcId × Nat :=
  calls.foldl (fun turn call => match call with
    | .getProc result => (result, 0)
    | .run _ => (turn.1, turn.2 + 1)
    | _ => turn) (none, 0)

def CoreCall.IsRun : CoreCall → Prop
  | run _ => True
  | _ => False

/-- From the head of its loop the CPU goes to this call after the first test. -/
def Core.Leads (timeSlot : Int) (s : Core) (call : CoreCall) : Prop :=
  ∃ middle t, CoreStep timeSlot s .test middle ∧ CoreStep timeSlot middle call t

/-- The time slices after these calls. -/
structure TimeSliced (timeSlot : Int) (calls : List CoreCall) (s : Core) : Prop where
  idle : s.AtHead → s.cpu.proc = none → s.cpu.timeLeft = 0
  bounds : s.AtHead → 0 ≤ s.cpu.timeLeft ∧ s.cpu.timeLeft ≤ timeSlot
  one_run : ∀ proc t, CoreStep timeSlot s (.run proc) t →
    ¬ Since CoreCall.IsRun (· = .nextSlot) calls
  at_most : ((turn calls).2 : Int) ≤ timeSlot
  full : ∀ proc t, CoreStep timeSlot s (.run proc) t → (turn calls).1 = some proc ∧
    ((turn calls).2 = 0 → s.cpu.timeLeft = timeSlot)
  put : ∀ proc t, CoreStep timeSlot s (.putProc proc) t → (turn calls).1 = some proc ∧
    (turn calls).2 = timeSlot ∧ (s.pcb proc).pc < (s.pcb proc).text.length
  freed : ∀ proc t, CoreStep timeSlot s (.free proc) t → (turn calls).1 = some proc ∧
    (s.pcb proc).pc = (s.pcb proc).text.length
  put_iff : s.AtHead → ∀ proc, s.cpu.proc = some proc → (s.Leads timeSlot (.putProc proc) ↔
    (turn calls).2 = timeSlot ∧ (s.pcb proc).pc < (s.pcb proc).text.length)
  freed_iff : s.AtHead → ∀ proc, s.cpu.proc = some proc → (s.Leads timeSlot (.free proc) ↔
    (s.pcb proc).pc = (s.pcb proc).text.length)

variable {timeSlot : Int} {s t : Core} {calls : List CoreCall} {call : CoreCall}

@[simp] theorem turn_concat (calls : List CoreCall) (call : CoreCall) :
    turn (calls ++ [call]) = match call with
      | .getProc result => (result, 0)
      | .run _ => ((turn calls).1, (turn calls).2 + 1)
      | _ => turn calls := by
  rw [turn, List.foldl_append]
  cases call <;> rfl

/-! What the places of the loop say of the time that is left -/

/-- At each place: which process the CPU has and how much of its slice is used. -/
def Cpu.Sliced (timeSlot : Int) (turn : Option ProcId × Nat) (pcb : ProcId → LoadedPcb)
    (cpu : Cpu) : Prop :=
  match cpu.loc with
  | .check => match cpu.proc with
    | none => cpu.timeLeft = 0
    | some proc => turn.1 = some proc ∧ cpu.timeLeft = timeSlot - turn.2
  | .free => ∃ proc, cpu.proc = some proc ∧ turn.1 = some proc ∧ (pcb proc).Finished
  | .put => ∃ proc, cpu.proc = some proc ∧ turn.1 = some proc ∧ ¬ (pcb proc).Finished ∧
      turn.2 = timeSlot ∧ cpu.timeLeft = 0
  | .fetch .finished => True
  | .fetch _ => cpu.timeLeft = 0
  | .recheck => match cpu.proc with
    | none => cpu.timeLeft = 0
    | some proc => turn.1 = some proc ∧
        (cpu.timeLeft = 0 ∧ turn.2 = 0 ∨ cpu.timeLeft ≠ 0 ∧ cpu.timeLeft = timeSlot - turn.2)
  | .run => ∃ proc, cpu.proc = some proc ∧ turn.1 = some proc ∧ cpu.timeLeft ≠ 0 ∧
      cpu.timeLeft = timeSlot - turn.2
  | .stopped => True

structure Core.Sliced (timeSlot : Int) (calls : List CoreCall) (s : Core) : Prop where
  cpu : s.cpu.Sliced timeSlot (turn calls) s.pcb
  used : ((turn calls).2 : Int) ≤ timeSlot
  atSlot : s.atSlot = true → s.cpu.loc = .check
  ran : Since CoreCall.IsRun (· = .nextSlot) calls → s.atSlot = true

section Moves

variable {cpu : Cpu} {pcb : ProcId → LoadedPcb} {past : Option ProcId × Nat}

private theorem Cpu.Sliced.check (h : cpu.Sliced timeSlot past pcb) (hLoc : cpu.loc = .check) :
    (cpu.check fun proc => decide (pcb proc).Finished).Sliced timeSlot past pcb := by
  simp only [Cpu.Sliced, hLoc] at h
  cases hProc : cpu.proc with
  | none =>
      rw [hProc] at h
      simpa [Cpu.check, hProc, Cpu.Sliced] using h
  | some proc =>
      rw [hProc] at h
      obtain ⟨hTurn, hLeft⟩ := h
      by_cases hFinished : (pcb proc).Finished
      · simpa [Cpu.check, hProc, hFinished, Cpu.Sliced] using hTurn
      · by_cases hZero : cpu.timeLeft = 0
        · simp only [Cpu.check, hProc, hFinished, hZero, decide_false, Bool.false_eq_true, if_false,
            if_true, Cpu.Sliced]
          exact ⟨proc, rfl, hTurn, hFinished, by omega, trivial⟩
        · simp only [Cpu.check, hProc, hFinished, hZero, decide_false, Bool.false_eq_true, if_false,
            Cpu.Sliced]
          exact ⟨hTurn, Or.inr ⟨hZero, hLeft⟩⟩

private theorem Cpu.Sliced.recheck (hSlot : 1 ≤ timeSlot) (h : cpu.Sliced timeSlot past pcb)
    (hLoc : cpu.loc = .recheck) (done : Bool) :
    (cpu.recheck timeSlot done).Sliced timeSlot past pcb := by
  simp only [Cpu.Sliced, hLoc] at h
  cases hProc : cpu.proc with
  | none =>
      rw [hProc] at h
      cases done with
      | true => simp [Cpu.recheck, hProc, Cpu.Sliced]
      | false => simpa [Cpu.recheck, hProc, Cpu.Sliced] using h
  | some proc =>
      rw [hProc] at h
      obtain ⟨hTurn, ⟨hZero, hUsed⟩ | ⟨hLeft, hUsed⟩⟩ := h
      · simp only [Cpu.recheck, hProc, hZero, reduceCtorEq, false_and, if_false, if_true,
          Cpu.Sliced]
        exact ⟨proc, rfl, hTurn, by omega, by omega⟩
      · simp only [Cpu.recheck, hProc, hLeft, reduceCtorEq, false_and, if_false, Cpu.Sliced]
        exact ⟨proc, rfl, hTurn, hLeft, hUsed⟩

private theorem Cpu.Sliced.fetched {why : Fetch} (h : cpu.Sliced timeSlot past pcb)
    (hLoc : cpu.loc = .fetch why) (result : Option ProcId) (pcb' : ProcId → LoadedPcb) :
    (cpu.fetched why result).Sliced timeSlot (result, 0) pcb' := by
  simp only [Cpu.Sliced, hLoc] at h
  cases why with
  | finished => cases result <;> simp [Cpu.fetched, Cpu.Sliced]
  | idle => cases result <;> simp [Cpu.fetched, Cpu.Sliced, h]
  | overdue => cases result <;> simp [Cpu.fetched, Cpu.Sliced, h]

private theorem Cpu.Sliced.ran {proc : ProcId} (h : cpu.Sliced timeSlot past pcb)
    (hLoc : cpu.loc = .run) (hProc : cpu.proc = some proc) (pcb' : ProcId → LoadedPcb) :
    cpu.ran.Sliced timeSlot (past.1, past.2 + 1) pcb' := by
  simp only [Cpu.Sliced, hLoc] at h
  obtain ⟨proc', hProc', hTurn, -, hUsed⟩ := h
  obtain rfl : proc = proc' := Option.some.inj (hProc.symm.trans hProc')
  simp only [Cpu.ran, Cpu.Sliced, hProc]
  exact ⟨hTurn, by push_cast; omega⟩

end Moves

theorem Core.sliced_initial (hSlot : 1 ≤ timeSlot) (pcb : ProcId → LoadedPcb) :
    (Core.initial pcb).Sliced timeSlot [] := by
  refine ⟨rfl, ?_, ?_, fun hRan => absurd hRan not_since_nil⟩
  · change (0 : Int) ≤ timeSlot
    omega
  · simp [Core.initial]

/-- A call that is neither `run` nor `get_proc` keeps the turn. -/
private theorem Core.Sliced.keep (h : s.Sliced timeSlot calls)
    (hTurn : turn (calls ++ [call]) = turn calls) (hNoRun : ¬ call.IsRun)
    (hStill : s.atSlot = false) {vars : Cpu} {pcb : ProcId → LoadedPcb}
    (hVars : vars.Sliced timeSlot (turn calls) pcb) :
    ({ s with pcb := pcb }.goOn vars).Sliced timeSlot (calls ++ [call]) := by
  refine ⟨?_, ?_, fun hSlot => of_decide_eq_true hSlot, fun hRan => ?_⟩
  · rw [hTurn]
    exact hVars
  · rw [hTurn]
    exact h.used
  · rw [since_concat] at hRan
    have hBefore := h.ran (hRan.resolve_left hNoRun).2
    simp [hStill] at hBefore

theorem Core.Sliced.step (hSlot : 1 ≤ timeSlot) (h : s.Sliced timeSlot calls)
    (step : CoreStep timeSlot s call t) : t.Sliced timeSlot (calls ++ [call]) := by
  -- the places other than the head are not at a call of next_slot
  have hStill : s.cpu.loc ≠ .check → s.atSlot = false := by
    intro hLoc
    rw [Bool.eq_false_iff]
    exact fun hAt => hLoc (h.atSlot hAt)
  have hCpu := h.cpu
  cases step with
  | check hLoc hHead => exact h.keep (turn_concat _ _) id hHead (hCpu.check hLoc)
  | recheck done hLoc =>
      exact h.keep (turn_concat _ _) id (hStill (by simp [hLoc])) (hCpu.recheck hSlot hLoc done)
  | free hLoc hProc =>
      exact h.keep (turn_concat _ _) id (hStill (by simp [hLoc])) trivial
  | putProc hLoc hProc =>
      simp only [Cpu.Sliced, hLoc] at hCpu
      obtain ⟨-, -, -, -, -, hZero⟩ := hCpu
      exact h.keep (turn_concat _ _) id (hStill (by simp [hLoc])) hZero
  | getProc result pcb hLoc =>
      refine ⟨?_, ?_, fun hAt => of_decide_eq_true hAt, fun hRan => ?_⟩
      · rw [turn_concat]
        exact hCpu.fetched hLoc result pcb
      · rw [turn_concat]
        exact (by omega : (0 : Int) ≤ timeSlot)
      · rw [since_concat] at hRan
        have hBefore := h.ran (hRan.resolve_left id).2
        simp [hStill (by simp [hLoc])] at hBefore
  | run hLoc hProc =>
      refine ⟨?_, ?_, fun hAt => of_decide_eq_true hAt, fun _ => rfl⟩
      · rw [turn_concat]
        exact hCpu.ran hLoc hProc _
      · have hUsed := h.used
        simp only [Cpu.Sliced, hLoc] at hCpu
        obtain ⟨-, -, -, hLeft, hSum⟩ := hCpu
        rw [turn_concat]
        push_cast
        omega
  | nextSlot hAt =>
      refine ⟨?_, ?_, fun hAt' => absurd hAt' (by simp), fun hRan => ?_⟩
      · rw [turn_concat]
        exact hCpu
      · rw [turn_concat]
        exact h.used
      · rw [since_concat] at hRan
        exact absurd rfl (hRan.resolve_left id).1

theorem Core.sliced_run (hSlot : 1 ≤ timeSlot) {pcb : ProcId → LoadedPcb}
    (run : Runs (CoreStep timeSlot) (Core.initial pcb) calls s) : s.Sliced timeSlot calls := by
  induction run with
  | nil => exact Core.sliced_initial hSlot pcb
  | snoc prior last ih => exact ih.step hSlot last

/-! What the CPU does at the head of its loop -/

/-- The variables after the first test, for a CPU with a process. -/
private theorem Cpu.check_some {cpu : Cpu} {proc : ProcId} (hProc : cpu.proc = some proc)
    (finished : ProcId → Bool) :
    cpu.check finished = { cpu with
      loc := if finished proc then .free else if cpu.timeLeft = 0 then .put else .recheck } := by
  simp only [Cpu.check, hProc]
  split_ifs <;> rfl

private theorem Core.leads_put (hHead : s.AtHead) {proc : ProcId} (hProc : s.cpu.proc = some proc) :
    s.Leads timeSlot (.putProc proc) ↔ ¬ (s.pcb proc).Finished ∧ s.cpu.timeLeft = 0 := by
  constructor
  · rintro ⟨middle, t, hTest, hPut⟩
    cases hTest with
    | recheck done hLoc => simp [hHead.1] at hLoc
    | check =>
        cases hPut with
        | putProc hLoc =>
            simp only [Core.goOn, Cpu.check_some hProc, decide_eq_true_eq] at hLoc
            split_ifs at hLoc with hFinished hZero
            exact ⟨hFinished, hZero⟩
  · rintro ⟨hFinished, hZero⟩
    refine ⟨_, _, .check hHead.1 hHead.2, .putProc ?_ ?_⟩
    · simp [Core.goOn, Cpu.check_some hProc, hFinished, hZero]
    · simp [Core.goOn, Cpu.check_some hProc, hProc]

private theorem Core.leads_free (hHead : s.AtHead) {proc : ProcId}
    (hProc : s.cpu.proc = some proc) :
    s.Leads timeSlot (.free proc) ↔ (s.pcb proc).Finished := by
  constructor
  · rintro ⟨middle, t, hTest, hFree⟩
    cases hTest with
    | recheck done hLoc => simp [hHead.1] at hLoc
    | check =>
        cases hFree with
        | free hLoc =>
            simp only [Core.goOn, Cpu.check_some hProc, decide_eq_true_eq] at hLoc
            split_ifs at hLoc with hFinished
            exact hFinished
  · intro hFinished
    refine ⟨_, _, .check hHead.1 hHead.2, .free ?_ ?_⟩
    · simp [Core.goOn, Cpu.check_some hProc, hFinished]
    · simp [Core.goOn, Cpu.check_some hProc, hProc]

/-- A process that is not finished has instructions left. -/
private theorem LoadedPcb.not_finished_iff (proc : LoadedPcb) :
    ¬ proc.Finished ↔ proc.pc < proc.text.length := by
  have := proc.pc_le
  rw [Pcb.Finished]
  omega

theorem Core.Sliced.timeSliced (h : s.Sliced timeSlot calls) : TimeSliced timeSlot calls s := by
  have hCpu := h.cpu
  have hUsed := h.used
  refine ⟨fun hHead hProc => ?_, fun hHead => ?_, fun proc t step hRan => ?_, h.used,
    fun proc t step => ?_, fun proc t step => ?_, fun proc t step => ?_,
    fun hHead proc hProc => ?_, fun hHead proc hProc => Core.leads_free hHead hProc⟩
  · simpa only [Cpu.Sliced, hHead.1, hProc] using hCpu
  · simp only [Cpu.Sliced, hHead.1] at hCpu
    cases hProc : s.cpu.proc <;> rw [hProc] at hCpu <;> simp only at hCpu <;> omega
  · cases step with
    | run hLoc => simp [h.atSlot (h.ran hRan)] at hLoc
  · cases step with
    | run hLoc hProc =>
        simp only [Cpu.Sliced, hLoc] at hCpu
        obtain ⟨proc', hProc', hTurn, -, hLeft⟩ := hCpu
        obtain rfl := Option.some.inj (hProc.symm.trans hProc')
        exact ⟨hTurn, fun hNone => by omega⟩
  · cases step with
    | putProc hLoc hProc =>
        simp only [Cpu.Sliced, hLoc] at hCpu
        obtain ⟨proc', hProc', hTurn, hFinished, hAll, -⟩ := hCpu
        obtain rfl := Option.some.inj (hProc.symm.trans hProc')
        exact ⟨hTurn, hAll, (LoadedPcb.not_finished_iff _).mp hFinished⟩
  · cases step with
    | free hLoc hProc =>
        simp only [Cpu.Sliced, hLoc] at hCpu
        obtain ⟨proc', hProc', hTurn, hFinished⟩ := hCpu
        obtain rfl := Option.some.inj (hProc.symm.trans hProc')
        exact ⟨hTurn, hFinished⟩
  · rw [Core.leads_put hHead hProc, LoadedPcb.not_finished_iff, and_comm]
    simp only [Cpu.Sliced, hHead.1, hProc] at hCpu
    apply and_congr_left
    intro _
    omega

/-- In every run of a CPU, whatever `get_proc` returns and whenever `done` is set, each
process that the CPU gets has its time slice. -/
theorem timeSliced_run (hSlot : 1 ≤ timeSlot) {pcb : ProcId → LoadedPcb}
    (run : Runs (CoreStep timeSlot) (Core.initial pcb) calls s) : TimeSliced timeSlot calls s :=
  (Core.sliced_run hSlot run).timeSliced

/-- Two instructions and a slice of one: after the first the process is put back. -/
theorem timeSliced_two_instructions : ∃ s,
    TimeSliced 1 [.test, .getProc (some 0), .test, .run 0, .nextSlot, .test] s ∧
      s.cpu.loc = .put := by
  let two : LoadedPcb := ⟨⟨[⟨.calc, 0, 0, 0⟩, ⟨.calc, 0, 0, 0⟩], 0, 0⟩, by decide⟩
  have fetched : Runs (CoreStep 1) (Core.initial fun _ => two) [.test, .getProc (some 0)] _ :=
    (Runs.one (.check rfl rfl)).snoc (.getProc (some 0) (fun _ => two) rfl)
  have ran := (fetched.snoc (.recheck false rfl)).snoc (.run rfl rfl)
  exact ⟨_, timeSliced_run (Int.le_refl 1) ((ran.snoc (.nextSlot rfl)).snoc (.check rfl rfl)), rfl⟩

end Btlos
