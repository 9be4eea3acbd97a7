import Btlos.Os.Completion

/-! Time goes on: the steps that the threads can take within one slot are bounded, so that
a run of many steps has come to a late slot, without any fairness. -/
namespace Btlos

open Transition

variable {n : Nat} {Mem : Type*} {cfg : Config} {startTime : ProcId → UInt64}
  {execute : ProcId → Inst → Mem → Int → Mem → Prop}

/-! The steps that are left in a slot -/

/-- Up to the call of `next_slot` or `detach_event`, that one included. -/
def Cpu.stepsLeft (cpu : Cpu) : Nat :=
  match cpu.loc with
  | .check => 6
  | .free | .put => 5
  | .fetch _ => 4
  | .recheck => 3
  | .run => 2
  | .stopped => 1

def LoaderLoc.stepsLeft : LoaderLoc → Nat
  | .load => 3
  | .add => 2
  | .stopped => 1

def Os.stepsLeft (s : Os (Fin n) Mem) : Fin (n + 1) → Nat :=
  Fin.cases s.loader.stepsLeft fun event => (s.cpu event.rev).stepsLeft

/-- A party that has not returned from the slot before has the whole slot left. -/
def Clocked.stepsLeft (s : Clocked n Mem) (round : Nat) (party : Fin (n + 1)) : Nat :=
  match (s.timer.device party).phase with
  | .working => if s.due party then 1 else s.os.stepsLeft party
  | .waiting => if s.slot party = round then 0 else 7
  | .detached => 0

/-- Up to the step in which the time goes on. -/
def TimerLoc.stepsLeft (devices : Nat) : TimerLoc → Nat
  | .test => devices + 2
  | .collect index _ _ => devices - index + 1
  | .release index _ _ => devices - index + devices + 3
  | .ended => 0

/-- The steps of everybody. A program that exits takes none. -/
def Clocked.allLeft (s : Clocked n Mem) (round : Nat) : Nat :=
  ∑ party, s.stepsLeft round party + s.timer.loc.stepsLeft (n + 1) + if s.os.exited then 0 else 1

/-- More than this the threads never have before them. -/
def stepsOfSlot (devices : Nat) : Nat := 9 * devices + 4

/-- Steps of threads that have not come to their end: `main` may call `stop_timer` again. -/
def ClockedCall.counts : ClockedCall n → Nat
  | .timer .stopTimer => 0
  | _ => 1

theorem ClockedCall.counts_le_one (call : ClockedCall n) : call.counts ≤ 1 := by
  cases call with
  | os call => exact Nat.le_refl 1
  | timer label =>
      cases label with
      | stopTimer => exact Nat.zero_le 1
      | timer | nextSlot | slotReturns | detachEvent => exact Nat.le_refl 1

section Bounds

variable {s : Clocked n Mem} {round : Nat} {party : Fin (n + 1)}

theorem Os.stepsLeft_ldEvent (s : Os (Fin n) Mem) : s.stepsLeft ldEvent = s.loader.stepsLeft := rfl

theorem Os.stepsLeft_cpuEvent (s : Os (Fin n) Mem) (c : Fin n) :
    s.stepsLeft (cpuEvent c) = (s.cpu c).stepsLeft := by
  change (s.cpu c.rev.rev).stepsLeft = (s.cpu c).stepsLeft
  rw [Fin.rev_rev]

private theorem Cpu.stepsLeft_bounds (cpu : Cpu) : 0 < cpu.stepsLeft ∧ cpu.stepsLeft ≤ 6 := by
  rw [Cpu.stepsLeft]
  cases cpu.loc <;> simp

private theorem Os.stepsLeft_bounds (s : Os (Fin n) Mem) (party : Fin (n + 1)) :
    0 < s.stepsLeft party ∧ s.stepsLeft party ≤ 6 := by
  cases party using Fin.cases with
  | zero =>
      change 0 < s.loader.stepsLeft ∧ s.loader.stepsLeft ≤ 6
      cases s.loader <;> decide
  | succ event => exact Cpu.stepsLeft_bounds _

private theorem stepsLeft_working (hPhase : (s.timer.device party).phase = .working) :
    0 < s.stepsLeft round party ∧ s.stepsLeft round party ≤ 6 := by
  rw [Clocked.stepsLeft, hPhase]
  dsimp only
  split_ifs
  · decide
  · exact s.os.stepsLeft_bounds party

private theorem stepsLeft_waiting (hPhase : (s.timer.device party).phase = .waiting) :
    s.stepsLeft round party = if s.slot party = round then 0 else 7 := by
  rw [Clocked.stepsLeft, hPhase]

private theorem stepsLeft_detached (hPhase : (s.timer.device party).phase = .detached) :
    s.stepsLeft round party = 0 := by
  rw [Clocked.stepsLeft, hPhase]

private theorem stepsLeft_le (s : Clocked n Mem) (round : Nat) (party : Fin (n + 1)) :
    s.stepsLeft round party ≤ 7 := by
  cases hPhase : (s.timer.device party).phase with
  | working => exact (stepsLeft_working hPhase).2.trans (Nat.le_succ 6)
  | waiting =>
      rw [stepsLeft_waiting hPhase]
      split_ifs <;> decide
  | detached =>
      rw [stepsLeft_detached hPhase]
      exact Nat.zero_le 7

private theorem allLeft_le (s : Clocked n Mem) (round : Nat) :
    s.allLeft round ≤ stepsOfSlot (n + 1) := by
  have hParties : ∑ party, s.stepsLeft round party ≤ (n + 1) * 7 := by
    calc ∑ party, s.stepsLeft round party ≤ ∑ _party : Fin (n + 1), 7 :=
          Finset.sum_le_sum fun party _ => stepsLeft_le s round party
      _ = (n + 1) * 7 := by
          rw [Finset.sum_const, Finset.card_univ, Fintype.card_fin, Nat.nsmul_eq_mul]
  have hTimer : s.timer.loc.stepsLeft (n + 1) ≤ 2 * (n + 1) + 3 := by
    cases s.timer.loc with
    | test | collect | release | ended =>
        simp only [TimerLoc.stepsLeft]
        omega
  rw [Clocked.allLeft, stepsOfSlot]
  split_ifs <;> omega

end Bounds

section Step

variable {s t : Clocked n Mem} {round : Nat}

/-- A step of the loader or a CPU is one of those that it has left. -/
private theorem OsMove.stepsLeft {os os' : Os (Fin n) Mem} {call : OsCall (Fin n)}
    (move : OsMove cfg execute os call os') (hRuns : os.exited = false) :
    (if call.dueAfter os' then 1 else os'.stepsLeft call.event) +
        (if os'.exited then 0 else 1) < os.stepsLeft call.event + 1 := by
  -- Only the loader leaves the simulation with a step that brings it no further.
  have hCpu : ∀ (c : Fin n) (vars : Cpu), os'.cpu c = vars → call.event = cpuEvent c →
      call.dueAfter os' = ((os'.cpu c).loc == .check) →
      (if vars.loc == .check then 1 else vars.stepsLeft) < (os.cpu c).stepsLeft →
      (if call.dueAfter os' then 1 else os'.stepsLeft call.event) +
        (if os'.exited then 0 else 1) < os.stepsLeft call.event + 1 := by
    rintro c vars hVars hEvent hDue hLess
    rw [hEvent, Os.stepsLeft_cpuEvent, Os.stepsLeft_cpuEvent, hDue, hVars]
    split_ifs at hLess ⊢ <;> omega
  cases move with
  | check c hLoc =>
      apply hCpu c _ (Function.update_self _ _ _) rfl rfl
      rw [Cpu.check]
      split
      · simp [Cpu.stepsLeft, hLoc]
      · split_ifs <;> simp [Cpu.stepsLeft, hLoc]
  | recheck c hLoc =>
      apply hCpu c _ (Function.update_self _ _ _) rfl rfl
      rw [Cpu.recheck]
      split_ifs <;> simp_all [Cpu.stepsLeft]
  | free c hLoc hProc | putProc c hLoc hProc =>
      apply hCpu c _ (Function.update_self _ _ _) rfl rfl
      simp [Cpu.stepsLeft, hLoc]
  | @getProc m result why fuel c hLoc hGet =>
      apply hCpu c _ (Function.update_self _ _ _) rfl rfl
      cases why <;> cases result <;> simp [Cpu.fetched, Cpu.stepsLeft, hLoc]
  | run c hLoc | runNothing c hLoc =>
      apply hCpu c _ (Function.update_self _ _ _) rfl rfl
      simp [Cpu.ran, Cpu.stepsLeft, hLoc]
  | load hLoc hMore hProgram =>
      simp [OsCall.dueAfter, OsCall.event, Os.stepsLeft_ldEvent, LoaderLoc.stepsLeft, hLoc, hRuns]
  | loadFails hLoc hMore hProgram =>
      simp [OsCall.dueAfter, OsCall.event, Os.stepsLeft_ldEvent, LoaderLoc.stepsLeft, hLoc]
  | addProc hLoc =>
      simp [OsCall.dueAfter, OsCall.event, Os.stepsLeft_ldEvent, LoaderLoc.stepsLeft, hLoc, hRuns]
  | finish hLoc hMore =>
      simp [OsCall.dueAfter, OsCall.event, Os.stepsLeft_ldEvent, LoaderLoc.stepsLeft, hLoc, hRuns]

/-- The steps of one party go down, and nobody else's go up. -/
private theorem sum_stepsLeft_lt (party : Fin (n + 1))
    (hLess : t.stepsLeft round party < s.stepsLeft round party)
    (hOthers : ∀ other, other ≠ party → t.stepsLeft round other = s.stepsLeft round other) :
    ∑ party, t.stepsLeft round party < ∑ party, s.stepsLeft round party := by
  apply Finset.sum_lt_sum
  · intro other _
    by_cases hSame : other = party
    · rw [hSame]
      exact hLess.le
    · exact (hOthers other hSame).le
  · exact ⟨party, Finset.mem_univ party, hLess⟩

private theorem stepsLeft_congr {party : Fin (n + 1)}
    (hPhase : (t.timer.device party).phase = (s.timer.device party).phase)
    (hSlot : t.slot party = s.slot party) (hDue : t.due party = s.due party)
    (hOs : t.os.stepsLeft party = s.os.stepsLeft party) :
    t.stepsLeft round party = s.stepsLeft round party := by
  rw [Clocked.stepsLeft, Clocked.stepsLeft, hPhase, hSlot, hDue, hOs]

private theorem stepsLeft_other {os os' : Os (Fin n) Mem} {call : OsCall (Fin n)}
    (move : OsMove cfg execute os call os') {party : Fin (n + 1)} (hOther : party ≠ call.event) :
    os'.stepsLeft party = os.stepsLeft party := by
  cases party using Fin.cases with
  | zero => exact congrArg LoaderLoc.stepsLeft (move.loader (Ne.symm hOther)).1
  | succ event =>
      have hCpu : cpuEvent event.rev = event.succ := congrArg Fin.succ (Fin.rev_rev event)
      exact congrArg Cpu.stepsLeft (move.others (hCpu ▸ Ne.symm hOther))

/-- A step of the loader or a CPU. -/
private theorem allLeft_os (round : Nat) {call : OsCall (Fin n)} {os : Os (Fin n) Mem}
    (hWorks : s.Works call.event) (hRuns : s.os.exited = false)
    (move : OsMove cfg execute s.os call os) :
    (s.moved call os).allLeft round < s.allLeft round := by
  have hBefore : s.stepsLeft round call.event = s.os.stepsLeft call.event := by
    rw [Clocked.stepsLeft, hWorks.1]
    simp [hWorks.2]
  have hAfter : (s.moved call os).stepsLeft round call.event =
      if call.dueAfter os then 1 else os.stepsLeft call.event := by
    rw [Clocked.stepsLeft]
    change (match (s.timer.device call.event).phase with
      | .working => if Function.update s.due call.event (call.dueAfter os) call.event then 1
          else os.stepsLeft call.event
      | .waiting => _
      | .detached => _) = _
    rw [hWorks.1, Function.update_self]
  have hOthers : ∑ other ∈ Finset.univ.erase call.event, (s.moved call os).stepsLeft round other =
      ∑ other ∈ Finset.univ.erase call.event, s.stepsLeft round other := by
    apply Finset.sum_congr rfl
    intro other hOther
    have hNe := Finset.ne_of_mem_erase hOther
    exact stepsLeft_congr rfl rfl (Function.update_of_ne hNe _ _) (stepsLeft_other move hNe)
  have hMove := move.stepsLeft hRuns
  have hOld := Finset.add_sum_erase _ (s.stepsLeft round) (Finset.mem_univ call.event)
  have hNew := Finset.add_sum_erase _ ((s.moved call os).stepsLeft round)
    (Finset.mem_univ call.event)
  rw [hOthers, hAfter] at hNew
  rw [hBefore] at hOld
  rw [Clocked.allLeft, Clocked.allLeft, ← hOld, ← hNew, hRuns]
  change _ + s.timer.loc.stepsLeft (n + 1) + (if os.exited then 0 else 1) < _
  simp only [Bool.false_eq_true, if_false]
  omega

/-- A call of one party to the timer. -/
private theorem allLeft_party {timer : Timer (n + 1)} {due : Fin (n + 1) → Bool}
    {label : TimerCall (n + 1)} {party : Fin (n + 1)} (step : TimerStep s.timer label timer)
    (hLabel : label = .nextSlot party ∨ label = .slotReturns party ∨ label = .detachEvent party)
    (hDue : ∀ other, other ≠ party → due other = s.due other)
    (hLess : ({ s with timer := timer, due := due } : Clocked n Mem).stepsLeft round party <
      s.stepsLeft round party) :
    ({ s with timer := timer, due := due } : Clocked n Mem).allLeft round < s.allLeft round := by
  have hLoc : timer.loc = s.timer.loc := by
    cases step with
    | nextSlot | slotReturns | detachEvent | stopTimer => rfl
    | enter | exit | collect | advance | release | finish => simp at hLabel
  have hSum := sum_stepsLeft_lt party hLess (by
    intro other hOther
    obtain ⟨hPhase, hReturned⟩ : (timer.device other).phase = (s.timer.device other).phase ∧
        (timer.device other).returned = (s.timer.device other).returned := by
      rcases hLabel with rfl | rfl | rfl <;>
        exact device_step step other (by simp [Ne.symm hOther]) (by simp [Ne.symm hOther])
          (by simp [Ne.symm hOther])
    exact stepsLeft_congr hPhase hReturned (hDue other hOther) rfl)
  rw [Clocked.allLeft, Clocked.allLeft]
  change _ + timer.loc.stepsLeft (n + 1) + (if s.os.exited then 0 else 1) < _
  rw [hLoc]
  omega

private theorem stepsLeft_loc {m : Nat} {timer timer' : Timer m}
    (step : TimerStep timer .timer timer') (hTime : timer'.time = timer.time) :
    timer'.loc.stepsLeft m < timer.loc.stepsLeft m := by
  cases step with
  | enter hLoc | exit hLoc =>
      rw [hLoc]
      simp [TimerLoc.stepsLeft]
  | collect i hLoc | release i hLoc =>
      rw [hLoc]
      have hIndex := i.isLt
      simp only [TimerLoc.stepsLeft, Timer.setDevice]
      omega
  | advance hLoc => simp at hTime
  | finish hLoc =>
      rw [hLoc]
      dsimp only
      split_ifs <;> simp only [TimerLoc.stepsLeft] <;> omega

private theorem allLeft_timer (round : Nat) {timer : Timer (n + 1)}
    (step : TimerStep s.timer .timer timer) (hTime : timer.time = s.timer.time) :
    ({ s with timer := timer } : Clocked n Mem).allLeft round < s.allLeft round := by
  have hSame : ∑ party, ({ s with timer := timer } : Clocked n Mem).stepsLeft round party =
      ∑ party, s.stepsLeft round party := by
    apply Finset.sum_congr rfl
    intro party _
    obtain ⟨hPhase, hReturned⟩ := device_step step party (by simp) (by simp) (by simp)
    exact stepsLeft_congr hPhase hReturned rfl rfl
  have hLoc := stepsLeft_loc step hTime
  rw [Clocked.allLeft, Clocked.allLeft, hSame]
  change _ + timer.loc.stepsLeft (n + 1) + (if s.os.exited then 0 else 1) < _
  omega

/-- Every step that counts is one of those that are left, or opens the next round. -/
private theorem allLeft_step {call : ClockedCall n} (h : s.timer.InRound round)
    (step : ClockedStep cfg startTime execute s call t) :
    t.timer.InRound round ∧ call.counts + t.allLeft round ≤ s.allLeft round ∨
      t.timer.InRound (round + 1) ∧ call.counts ≤ s.allLeft round := by
  obtain ⟨hRuns, move⟩ := step
  have hOne := call.counts_le_one
  cases move with
  | os hWorks hStart hMove =>
      have hLess := allLeft_os round hWorks hRuns hMove
      exact Or.inl ⟨h, by omega⟩
  | @nextSlot timer party hDue hStep =>
      obtain ⟨hBefore, hAfter, hReturned⟩ : (s.timer.device party).phase = .working ∧
          (timer.device party).phase = .waiting ∧
          (timer.device party).returned = (s.timer.device party).returned := by
        cases hStep with
        | nextSlot _ hPhase => simp [hPhase]
      have hSlot : ({ s with timer := timer, due := Function.update s.due party false } :
          Clocked n Mem).slot party = round := hReturned.trans (h.returned_of_working hBefore)
      have hParty : ({ s with timer := timer, due := Function.update s.due party false } :
          Clocked n Mem).stepsLeft round party < s.stepsLeft round party := by
        rw [stepsLeft_waiting hAfter, if_pos hSlot]
        exact (stepsLeft_working hBefore).1
      have hLess := allLeft_party hStep (Or.inl rfl)
        (fun other hOther => Function.update_of_ne hOther _ _) hParty
      exact Or.inl ⟨h.same hStep (hStep.time_eq (by simp)), by omega⟩
  | @slotReturns timer party hStep =>
      obtain ⟨hBefore, hAfter, hReturned⟩ : (s.timer.device party).phase = .waiting ∧
          (timer.device party).phase = .working ∧
          (timer.device party).returned = (s.timer.device party).returned + 1 := by
        cases hStep with
        | slotReturns _ hPhase => simp [hPhase]
      have hRound := h.same hStep (hStep.time_eq (by simp))
      have hSlot : s.slot party ≠ round := by
        have hNow := hRound.returned_of_working hAfter
        rw [hReturned] at hNow
        rw [Clocked.slot]
        omega
      have hParty : ({ s with timer := timer } : Clocked n Mem).stepsLeft round party <
          s.stepsLeft round party := by
        rw [stepsLeft_waiting hBefore, if_neg hSlot]
        exact Nat.lt_succ_of_le (stepsLeft_working hAfter).2
      have hLess := allLeft_party hStep (Or.inr (Or.inl rfl)) (fun _ _ => rfl) hParty
      exact Or.inl ⟨hRound, by omega⟩
  | @timer timer hStep =>
      by_cases hTime : timer.time = s.timer.time
      · have hLess := allLeft_timer round hStep hTime
        exact Or.inl ⟨h.same hStep hTime, by omega⟩
      · have hLeft : 0 < s.allLeft round := by
          rw [Clocked.allLeft, hRuns]
          simp
        exact Or.inr ⟨(h.opens hStep hTime).1, by omega⟩
  | @detachEvent timer party hStopped hStep =>
      obtain ⟨hBefore, hAfter⟩ : (s.timer.device party).phase = .working ∧
          (timer.device party).phase = .detached := by
        cases hStep with
        | detachEvent _ hPhase => simp [hPhase]
      have hParty : ({ s with timer := timer } : Clocked n Mem).stepsLeft round party <
          s.stepsLeft round party := by
        rw [stepsLeft_detached hAfter]
        exact (stepsLeft_working hBefore).1
      have hLess := allLeft_party hStep (Or.inr (Or.inr rfl)) (fun _ _ => rfl) hParty
      exact Or.inl ⟨h.same hStep (hStep.time_eq (by simp)), by omega⟩
  | @stopTimer timer hJoined hStep =>
      refine Or.inl ⟨h.same hStep (hStep.time_eq (by simp)), ?_⟩
      cases hStep with
      | stopTimer => exact (Nat.zero_add _).le

/-- As many steps as a slot has, for each slot. -/
theorem steps_run {mem : Mem} {labels : List (ClockedCall n)}
    (run : Runs (ClockedStep cfg startTime execute) (Clocked.initial mem) labels s) :
    ∃ round, s.timer.InRound round ∧ (labels.map ClockedCall.counts).sum + s.allLeft round ≤
      stepsOfSlot (n + 1) * (round + 1) := by
  induction run with
  | nil =>
      refine ⟨0, inRound_initial, ?_⟩
      rw [List.map_nil, List.sum_nil, Nat.zero_add, Nat.zero_add, Nat.mul_one]
      exact allLeft_le _ 0
  | @snoc labels call middle finish prior last ih =>
      obtain ⟨round, hRound, hSteps⟩ := ih
      have hSum : ((labels ++ [call]).map ClockedCall.counts).sum =
          (labels.map ClockedCall.counts).sum + call.counts := by simp
      rw [hSum]
      rcases allLeft_step hRound last with ⟨hSame, hLeft⟩ | ⟨hNext, hLeft⟩
      · exact ⟨round, hSame, by omega⟩
      · have hAll := allLeft_le finish (round + 1)
        refine ⟨round + 1, hNext, ?_⟩
        rw [Nat.mul_add_one]
        omega

end Step

/-- While a process has not executed its program, the run is short, with no fairness of the
order of the steps: no other thread can take steps for ever and keep the process waiting. A
whole call of the scheduler counts as one step. -/
theorem unfinished_run {mem : Mem} {labels : List (ClockedCall n)} {s : Clocked n Mem}
    (run : Runs (ClockedStep cfg startTime execute) (Clocked.initial mem) labels s)
    (hFits : cfg.QueuesFit) (hCpus : 0 < n) (hSlots : s.slot ldEvent < 2 ^ 64) {proc : ProcId}
    (hProc : proc < cfg.numProcesses)
    (hUnfinished : cfg.program proc ≠ some (s.os.executed proc)) :
    (labels.map ClockedCall.counts).sum ≤
      stepsOfSlot (n + 1) * (cfg.deadline n (fun i => (startTime i).toNat) proc + 2) := by
  by_contra hMore
  obtain ⟨round, hRound, hSteps⟩ := steps_run run
  obtain ⟨round', h⟩ := conserving_run hFits run
  obtain ⟨round'', hTimed⟩ := timed_run run
  have hLate : cfg.deadline n (fun i => (startTime i).toNat) proc + 2 < round + 1 := by
    apply lt_of_mul_lt_mul_left _ (Nat.zero_le (stepsOfSlot (n + 1)))
    exact (Nat.lt_of_not_le hMore).trans_le ((Nat.le_add_right _ _).trans hSteps)
  by_cases hGone : ∀ party, (s.timer.device party).phase = .detached
  · exact hUnfinished (h.noneLeft hCpus (fun c => h.gone c (hGone (cpuEvent c))) hProc).2
  · obtain ⟨party, hHere⟩ := not_forall.mp hGone
    have hParty : round ≤ s.slot party + 1 := (hRound.returned_le hHere).2
    have hOver : cfg.deadline n (fun i => (startTime i).toNat) proc < s.slot party := by omega
    exact hUnfinished (h.executed hTimed (loads_run run hSlots) hCpus hProc hOver)

theorem loaded_run : ∃ s : Clocked 1 Nat,
    Runs (ClockedStep (calculations 1) (fun _ => 0) calcSucceeds) (Clocked.initial 0)
        [.os (.load 0), .os (.addProc 0)] s ∧
      s.os.index = 1 ∧ s.os.executed 0 = [] ∧ s.slot ldEvent = 0 ∧ s.os.exited = false ∧
        (s.timer.device ldEvent).phase = .working :=
  ⟨_, Runs.cons ⟨rfl, .os ⟨rfl, rfl⟩ (fun _ hCall => by cases hCall) (.load rfl (by decide) rfl)⟩ <|
    Runs.one ⟨rfl, .os ⟨rfl, rfl⟩ (fun _ _ hAwaits => absurd hAwaits.2 (by decide))
      (.addProc rfl)⟩, rfl, rfl, rfl, rfl, rfl⟩

/-- The process has been handed in and not been run. -/
theorem unfinished_run_one : ∃ s : Clocked 1 Nat, s.os.index = 1 ∧ s.os.executed 0 = [] ∧
    2 ≤ stepsOfSlot 2 * ((calculations 1).deadline 1 (fun _ => 0) 0 + 2) := by
  obtain ⟨s, run, hIndex, hExecuted, hSlot, -⟩ := loaded_run
  have hSlots : s.slot ldEvent < 2 ^ 64 := by
    rw [hSlot]
    exact Nat.two_pow_pos 64
  have hUnfinished : (calculations 1).program 0 ≠ some (s.os.executed 0) := by
    rw [hExecuted]
    simp [calculations]
  exact ⟨s, hIndex, hExecuted,
    unfinished_run run (queuesFit_calculations 1) Nat.one_pos hSlots Nat.one_pos hUnfinished⟩

end Btlos
