import Btlos.Os.Clocked

/-! The time slots in which instructions are run. Between two instructions of one CPU,
and between two of one process on whichever CPUs, the timer goes on. -/
namespace Btlos

open Transition

/-! What one step of the timer does to one device -/

section Timer

variable {m : Nat} {s t : Timer m} {label : TimerCall m} {round : Nat}

private theorem Device.Released.returned {d : Device} (h : d.Released round)
    (hPhase : d.phase = .working) : d.returned = round := by
  rcases h with ⟨-, -, -, hReturned⟩ | ⟨hWaiting, -⟩ | ⟨hWaiting, -⟩
  · exact hReturned
  all_goals
    rw [hPhase] at hWaiting
    cases hWaiting

private theorem Device.not_held_of_working {d : Device} (hPhase : d.phase = .working) :
    ¬ d.Held round := by
  intro hHeld
  rw [Device.Held, hPhase] at hHeld
  cases hHeld.1

/-- A device that works is in the current round. -/
theorem Timer.InRound.returned_of_working (h : s.InRound round) {i : Fin m}
    (hPhase : (s.device i).phase = .working) : (s.device i).returned = round := by
  rcases h.fits i with ⟨hDetached, -⟩ | ⟨-, hFits⟩
  · rw [hPhase] at hDetached
    cases hDetached
  · cases hLoc : s.loc with
    | test | ended =>
        rw [hLoc] at hFits
        exact Device.Released.returned hFits hPhase
    | collect place fsh event =>
        rw [hLoc, Device.Fits] at hFits
        split_ifs at hFits
        · exact absurd hFits (Device.not_held_of_working hPhase)
        · exact Device.Released.returned hFits hPhase
    | release place fsh event =>
        rw [hLoc, Device.Fits] at hFits
        split_ifs at hFits
        · exact Device.Released.returned hFits hPhase
        · exact absurd hFits (Device.not_held_of_working hPhase)

/-- A device only comes to work by a return from `next_slot`, which counts. -/
theorem returned_step (step : TimerStep s label t) (i : Fin m) :
    (t.device i).returned = (s.device i).returned ∧
        ((t.device i).phase = .working → (s.device i).phase = .working) ∨
      label = .slotReturns i ∧ (t.device i).returned = (s.device i).returned + 1 := by
  cases step with
  | enter | exit | collect | advance | finish | stopTimer => exact Or.inl ⟨rfl, id⟩
  | release j hLoc =>
      left
      rw [device_setDevice]
      split_ifs with hSame
      · rw [hSame]
        exact ⟨rfl, id⟩
      · exact ⟨rfl, id⟩
  | nextSlot j hPhase | detachEvent j hPhase =>
      left
      rw [device_setDevice]
      split_ifs with hSame
      · rw [hSame]
        exact ⟨rfl, nofun⟩
      · exact ⟨rfl, id⟩
  | slotReturns j hPhase hDone =>
      rw [device_setDevice]
      split_ifs with hSame
      · rw [hSame]
        exact Or.inr ⟨rfl, rfl⟩
      · exact Or.inl ⟨rfl, id⟩

/-- The rounds only go on. -/
theorem Timer.InRound.round_le (h : s.InRound round) (step : TimerStep s label t) :
    ∃ round', round ≤ round' ∧ t.InRound round' := by
  obtain ⟨round', hRound', hSame | ⟨event, hEvent⟩⟩ := h.step step
  · exact ⟨round', (congrArg Barrier.State.round hSame).ge, hRound'⟩
  · refine ⟨round', ?_, hRound'⟩
    change (s.barrier round).round ≤ (t.barrier round').round
    generalize t.barrier round' = after at hEvent
    cases hEvent with
    | «open» => exact Nat.le_succ _
    | arrive | depart | leave => exact Nat.le_refl _

end Timer

variable {n : Nat} {Mem : Type*} {cfg : Config} {startTime : ProcId → UInt64}
  {execute : ProcId → Inst → Mem → Int → Mem → Prop}

/-! Where the processes go in one step -/

/-- A process that is in a queue after a step was in one or was handed in, and one that
a CPU has after it was with that CPU or came from a queue. -/
structure OsCustody (s : Os (Fin n) Mem) (call : OsCall (Fin n)) (t : Os (Fin n) Mem) : Prop where
  index : s.index ≤ t.index
  queued : ∀ proc ∈ t.mlq.readyProcs, proc ∈ s.mlq.readyProcs ∨
    (∃ c, call = .putProc c proc ∧ s.holds c = some proc) ∨ call = .addProc proc ∧ proc = s.index
  held : ∀ c proc, t.holds c = some proc → s.holds c = some proc ∨
    call = .getProc c (some proc) ∧ proc ∈ s.mlq.readyProcs
  ran : ∀ c proc, call = .run c proc →
    s.holds c = some proc ∧ t.mlq = s.mlq ∧ (t.cpu c).loc = .check
  executed : ∀ proc, t.executed proc = s.executed proc ∨
    ∃ c, call = .run c proc ∧ (t.executed proc).length = (s.executed proc).length + 1

theorem mem_putMlqProc {prio : ProcId → Nat} {m : Mlq ProcId} {proc other : ProcId}
    (h : other ∈ (putMlqProc prio m proc).readyProcs) : other ∈ m.readyProcs ∨ other = proc := by
  rw [readyProcs_putMlqProc] at h
  split_ifs at h
  · exact (Multiset.mem_cons.mp h).symm
  · exact Or.inl h

private theorem held_setCpu {s : Os (Fin n) Mem} {c other : Fin n} {vars : Cpu} {proc : ProcId}
    (hVars : vars.holds = some proc → (s.cpu c).holds = some proc)
    (h : (s.setCpu c vars).holds other = some proc) : s.holds other = some proc := by
  rw [holds_setCpu] at h
  by_cases hSame : other = c
  · subst hSame
    rw [Function.update_self] at h
    exact hVars h
  · rwa [Function.update_of_ne hSame] at h

theorem OsMove.custody {s t : Os (Fin n) Mem} {call : OsCall (Fin n)} (hSlots : s.mlq.SlotsBounded)
    (move : OsMove cfg execute s call t) : OsCustody s call t := by
  cases move with
  | check c hLoc =>
      exact
        { index := Nat.le_refl _
          queued := fun _ hQueued => Or.inl hQueued
          held := fun _ _ hHeld =>
            Or.inl (held_setCpu (by rw [Cpu.holds_check hLoc]; exact id) hHeld)
          ran := fun _ _ hRan => by cases hRan
          executed := fun _ => Or.inl rfl }
  | recheck c hLoc =>
      exact
        { index := Nat.le_refl _
          queued := fun _ hQueued => Or.inl hQueued
          held := fun _ _ hHeld =>
            Or.inl (held_setCpu (by rw [Cpu.holds_recheck hLoc]; exact id) hHeld)
          ran := fun _ _ hRan => by cases hRan
          executed := fun _ => Or.inl rfl }
  | free c hLoc hProc =>
      exact
        { index := Nat.le_refl _
          queued := fun _ hQueued => Or.inl hQueued
          held := fun _ _ hHeld => Or.inl (held_setCpu (fun hNone => by cases hNone) hHeld)
          ran := fun _ _ hRan => by cases hRan
          executed := fun _ => Or.inl rfl }
  | putProc c hLoc hProc =>
      exact
        { index := Nat.le_refl _
          queued := by
            intro other hQueued
            rcases mem_putMlqProc hQueued with hOld | rfl
            · exact Or.inl hOld
            · exact Or.inr (Or.inl ⟨c, rfl, (Cpu.holds_of_loc (by simp [hLoc])).trans hProc⟩)
          held := fun _ _ hHeld => Or.inl (held_setCpu (fun hNone => by cases hNone) hHeld)
          ran := fun _ _ hRan => by cases hRan
          executed := fun _ => Or.inl rfl }
  | @getProc m result why fuel c hLoc hGet =>
      have hTaken := readyProcs_getProc hSlots hGet
      exact
        { index := Nat.le_refl _
          queued := fun other hQueued => Or.inl (hTaken ▸ Multiset.mem_add.mpr (Or.inl hQueued))
          held := by
            intro other proc hHeld
            rw [holds_setCpu] at hHeld
            by_cases hSame : other = c
            · subst hSame
              rw [Function.update_self, Cpu.holds_fetched] at hHeld
              subst hHeld
              exact Or.inr ⟨rfl, hTaken ▸ Multiset.mem_add.mpr (Or.inr (by simp))⟩
            · rw [Function.update_of_ne hSame] at hHeld
              exact Or.inl hHeld
          ran := fun _ _ hRan => by cases hRan
          executed := fun _ => Or.inl rfl }
  | @run proc ins next stat mem c hLoc hProc hStep hExecute =>
      exact
        { index := Nat.le_refl _
          queued := fun _ hQueued => Or.inl hQueued
          held := fun _ _ hHeld => Or.inl (held_setCpu (by rw [Cpu.holds_ran hLoc]; exact id) hHeld)
          ran := by
            intro c' proc' hCall
            obtain ⟨rfl, rfl⟩ := OsCall.run.inj hCall
            refine ⟨(Cpu.holds_of_loc (by simp [hLoc])).trans hProc, rfl, ?_⟩
            simp [Os.setCpu, Cpu.ran]
          executed := by
            intro other
            by_cases hSame : other = proc
            · subst hSame
              exact Or.inr ⟨c, rfl, by simp [Os.setCpu]⟩
            · exact Or.inl (by simp [Os.setCpu, hSame]) }
  | @runNothing proc c hLoc hProc hStep =>
      exact
        { index := Nat.le_refl _
          queued := fun _ hQueued => Or.inl hQueued
          held := fun _ _ hHeld => Or.inl (held_setCpu (by rw [Cpu.holds_ran hLoc]; exact id) hHeld)
          ran := by
            intro c' proc' hCall
            obtain ⟨rfl, rfl⟩ := OsCall.run.inj hCall
            refine ⟨(Cpu.holds_of_loc (by simp [hLoc])).trans hProc, rfl, ?_⟩
            simp [Os.setCpu, Cpu.ran]
          executed := fun _ => Or.inl rfl }
  | load | loadFails | finish =>
      exact
        { index := Nat.le_refl _
          queued := fun _ hQueued => Or.inl hQueued
          held := fun _ _ hHeld => Or.inl hHeld
          ran := fun _ _ hRan => by cases hRan
          executed := fun _ => Or.inl rfl }
  | addProc hLoc =>
      exact
        { index := Nat.le_succ _
          queued := by
            intro other hQueued
            rcases mem_putMlqProc hQueued with hOld | rfl
            · exact Or.inl hOld
            · exact Or.inr (Or.inr ⟨rfl, rfl⟩)
          held := fun _ _ hHeld => Or.inl hHeld
          ran := fun _ _ hRan => by cases hRan
          executed := fun _ => Or.inl rfl }

/-! The slots of the instructions -/

/-- What a party has run lies behind it, once it has returned from `next_slot`. -/
def Clocked.Behind (s : Clocked n Mem) (party : Fin (n + 1)) (slot : Nat) : Prop :=
  slot ≤ s.slot party ∧ (s.Works party → slot < s.slot party)

/-- The instructions that have been run, with respect to the CPUs and to the processes
where they are now. -/
structure Clocked.Timed (cfg : Config) (s : Clocked n Mem) (round : Nat) : Prop where
  owned : s.os.Owned cfg
  inRound : s.timer.InRound round
  loaded : ∀ r ∈ s.ran, r.proc < s.os.index
  bounded : ∀ r ∈ s.ran, r.slot ≤ round
  cpu : ∀ r ∈ s.ran, s.Behind (cpuEvent r.cpu) r.slot
  queued : ∀ r ∈ s.ran, r.proc ∈ s.os.mlq.readyProcs → r.slot < round
  held : ∀ r ∈ s.ran, ∀ c, s.os.holds c = some r.proc → s.Behind (cpuEvent c) r.slot
  ordered : s.ran.Pairwise fun first second => first.slot ≤ second.slot ∧
    (first.cpu = second.cpu ∨ first.proc = second.proc → first.slot < second.slot)
  executed : ∀ proc, (s.os.executed proc).length ≤ s.ran.countP fun r => r.proc == proc

theorem timed_initial (mem : Mem) : (Clocked.initial mem : Clocked n Mem).Timed cfg 0 where
  owned := owned_initial cfg mem
  inRound := inRound_initial
  loaded := nofun
  bounded := nofun
  cpu := nofun
  queued := nofun
  held := nofun
  ordered := List.Pairwise.nil
  executed := fun _ => Nat.le_refl 0

section Step

variable {s t : Clocked n Mem} {round slot : Nat} {party : Fin (n + 1)}

/-- A step of the timer system: nobody comes to work without a return. -/
theorem Clocked.Behind.timer {label : TimerCall (n + 1)} {timer : Timer (n + 1)}
    {due : Fin (n + 1) → Bool} (h : s.Behind party slot) (step : TimerStep s.timer label timer)
    (hDue : (timer.device party).phase = .working → due party = s.due party) :
    ({ s with timer := timer, due := due } : Clocked n Mem).Behind party slot := by
  obtain ⟨hLe, hLt⟩ := h
  rcases returned_step step party with ⟨hSame, hPhase⟩ | ⟨-, hNext⟩
  · refine ⟨hLe.trans hSame.ge, ?_⟩
    rintro ⟨hWorking, hNotDue⟩
    have hBefore : s.Works party := ⟨hPhase hWorking, (hDue hWorking).symm.trans hNotDue⟩
    exact (hLt hBefore).trans_le hSame.ge
  · have hLater : slot < (timer.device party).returned := by
      rw [hNext]
      exact Nat.lt_succ_of_le hLe
    exact ⟨hLater.le, fun _ => hLater⟩

private theorem Clocked.Timed.timer {label : TimerCall (n + 1)} {timer : Timer (n + 1)}
    {due : Fin (n + 1) → Bool} (h : s.Timed cfg round) (step : TimerStep s.timer label timer)
    (hDue : ∀ party, (timer.device party).phase = .working → due party = s.due party) :
    ∃ round', ({ s with timer := timer, due := due } : Clocked n Mem).Timed cfg round' := by
  obtain ⟨round', hLe, hRound'⟩ := h.inRound.round_le step
  exact ⟨round',
    { owned := h.owned
      inRound := hRound'
      loaded := h.loaded
      bounded := fun r hr => (h.bounded r hr).trans hLe
      cpu := fun r hr => (h.cpu r hr).timer step (hDue _)
      queued := fun r hr hQueued => (h.queued r hr hQueued).trans_le hLe
      held := fun r hr c hHeld => (h.held r hr c hHeld).timer step (hDue _)
      ordered := h.ordered
      executed := h.executed }⟩

theorem mem_recordRan {call : OsCall (Fin n)} {r : Ran n} (h : r ∈ s.recordRan call) :
    r ∈ s.ran ∨ ∃ c proc, call = .run c proc ∧ r = ⟨c, proc, s.slot (cpuEvent c)⟩ := by
  cases call with
  | run c proc =>
      rcases List.mem_append.mp h with hOld | hNew
      · exact Or.inl hOld
      · exact Or.inr ⟨c, proc, rfl, List.mem_singleton.mp hNew⟩
  | _ => exact Or.inl h

private theorem countP_recordRan (proc : ProcId) (call : OsCall (Fin n)) :
    (s.ran.countP fun r => r.proc == proc) ≤ (s.recordRan call).countP fun r => r.proc == proc := by
  cases call with
  | run c other =>
      change _ ≤ (s.ran ++ [_]).countP _
      rw [List.countP_append]
      exact Nat.le_add_right _ _
  | _ => exact le_rfl

/-- A step of the loader or a CPU, after which it may be at the end of its slot. -/
theorem Clocked.Behind.os {call : OsCall (Fin n)} (h : s.Behind party slot)
    (hWorks : s.Works call.event) (os : Os (Fin n) Mem) :
    (s.moved call os).Behind party slot := by
  refine ⟨h.1, ?_⟩
  rintro ⟨hPhase, hDue⟩
  apply h.2
  by_cases hSame : party = call.event
  · rw [hSame]
    exact hWorks
  · refine ⟨hPhase, ?_⟩
    rw [← hDue]
    exact (Function.update_of_ne hSame _ _).symm

private theorem Clocked.Timed.os {call : OsCall (Fin n)} {os : Os (Fin n) Mem}
    (h : s.Timed cfg round) (hWorks : s.Works call.event) (step : OsStep cfg execute s.os call os) :
    (s.moved call os).Timed cfg round := by
  have hMove := step.2.custody h.owned.slots
  have hSlot : s.slot call.event = round := h.inRound.returned_of_working hWorks.1
  -- What is run is behind its CPU, which is at the end of its slot.
  have hEnd : ∀ c proc, call = .run c proc →
      (s.moved call os).Behind (cpuEvent c) (s.slot (cpuEvent c)) := by
    rintro c proc rfl
    refine ⟨le_rfl, ?_⟩
    rintro ⟨-, hDue⟩
    obtain ⟨-, -, hLoc⟩ := hMove.ran c proc rfl
    have hIsDue : (s.moved (.run c proc) os).due (cpuEvent c) = true := by
      simp [Clocked.moved, OsCall.event, OsCall.dueAfter, hLoc]
    rw [hIsDue] at hDue
    cases hDue
  exact
    { owned := owned_step h.owned step
      inRound := h.inRound
      loaded := by
        intro r hr
        rcases mem_recordRan hr with hOld | ⟨c, proc, hCall, rfl⟩
        · exact (h.loaded r hOld).trans_le hMove.index
        · exact (h.owned.exclusive.held_alive c proc (hMove.ran c proc hCall).1).1.trans_le
            hMove.index
      bounded := by
        intro r hr
        rcases mem_recordRan hr with hOld | ⟨c, proc, rfl, rfl⟩
        · exact h.bounded r hOld
        · exact hSlot.le
      cpu := by
        intro r hr
        rcases mem_recordRan hr with hOld | ⟨c, proc, hCall, rfl⟩
        · exact (h.cpu r hOld).os hWorks os
        · exact hEnd c proc hCall
      queued := by
        intro r hr hQueued
        rcases mem_recordRan hr with hOld | ⟨c, proc, hCall, rfl⟩
        · rcases hMove.queued r.proc hQueued with hBefore | ⟨c, rfl, hHolds⟩ | ⟨rfl, hIndex⟩
          · exact h.queued r hOld hBefore
          · exact ((h.held r hOld c hHolds).2 hWorks).trans_eq hSlot
          · exact absurd hIndex (h.loaded r hOld).ne
        · obtain ⟨hHolds, hSame, -⟩ := hMove.ran c proc hCall
          change proc ∈ os.mlq.readyProcs at hQueued
          rw [hSame] at hQueued
          exact absurd hQueued (h.owned.exclusive.outside c proc hHolds)
      held := by
        intro r hr c' hHeld
        rcases mem_recordRan hr with hOld | ⟨c, proc, hCall, rfl⟩
        · rcases hMove.held c' r.proc hHeld with hBefore | ⟨rfl, hQueued⟩
          · exact (h.held r hOld c' hBefore).os hWorks os
          · have hLt : r.slot < s.slot (cpuEvent c') :=
              (h.queued r hOld hQueued).trans_eq hSlot.symm
            exact ⟨hLt.le, fun _ => hLt⟩
        · obtain ⟨hHolds, -, -⟩ := hMove.ran c proc hCall
          rcases hMove.held c' proc hHeld with hBefore | ⟨hOther, -⟩
          · rw [h.owned.exclusive.unique c' c proc hBefore hHolds]
            exact hEnd c proc hCall
          · rw [hCall] at hOther
            cases hOther
      ordered := by
        cases call with
        | run c proc =>
            obtain ⟨hHolds, -, -⟩ := hMove.ran c proc rfl
            refine List.pairwise_append.mpr ⟨h.ordered, List.pairwise_singleton _ _, ?_⟩
            intro r hr new hNew
            obtain rfl := List.mem_singleton.mp hNew
            refine ⟨(h.bounded r hr).trans hSlot.ge, ?_⟩
            rintro (hCpu | hProc)
            · have hBehind := h.cpu r hr
              rw [hCpu] at hBehind
              exact hBehind.2 hWorks
            · exact (h.held r hr c (hHolds.trans (congrArg some hProc.symm))).2 hWorks
        | _ => exact h.ordered
      executed := by
        intro proc
        have hLe := h.executed proc
        rcases hMove.executed proc with hSame | ⟨c, rfl, hNext⟩
        · rw [Clocked.moved, hSame]
          exact hLe.trans (countP_recordRan proc call)
        · change (os.executed proc).length ≤ (s.ran ++ [_]).countP _
          rw [hNext, List.countP_append, List.countP_singleton, if_pos (by simp)]
          exact Nat.succ_le_succ hLe }

theorem Clocked.Timed.step {call : ClockedCall n} (h : s.Timed cfg round)
    (step : ClockedStep cfg startTime execute s call t) : ∃ round', t.Timed cfg round' := by
  obtain ⟨hExited, move⟩ := step
  cases move with
  | os hWorks hStart hMove => exact ⟨round, h.os hWorks ⟨hExited, hMove⟩⟩
  | nextSlot party hDue hStep =>
      apply h.timer hStep
      intro other hPhase
      rw [Function.update_of_ne]
      rintro rfl
      cases hStep with
      | nextSlot => simp at hPhase
  | slotReturns party hStep => exact h.timer hStep fun _ _ => rfl
  | timer hStep => exact h.timer hStep fun _ _ => rfl
  | detachEvent party hStopped hStep => exact h.timer hStep fun _ _ => rfl
  | stopTimer hJoined hStep => exact h.timer hStep fun _ _ => rfl

theorem timed_run {mem : Mem} {labels : List (ClockedCall n)}
    (run : Runs (ClockedStep cfg startTime execute) (Clocked.initial mem) labels s) :
    ∃ round, s.Timed cfg round := by
  apply run.invariant (fun s => ∃ round, s.Timed cfg round) ⟨0, timed_initial mem⟩
  rintro s label t ⟨round, h⟩ step
  exact h.step step

end Step

/-- Different numbers up to a bound are at most one more than the bound. -/
private theorem length_le_of_increasing {slots : List Nat} {bound : Nat}
    (hIncreasing : slots.Pairwise (· < ·)) (hBound : ∀ slot ∈ slots, slot ≤ bound) :
    slots.length ≤ bound + 1 := by
  have hNodup : slots.Nodup := hIncreasing.imp Nat.ne_of_lt
  have hSubset : slots ⊆ List.range (bound + 1) := by
    intro slot hSlot
    exact List.mem_range.mpr (Nat.lt_succ_of_le (hBound slot hSlot))
  calc slots.length ≤ (List.range (bound + 1)).length := (hNodup.subperm hSubset).length_le
    _ = bound + 1 := List.length_range

/-- Everybody works in the slot whose number the timer shows. No CPU and no process runs
more than one instruction in a slot, so that a slot has at most one for each CPU and a
process has at most one for each slot so far. -/
structure Clocked.Lockstep (s : Clocked n Mem) : Prop where
  time : ∀ party, (s.timer.device party).phase = .working →
    s.timer.currentTime = UInt64.ofNat (s.slot party)
  inOrder : s.ran.Pairwise fun first second => first.slot ≤ second.slot
  oncePerCpu : s.ran.Pairwise fun first second =>
    first.cpu = second.cpu → first.slot < second.slot
  oncePerProc : s.ran.Pairwise fun first second =>
    first.proc = second.proc → first.slot < second.slot
  width : ∀ slot, (s.ran.filter fun r => r.slot == slot).length ≤ n
  executed : ∀ party proc, (s.timer.device party).phase = .working →
    (s.os.executed proc).length ≤ s.slot party + 1

theorem lockstep_run {mem : Mem} {labels : List (ClockedCall n)} {s : Clocked n Mem}
    (run : Runs (ClockedStep cfg startTime execute) (Clocked.initial mem) labels s) :
    s.Lockstep := by
  obtain ⟨round, h⟩ := timed_run run
  have hSlot : ∀ party, (s.timer.device party).phase = .working → s.slot party = round :=
    fun party hPhase => h.inRound.returned_of_working hPhase
  have hCpu : s.ran.Pairwise fun first second =>
      first.cpu = second.cpu → first.slot < second.slot :=
    h.ordered.imp fun hPair hSame => hPair.2 (Or.inl hSame)
  have hProc : s.ran.Pairwise fun first second =>
      first.proc = second.proc → first.slot < second.slot :=
    h.ordered.imp fun hPair hSame => hPair.2 (Or.inr hSame)
  constructor
  · intro party hPhase
    rw [hSlot party hPhase]
    exact h.inRound.time
  · exact h.ordered.imp fun hPair => hPair.1
  · exact hCpu
  · exact hProc
  · intro slot
    have hCpus : ((s.ran.filter fun r => r.slot == slot).map Ran.cpu).Nodup := by
      rw [List.Nodup, List.pairwise_map, List.pairwise_filter]
      apply hCpu.imp
      intro first second hPair hFirst hSecond hSame
      have hLt := hPair hSame
      rw [beq_iff_eq.mp hFirst, beq_iff_eq.mp hSecond] at hLt
      exact hLt.false
    have hCard := hCpus.length_le_card
    rwa [List.length_map, Fintype.card_fin] at hCard
  · intro party proc hPhase
    rw [hSlot party hPhase]
    refine (h.executed proc).trans ?_
    rw [List.countP_eq_length_filter, ← List.length_map Ran.slot]
    apply length_le_of_increasing
    · rw [List.pairwise_map, List.pairwise_filter]
      apply hProc.imp
      intro first second hPair hFirst hSecond
      exact hPair ((beq_iff_eq.mp hFirst).trans (beq_iff_eq.mp hSecond).symm)
    · intro slot hMem
      obtain ⟨r, hr, rfl⟩ := List.mem_map.mp hMem
      exact h.bounded r (List.mem_of_mem_filter hr)

section Example

/-- Two processes of one calculation for one CPU. Both may come at once. -/
def twoAtOnce : Config := { calculations 1 with numProcesses := 2 }

def onlyCpu : Fin 1 := Fin.last 0

/-- The CPU runs the first process in slot 0, and the loader hands in the second one
in slot 1. -/
def twoSlots : List (ClockedCall 1) :=
  [.os (.load 0), .os (.addProc 0), .timer (.nextSlot ldEvent), .os (.compute onlyCpu),
    .os (.getProc onlyCpu (some 0)), .os (.compute onlyCpu), .os (.run onlyCpu 0),
    .timer (.nextSlot (cpuEvent onlyCpu)),
    .timer .timer, .timer .timer, .timer .timer, .timer .timer, .timer .timer, .timer .timer,
    .timer .timer, .timer (.slotReturns ldEvent), .os (.load 1), .os (.addProc 1)]

theorem twoSlots_run : ∃ s : Clocked 1 Nat,
    Runs (ClockedStep twoAtOnce (fun _ => 0) calcSucceeds) (Clocked.initial 0) twoSlots s ∧
      s.ran.length = 1 ∧ s.os.index = 2 ∧ s.slot ldEvent = 1 :=
  ⟨_, Runs.cons ⟨rfl, .os ⟨rfl, rfl⟩ (fun _ hCall => by cases hCall) (.load rfl (by decide) rfl)⟩ <|
    Runs.cons ⟨rfl, .os ⟨rfl, rfl⟩ (fun _ _ hAwaits => absurd hAwaits.2 (by decide))
      (.addProc rfl)⟩ <|
    Runs.cons ⟨rfl, .nextSlot ldEvent (Or.inl rfl) (.nextSlot ldEvent rfl)⟩ <|
    Runs.cons ⟨rfl, .os ⟨rfl, rfl⟩ (fun _ hCall => by cases hCall) (.check 0 rfl)⟩ <|
    Runs.cons ⟨rfl, .os ⟨rfl, rfl⟩ (fun _ hCall => by cases hCall) (.getProc 1 0 rfl rfl)⟩ <|
    Runs.cons ⟨rfl, .os ⟨rfl, rfl⟩ (fun _ hCall => by cases hCall) (.recheck 0 rfl)⟩ <|
    Runs.cons ⟨rfl, .os ⟨rfl, rfl⟩ (fun _ hCall => by cases hCall)
      (.run 0 rfl rfl rfl ⟨rfl, rfl⟩)⟩ <|
    Runs.cons ⟨rfl, .nextSlot (cpuEvent onlyCpu) (Or.inl rfl) (.nextSlot (cpuEvent onlyCpu) rfl)⟩ <|
    Runs.cons ⟨rfl, .timer (.enter rfl rfl)⟩ <|
    Runs.cons ⟨rfl, .timer (.collect 0 rfl (Or.inl rfl))⟩ <|
    Runs.cons ⟨rfl, .timer (.collect 1 rfl (Or.inl rfl))⟩ <|
    Runs.cons ⟨rfl, .timer (.advance rfl)⟩ <|
    Runs.cons ⟨rfl, .timer (.release 0 rfl)⟩ <|
    Runs.cons ⟨rfl, .timer (.release 1 rfl)⟩ <|
    Runs.cons ⟨rfl, .timer (.finish rfl)⟩ <|
    Runs.cons ⟨rfl, .slotReturns ldEvent (.slotReturns ldEvent rfl rfl)⟩ <|
    Runs.cons ⟨rfl, .os ⟨rfl, rfl⟩ (fun _ hCall => by cases hCall) (.load rfl (by decide) rfl)⟩ <|
    Runs.one ⟨rfl, .os ⟨rfl, rfl⟩ (fun _ _ hAwaits => absurd hAwaits.2 (by decide))
      (.addProc rfl)⟩, rfl, rfl, rfl⟩

theorem lockstep_run_two : ∃ s : Clocked 1 Nat, s.ran.length = 1 ∧ s.Lockstep := by
  obtain ⟨s, run, hRan, -⟩ := twoSlots_run
  exact ⟨s, hRan, lockstep_run run⟩

end Example

end Btlos
