import Btlos.Os.Lockstep

/-! The time slots in which the loader hands in the processes: the one that the
configuration asks for, or the one after that of the process before it. -/
namespace Btlos

open Transition

variable {n : Nat} {Mem : Type*} {cfg : Config} {startTime : ProcId → UInt64}
  {execute : ProcId → Inst → Mem → Int → Mem → Prop}

/-- The slot of each process, from the start times. -/
def arrivalSlot (start : ProcId → Nat) : ProcId → Nat
  | 0 => start 0
  | i + 1 => max (start (i + 1)) (arrivalSlot start i + 1)

/-- The first slot in which the loader can come to a process. -/
def soonestSlot (start : ProcId → Nat) : ProcId → Nat
  | 0 => 0
  | i + 1 => arrivalSlot start i + 1

theorem arrivalSlot_eq (start : ProcId → Nat) (i : ProcId) :
    arrivalSlot start i = max (start i) (soonestSlot start i) := by
  cases i with
  | zero => exact (Nat.max_zero (start 0)).symm
  | succ i => rfl

/-- The slots that the loader is in before it hands in the next process. -/
structure Clocked.Loads (start : ProcId → Nat) (s : Clocked n Mem) : Prop where
  arrivals : s.arrivals = (List.range s.os.index).map (arrivalSlot start)
  working : s.os.loader ≠ .stopped → s.Works ldEvent →
    soonestSlot start s.os.index ≤ s.slot ldEvent ∧ s.slot ldEvent ≤ arrivalSlot start s.os.index
  due : s.due ldEvent = true → s.slot ldEvent + 1 = soonestSlot start s.os.index
  waiting : s.os.loader ≠ .stopped → (s.timer.device ldEvent).phase = .waiting →
    soonestSlot start s.os.index ≤ s.slot ldEvent + 1 ∧
      s.slot ldEvent + 1 ≤ arrivalSlot start s.os.index
  notDue : (s.timer.device ldEvent).phase = .waiting → s.due ldEvent = false

theorem loads_initial (start : ProcId → Nat) (mem : Mem) :
    (Clocked.initial mem : Clocked n Mem).Loads start where
  arrivals := rfl
  working _ _ := ⟨Nat.le_refl 0, Nat.zero_le _⟩
  due := nofun
  waiting _ := nofun
  notDue := nofun

/-- The steps of the CPUs leave the loader alone. -/
theorem OsMove.loader {s t : Os (Fin n) Mem} {call : OsCall (Fin n)}
    (move : OsMove cfg execute s call t) (hOther : call.event ≠ ldEvent) :
    t.loader = s.loader ∧ t.index = s.index := by
  cases move with
  | load | loadFails | addProc | finish => exact absurd rfl hOther
  | check | recheck | free | putProc | getProc | run | runNothing => exact ⟨rfl, rfl⟩

/-- Only the own calls of a device change where it is and how often it has returned. -/
theorem device_step {m : Nat} {s t : Timer m} {label : TimerCall m} (step : TimerStep s label t)
    (i : Fin m) (hCall : label ≠ .nextSlot i) (hReturn : label ≠ .slotReturns i)
    (hDetach : label ≠ .detachEvent i) :
    (t.device i).phase = (s.device i).phase ∧ (t.device i).returned = (s.device i).returned := by
  cases step with
  | enter | exit | collect | advance | finish | stopTimer => exact ⟨rfl, rfl⟩
  | release j hLoc =>
      rw [device_setDevice]
      split_ifs with hSame
      · rw [hSame]
        exact ⟨rfl, rfl⟩
      · exact ⟨rfl, rfl⟩
  | nextSlot j hPhase | slotReturns j hPhase | detachEvent j hPhase =>
      rw [device_setDevice, if_neg]
      · exact ⟨rfl, rfl⟩
      · rintro rfl
        contradiction

section Step

variable {s t : Clocked n Mem} {start : ProcId → Nat}

/-- The loader is where it was. -/
private theorem Clocked.Loads.keep (h : s.Loads start) (hArrivals : t.arrivals = s.arrivals)
    (hLoader : t.os.loader = s.os.loader) (hIndex : t.os.index = s.os.index)
    (hPhase : (t.timer.device ldEvent).phase = (s.timer.device ldEvent).phase)
    (hSlot : t.slot ldEvent = s.slot ldEvent) (hDue : t.due ldEvent = s.due ldEvent) :
    t.Loads start := by
  constructor
  · rw [hArrivals, hIndex]
    exact h.arrivals
  · rw [hLoader, hIndex, hSlot, Clocked.Works, hPhase, hDue]
    exact h.working
  · rw [hDue, hSlot, hIndex]
    exact h.due
  · rw [hLoader, hIndex, hSlot, hPhase]
    exact h.waiting
  · rw [hPhase, hDue]
    exact h.notDue

private theorem toNat_ofNat {slot : Nat} (h : slot < 2 ^ 64) : (UInt64.ofNat slot).toNat = slot :=
  UInt64.toNat_ofNat_of_lt' h

/-- A step of a CPU or the loader, in slot number `s.slot ldEvent`. -/
private theorem Clocked.Loads.os {call : OsCall (Fin n)} {os : Os (Fin n) Mem}
    (h : s.Loads fun i => (startTime i).toNat) (hWorks : s.Works call.event)
    (hTime : s.Works ldEvent → s.timer.currentTime.toNat = s.slot ldEvent)
    (hStart : ∀ proc, call = .addProc proc → ¬ s.AwaitsStart startTime)
    (move : OsMove cfg execute s.os call os) :
    (s.moved call os).Loads fun i => (startTime i).toNat := by
  by_cases hOther : call.event ≠ ldEvent
  · obtain ⟨hLoader, hIndex⟩ := move.loader hOther
    refine h.keep ?_ hLoader hIndex rfl rfl (Function.update_of_ne (Ne.symm hOther) _ _)
    cases call with
    | addProc => exact absurd rfl hOther
    | _ => rfl
  · have hEvent : call.event = ldEvent := not_not.mp hOther
    rw [hEvent] at hWorks
    have hPhase : (s.timer.device ldEvent).phase ≠ .waiting := by simp [hWorks.1]
    cases move with
    | load hLoc hMore hProgram =>
        exact
          { arrivals := h.arrivals
            working := fun _ _ => h.working (by simp [hLoc]) hWorks
            due := by simp [Clocked.moved, OsCall.event, OsCall.dueAfter]
            waiting := fun _ hWaiting => absurd hWaiting hPhase
            notDue := fun hWaiting => absurd hWaiting hPhase }
    | loadFails hLoc hMore hProgram =>
        exact
          { arrivals := h.arrivals
            working := fun _ _ => h.working (by simp [hLoc]) hWorks
            due := by simp [Clocked.moved, OsCall.event, OsCall.dueAfter]
            waiting := fun _ hWaiting => absurd hWaiting hPhase
            notDue := fun hWaiting => absurd hWaiting hPhase }
    | addProc hLoc =>
        have hSlot : s.slot ldEvent = arrivalSlot (fun i => (startTime i).toNat) s.os.index := by
          obtain ⟨hSoonest, hLatest⟩ := h.working (by simp [hLoc]) hWorks
          have hNotBefore : ¬ s.timer.currentTime < startTime s.os.index :=
            fun hLt => hStart _ rfl ⟨hLoc, hLt⟩
          rw [UInt64.lt_iff_toNat_lt, hTime hWorks] at hNotBefore
          rw [arrivalSlot_eq] at hLatest ⊢
          omega
        exact
          { arrivals := by
              change s.arrivals ++ [s.slot ldEvent] = (List.range (s.os.index + 1)).map _
              rw [h.arrivals, hSlot, List.range_succ, List.map_append, List.map_singleton]
            working := fun _ hNot => by simp [Clocked.Works, Clocked.moved, OsCall.event,
              OsCall.dueAfter] at hNot
            due := fun _ => congrArg (· + 1) hSlot
            waiting := fun _ hWaiting => absurd hWaiting hPhase
            notDue := fun hWaiting => absurd hWaiting hPhase }
    | finish hLoc hMore =>
        exact
          { arrivals := h.arrivals
            working := fun hNot => absurd rfl hNot
            due := by simp [Clocked.moved, OsCall.event, OsCall.dueAfter]
            waiting := fun hNot => absurd rfl hNot
            notDue := fun hWaiting => absurd hWaiting hPhase }
    | check c | recheck c | free c | putProc c | getProc _ c | run c | runNothing c =>
        exact absurd hEvent (cpuEvent_ne_ldEvent c)

/-- A step of the timer system. -/
private theorem Clocked.Loads.timer {call : ClockedCall n}
    (h : s.Loads fun i => (startTime i).toNat)
    (hTime : s.Works ldEvent → s.timer.currentTime.toNat = s.slot ldEvent)
    (move : ClockedMove cfg startTime execute s call t) (hCall : call.os? = none) :
    t.Loads fun i => (startTime i).toNat := by
  cases move with
  | os => cases hCall
  | @nextSlot timer party hDue hStep =>
      by_cases hParty : party = ldEvent
      · subst hParty
        have hWorking : (s.timer.device ldEvent).phase = .working := by
          cases hStep with
          | nextSlot _ hPhase => exact hPhase
        have hAfter : (timer.device ldEvent).phase = .waiting ∧
            (timer.device ldEvent).returned = s.slot ldEvent := by
          cases hStep with
          | nextSlot => simp [Clocked.slot]
        have hNext : s.os.loader ≠ .stopped →
            soonestSlot (fun i => (startTime i).toNat) s.os.index ≤ s.slot ldEvent + 1 ∧
              s.slot ldEvent + 1 ≤ arrivalSlot (fun i => (startTime i).toNat) s.os.index := by
          intro hLoader
          rw [arrivalSlot_eq]
          cases hIs : s.due ldEvent with
          | true =>
              have hSlot := h.due hIs
              omega
          | false =>
              have hWorks : s.Works ldEvent := ⟨hWorking, hIs⟩
              have hAwaits : s.AwaitsStart startTime := by
                rcases hDue with hTrue | ⟨-, hAwaits⟩
                · rw [hIs] at hTrue
                  cases hTrue
                · exact hAwaits
              have hBefore := hAwaits.2
              rw [UInt64.lt_iff_toNat_lt, hTime hWorks] at hBefore
              have hSoonest := (h.working hLoader hWorks).1
              omega
        have hSlot : ({ s with
            timer := timer, due := Function.update s.due ldEvent false } :
            Clocked n Mem).slot ldEvent = s.slot ldEvent := hAfter.2
        have hDueAfter : Function.update s.due ldEvent false ldEvent = false :=
          Function.update_self _ _ _
        constructor
        · exact h.arrivals
        · rintro - ⟨hPhase, -⟩
          exact absurd (hPhase.symm.trans hAfter.1) nofun
        · intro hTrue
          change Function.update s.due ldEvent false ldEvent = true at hTrue
          rw [hDueAfter] at hTrue
          cases hTrue
        · intro hLoader _
          rw [hSlot]
          exact hNext hLoader
        · exact fun _ => hDueAfter
      · obtain ⟨hPhase, hReturned⟩ := device_step hStep ldEvent
          (fun hSame => hParty (TimerCall.nextSlot.inj hSame)) nofun nofun
        exact h.keep rfl rfl rfl hPhase hReturned (Function.update_of_ne (Ne.symm hParty) _ _)
  | @slotReturns timer party hStep =>
      by_cases hParty : party = ldEvent
      · subst hParty
        have hWaiting : (s.timer.device ldEvent).phase = .waiting := by
          cases hStep with
          | slotReturns _ hPhase => exact hPhase
        have hAfter : (timer.device ldEvent).phase = .working ∧
            (timer.device ldEvent).returned = s.slot ldEvent + 1 := by
          cases hStep with
          | slotReturns => simp [Clocked.slot]
        have hSlot : ({ s with timer := timer } : Clocked n Mem).slot ldEvent =
            s.slot ldEvent + 1 := hAfter.2
        constructor
        · exact h.arrivals
        · intro hLoader _
          rw [hSlot]
          exact h.waiting hLoader hWaiting
        · intro hTrue
          exact absurd (hTrue.symm.trans (h.notDue hWaiting)) nofun
        · intro _ hPhase
          exact absurd (hPhase.symm.trans hAfter.1) nofun
        · intro hPhase
          exact absurd (hPhase.symm.trans hAfter.1) nofun
      · obtain ⟨hPhase, hReturned⟩ := device_step hStep ldEvent nofun
          (fun hSame => hParty (TimerCall.slotReturns.inj hSame)) nofun
        exact h.keep rfl rfl rfl hPhase hReturned rfl
  | timer hStep =>
      obtain ⟨hPhase, hReturned⟩ := device_step hStep ldEvent nofun nofun nofun
      exact h.keep rfl rfl rfl hPhase hReturned rfl
  | @detachEvent timer party hStopped hStep =>
      by_cases hParty : party = ldEvent
      · subst hParty
        have hLoader : s.os.loader = .stopped := by
          rcases hStopped with ⟨-, hLoader⟩ | ⟨c, hCpu, -⟩
          · exact hLoader
          · exact absurd hCpu.symm (cpuEvent_ne_ldEvent c)
        have hAfter : (timer.device ldEvent).phase = .detached ∧
            (timer.device ldEvent).returned = s.slot ldEvent := by
          cases hStep with
          | detachEvent => simp [Clocked.slot]
        have hSlot : ({ s with timer := timer } : Clocked n Mem).slot ldEvent = s.slot ldEvent :=
          hAfter.2
        constructor
        · exact h.arrivals
        · exact fun hNot => absurd hLoader hNot
        · rw [hSlot]
          exact h.due
        · exact fun hNot => absurd hLoader hNot
        · intro hPhase
          exact absurd (hPhase.symm.trans hAfter.1) nofun
      · obtain ⟨hPhase, hReturned⟩ := device_step hStep ldEvent nofun nofun
          (fun hSame => hParty (TimerCall.detachEvent.inj hSame))
        exact h.keep rfl rfl rfl hPhase hReturned rfl
  | stopTimer hJoined hStep =>
      obtain ⟨hPhase, hReturned⟩ := device_step hStep ldEvent nofun nofun nofun
      exact h.keep rfl rfl rfl hPhase hReturned rfl

/-- The slots of a party only go on. -/
theorem slot_le {call : ClockedCall n} (step : ClockedStep cfg startTime execute s call t)
    (party : Fin (n + 1)) : s.slot party ≤ t.slot party := by
  have hTimer : ∀ {label} {timer : Timer (n + 1)}, TimerStep s.timer label timer →
      s.slot party ≤ (timer.device party).returned := by
    intro label timer hStep
    rcases returned_step hStep party with ⟨hSame, -⟩ | ⟨-, hNext⟩
    · exact hSame.ge
    · exact (Nat.le_succ _).trans hNext.ge
  obtain ⟨-, move⟩ := step
  cases move with
  | os => exact le_rfl
  | nextSlot _ _ hStep | slotReturns _ hStep | timer hStep | detachEvent _ _ hStep
  | stopTimer _ hStep => exact hTimer hStep

end Step

theorem loads_run {mem : Mem} {labels : List (ClockedCall n)} {s : Clocked n Mem}
    (run : Runs (ClockedStep cfg startTime execute) (Clocked.initial mem) labels s)
    (hSlots : s.slot ldEvent < 2 ^ 64) : s.Loads fun i => (startTime i).toNat := by
  have hInvariant : (∃ round, s.Timed cfg round) ∧
      (s.slot ldEvent < 2 ^ 64 → s.Loads fun i => (startTime i).toNat) := by
    apply run.invariant (fun s => (∃ round, s.Timed cfg round) ∧
      (s.slot ldEvent < 2 ^ 64 → s.Loads fun i => (startTime i).toNat))
    · exact ⟨⟨0, timed_initial mem⟩, fun _ => loads_initial _ mem⟩
    · rintro s label t ⟨⟨round, hTimed⟩, hLoads⟩ step
      refine ⟨hTimed.step step, fun hLater => ?_⟩
      have hNow : s.slot ldEvent < 2 ^ 64 := (slot_le step ldEvent).trans_lt hLater
      have hTime : s.Works ldEvent → s.timer.currentTime.toNat = s.slot ldEvent := by
        intro hWorks
        have hSlot : s.slot ldEvent = round := hTimed.inRound.returned_of_working hWorks.1
        rw [Timer.currentTime, hTimed.inRound.time, ← hSlot]
        exact toNat_ofNat hNow
      obtain ⟨-, move⟩ := step
      cases label with
      | os call =>
          cases move with
          | os hWorks hStart hMove => exact (hLoads hNow).os hWorks hTime hStart hMove
      | timer call => exact (hLoads hNow).timer hTime move rfl
  exact hInvariant.2 hSlots

/-- As long as the time of 64 bits has not wrapped around in the slots of the loader, it has
handed in the processes in order, each in the slot that the start times say. -/
theorem arrivals_run {mem : Mem} {labels : List (ClockedCall n)} {s : Clocked n Mem}
    (run : Runs (ClockedStep cfg startTime execute) (Clocked.initial mem) labels s)
    (hSlots : s.slot ldEvent < 2 ^ 64) :
    s.arrivals = (List.range s.os.index).map (arrivalSlot fun i => (startTime i).toNat) :=
  (loads_run run hSlots).arrivals

/-- Two processes that may come in slot 0 come in the slots 0 and 1. -/
theorem arrivals_run_two : ∃ s : Clocked 1 Nat,
    s.os.index = 2 ∧ s.arrivals = (List.range s.os.index).map (arrivalSlot fun _ => 0) ∧
      (List.range 2).map (arrivalSlot fun _ => 0) = [0, 1] := by
  obtain ⟨s, run, -, hIndex, hSlot⟩ := twoSlots_run
  exact ⟨s, hIndex, arrivals_run run (by rw [hSlot]; decide), rfl⟩

end Btlos
