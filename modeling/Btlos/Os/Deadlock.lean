import Btlos.Os.Progress

/-! The simulation never gets stuck: while a thread has not come to its end, somebody can
take a step. -/
namespace Btlos

open Transition

section Timer

variable {m : Nat} {s t : Timer m} {label : TimerCall m} {i : Fin m}

/-- What the timer has seen of the flags `fsh` when it is at a place of its loops. -/
def Timer.Seen (s : Timer m) : TimerLoc → Prop
  | .test => True
  | .collect index fsh event => index ≤ m ∧ event = index ∧ fsh ≤ event ∧
      (fsh = event → ∀ i : Fin m, i < index → (s.device i).fsh = true)
  | .release index fsh event => index ≤ m ∧ (fsh = event → ∀ i, (s.device i).fsh = true)
  | .ended => ∀ i, (s.device i).fsh = true

/-- The timer does not end before all devices have left. -/
structure Timer.Attends (s : Timer m) : Prop where
  seen : s.Seen s.loc
  stopped : s.timerStop = true → ∀ i, (s.device i).fsh = true

theorem attends_initial : (Timer.initial m).Attends where
  seen := trivial
  stopped := fun h => by cases h

/-- A device that the timer counts on has not left. -/
private theorem Device.Fits.here {d : Device} {loc : TimerLoc} {round index : Nat}
    (h : d.Fits loc round index) : d.phase ≠ .detached := by
  have hReleased : d.Released round → d.phase ≠ .detached := by
    rintro (⟨hPhase, -⟩ | ⟨hPhase, -⟩ | ⟨hPhase, -⟩) <;> simp [hPhase]
  have hHeld : ∀ round', d.Held round' → d.phase ≠ .detached := by
    intro round' hHeld
    simp [hHeld.1]
  cases loc with
  | test | ended => exact hReleased h
  | collect place fsh event =>
      rw [Device.Fits] at h
      split_ifs at h
      · exact hHeld _ h
      · exact hReleased h
  | release place fsh event =>
      rw [Device.Fits] at h
      split_ifs at h
      · exact hReleased h
      · exact hHeld _ h

private theorem fsh_step (step : TimerStep s label t) (h : (s.device i).fsh = true) :
    (t.device i).fsh = true := by
  cases step with
  | enter | exit | collect | advance | finish | stopTimer => exact h
  | release j | nextSlot j | slotReturns j =>
      rw [device_setDevice]
      split_ifs with hSame
      · rw [← hSame]
        exact h
      · exact h
  | detachEvent j =>
      rw [device_setDevice]
      split_ifs
      · rfl
      · exact h

private theorem Timer.Seen.mono {loc : TimerLoc} (h : s.Seen loc)
    (hFsh : ∀ i, (s.device i).fsh = true → (t.device i).fsh = true) : t.Seen loc := by
  cases loc with
  | test => exact trivial
  | collect index fsh event =>
      obtain ⟨hIndex, hEvent, hLe, hAll⟩ := h
      exact ⟨hIndex, hEvent, hLe, fun hSame i hi => hFsh i (hAll hSame i hi)⟩
  | release index fsh event => exact ⟨h.1, fun hSame i => hFsh i (h.2 hSame i)⟩
  | ended => exact fun i => hFsh i (h i)

theorem Timer.Attends.step (h : s.Attends) (step : TimerStep s label t)
    (hStop : label = .stopTimer → ∀ i, (s.device i).fsh = true) : t.Attends := by
  have hFsh : ∀ i, (s.device i).fsh = true → (t.device i).fsh = true := fun i => fsh_step step
  have hSeen := h.seen
  cases step with
  | enter hLoc hRuns =>
      exact ⟨⟨Nat.zero_le m, rfl, Nat.le_refl 0, fun _ i hi => absurd hi (Nat.not_lt_zero _)⟩,
        h.stopped⟩
  | exit hLoc hStops => exact ⟨h.stopped hStops, h.stopped⟩
  | @collect fsh event i hLoc hReady =>
      rw [hLoc] at hSeen
      obtain ⟨-, hEvent, hLe, hAll⟩ := hSeen
      refine ⟨⟨i.isLt, congrArg (· + 1) hEvent, ?_, ?_⟩, h.stopped⟩
      · split_ifs <;> omega
      · intro hSame j hj
        split_ifs at hSame with hFlag
        · rcases Nat.lt_succ_iff_lt_or_eq.mp hj with hBefore | hHere
          · exact hAll (Nat.succ.inj hSame) j hBefore
          · rw [Fin.ext hHere]
            exact hFlag
        · omega
  | @advance fsh event hLoc =>
      rw [hLoc] at hSeen
      exact ⟨⟨Nat.zero_le m, fun hSame i => hSeen.2.2.2 hSame i i.isLt⟩, h.stopped⟩
  | @release fsh event i hLoc =>
      rw [hLoc] at hSeen
      exact ⟨⟨i.isLt, fun hSame j => hFsh j (hSeen.2 hSame j)⟩, fun hStops j =>
        hFsh j (h.stopped hStops j)⟩
  | @finish fsh event hLoc =>
      rw [hLoc] at hSeen
      refine ⟨?_, h.stopped⟩
      dsimp only
      split_ifs with hSame
      · exact hSeen.2 hSame
      · exact trivial
  | nextSlot i hPhase | slotReturns i hPhase | detachEvent i hPhase =>
      exact ⟨hSeen.mono hFsh, fun hStops j => hFsh j (h.stopped hStops j)⟩
  | stopTimer => exact ⟨hSeen.mono fun _ hFlag => hFlag, fun _ => hStop rfl⟩

/-- The timer can go on, or waits for a device that is not held by it. -/
theorem Timer.Attends.goes_on (h : s.Attends) {round : Nat} (hRound : s.InRound round)
    (hHere : ∃ i, (s.device i).phase ≠ .detached) :
    (∃ t, TimerStep s .timer t) ∨ ∃ i, (s.device i).phase = .working ∨
      (s.device i).phase = .waiting ∧ (s.device i).done = false := by
  have hSeen := h.seen
  obtain ⟨here, hHere⟩ := hHere
  have hNotAll : ¬ ∀ i, (s.device i).fsh = true := by
    intro hAll
    rcases hRound.fits here with ⟨hDetached, -⟩ | ⟨hFsh, -⟩
    · exact hHere hDetached
    · rw [hAll here] at hFsh
      cases hFsh
  cases hLoc : s.loc with
  | test =>
      left
      cases hStop : s.timerStop with
      | false => exact ⟨_, .enter hLoc hStop⟩
      | true => exact ⟨_, .exit hLoc hStop⟩
  | collect index fsh event =>
      rw [hLoc] at hSeen
      rcases Nat.lt_or_eq_of_le hSeen.1 with hIndex | rfl
      · -- The device at the place of the timer has raised a flag, or is not in its hands.
        by_cases hReady : (s.device ⟨index, hIndex⟩).done = true ∨
            (s.device ⟨index, hIndex⟩).fsh = true
        · exact Or.inl ⟨_, .collect ⟨index, hIndex⟩ hLoc hReady⟩
        · obtain ⟨hDone, hFsh⟩ := not_or.mp hReady
          refine Or.inr ⟨⟨index, hIndex⟩, ?_⟩
          rcases hRound.fits ⟨index, hIndex⟩ with ⟨-, hFlag⟩ | ⟨-, hFits⟩
          · exact absurd hFlag hFsh
          · rw [hLoc, Device.Fits, if_neg (Nat.lt_irrefl _)] at hFits
            rcases hFits with ⟨hPhase, -⟩ | ⟨hPhase, hClear, -⟩ | ⟨-, hRaised, -⟩
            · exact Or.inl hPhase
            · exact Or.inr ⟨hPhase, hClear⟩
            · exact absurd hRaised hDone
      · exact Or.inl ⟨_, .advance hLoc⟩
  | release index fsh event =>
      rw [hLoc] at hSeen
      rcases Nat.lt_or_eq_of_le hSeen.1 with hIndex | rfl
      · exact Or.inl ⟨_, .release ⟨index, hIndex⟩ hLoc⟩
      · exact Or.inl ⟨_, .finish hLoc⟩
  | ended =>
      rw [hLoc] at hSeen
      exact absurd hSeen hNotAll

end Timer

variable {n : Nat} {Mem : Type*} {cfg : Config} {startTime : ProcId → UInt64}
  {execute : ProcId → Inst → Mem → Int → Mem → Prop} {s t : Clocked n Mem}

/-! The parties -/

/-- A CPU that has not stopped can take its next step. -/
theorem Os.exists_step (cfg : Config) {os : Os (Fin n) Mem} (hSlots : os.mlq.SlotsBounded)
    (h : os.Consistent)
    (hReturns : ∀ proc ins mem, ∃ stat mem', execute proc ins mem stat mem') {c : Fin n}
    (hLoc : (os.cpu c).loc ≠ .stopped) :
    ∃ call t, OsMove cfg execute os call t ∧ call.event = cpuEvent c := by
  have hCpu := h.cpu c
  rw [Cpu.Consistent] at hCpu
  cases hHere : (os.cpu c).loc with
  | check => exact ⟨_, _, .check c hHere, rfl⟩
  | recheck => exact ⟨_, _, .recheck c hHere, rfl⟩
  | free =>
      rw [hHere] at hCpu
      obtain ⟨proc, hProc, -⟩ := hCpu
      exact ⟨_, _, .free c hHere hProc, rfl⟩
  | put =>
      rw [hHere] at hCpu
      obtain ⟨proc, hProc, -⟩ := hCpu
      exact ⟨_, _, .putProc c hHere hProc, rfl⟩
  | fetch why =>
      obtain ⟨result, m, hGet, -⟩ := getProc_returns hSlots
      exact ⟨_, _, .getProc _ c hHere (hGet _ (Nat.le_refl _)), rfl⟩
  | run =>
      rw [hHere] at hCpu
      obtain ⟨proc, hProc⟩ := hCpu
      cases hStep : (os.pcb proc).step? with
      | none => exact ⟨_, _, .runNothing c hHere hProc hStep, rfl⟩
      | some next =>
          obtain ⟨stat, mem, hExecute⟩ := hReturns proc next.1 os.mem
          exact ⟨_, _, .run c hHere hProc hStep hExecute, rfl⟩
  | stopped => exact absurd hHere hLoc

/-- The loader, too. -/
theorem Os.exists_load (cfg : Config) (execute : ProcId → Inst → Mem → Int → Mem → Prop)
    {os : Os (Fin n) Mem} (hLoc : os.loader ≠ .stopped) :
    ∃ call t, OsMove cfg execute os call t ∧ call.event = ldEvent := by
  cases hHere : os.loader with
  | load =>
      by_cases hMore : os.index < cfg.numProcesses
      · cases hProgram : cfg.program os.index with
        | none => exact ⟨_, _, .loadFails hHere hMore hProgram, rfl⟩
        | some text => exact ⟨_, _, .load hHere hMore hProgram, rfl⟩
      · exact ⟨_, _, .finish hHere hMore, rfl⟩
  | add => exact ⟨_, _, .addProc hHere, rfl⟩
  | stopped => exact absurd hHere hLoc

/-- What every run preserves. -/
structure Clocked.Goes (cfg : Config) (s : Clocked n Mem) : Prop where
  owned : s.os.Owned cfg
  consistent : s.os.Consistent
  inRound : ∃ round, s.timer.InRound round
  attends : s.timer.Attends

theorem goes_initial (cfg : Config) (mem : Mem) :
    (Clocked.initial mem : Clocked n Mem).Goes cfg :=
  ⟨owned_initial cfg mem, consistent_initial mem, ⟨0, inRound_initial⟩, attends_initial⟩

theorem Clocked.Goes.step {call : ClockedCall n} (h : s.Goes cfg)
    (step : ClockedStep cfg startTime execute s call t) : t.Goes cfg := by
  obtain ⟨round, hRound⟩ := h.inRound
  obtain ⟨hRuns, move⟩ := step
  have hTimer : ∀ {label timer} (due), TimerStep s.timer label timer →
      (label = .stopTimer → ∀ party, (s.timer.device party).fsh = true) →
      ({ s with timer := timer, due := due } : Clocked n Mem).Goes cfg := by
    intro label timer due hStep hStop
    obtain ⟨round', hRound', -⟩ := hRound.step hStep
    exact ⟨h.owned, h.consistent, ⟨round', hRound'⟩, h.attends.step hStep hStop⟩
  cases move with
  | os hWorks hStart hMove =>
      exact ⟨owned_step h.owned ⟨hRuns, hMove⟩, consistent_step h.owned h.consistent ⟨hRuns, hMove⟩,
        h.inRound, h.attends⟩
  | nextSlot party hDue hStep => exact hTimer _ hStep (fun hCall => by cases hCall)
  | slotReturns party hStep => exact hTimer s.due hStep (fun hCall => by cases hCall)
  | timer hStep => exact hTimer s.due hStep (fun hCall => by cases hCall)
  | detachEvent party hStopped hStep => exact hTimer s.due hStep (fun hCall => by cases hCall)
  | stopTimer hJoined hStep =>
      apply hTimer s.due hStep
      intro _ party
      rcases hRound.fits party with ⟨-, hFsh⟩ | ⟨-, hFits⟩
      · exact hFsh
      · exact absurd (hJoined party) hFits.here

/-- A party outside `next_slot` is not blocked. -/
private theorem Clocked.Goes.party_goes (h : s.Goes cfg) (startTime : ProcId → UInt64)
    (hReturns : ∀ proc ins mem, ∃ stat mem', execute proc ins mem stat mem')
    (hRuns : s.os.exited = false) {party : Fin (n + 1)}
    (hPhase : (s.timer.device party).phase = .working) :
    ∃ call t, ClockedStep cfg startTime execute s call t ∧ call.counts = 1 := by
  cases hDue : s.due party with
  | true => exact ⟨_, _, ⟨hRuns, .nextSlot party (Or.inl hDue) (.nextSlot party hPhase)⟩, rfl⟩
  | false =>
      have hWorks : s.Works party := ⟨hPhase, hDue⟩
      cases party using Fin.cases with
      | zero =>
          by_cases hLoader : s.os.loader = .stopped
          · exact ⟨_, _, ⟨hRuns, .detachEvent ldEvent (Or.inl ⟨rfl, hLoader⟩)
              (.detachEvent ldEvent hPhase)⟩, rfl⟩
          · by_cases hAwaits : s.AwaitsStart startTime
            · exact ⟨_, _, ⟨hRuns, .nextSlot ldEvent (Or.inr ⟨rfl, hAwaits⟩)
                (.nextSlot ldEvent hPhase)⟩, rfl⟩
            · obtain ⟨call, os, hMove, hCall⟩ := Os.exists_load cfg execute hLoader
              change s.Works ldEvent at hWorks
              rw [← hCall] at hWorks
              exact ⟨.os call, _, ⟨hRuns, .os hWorks (fun _ _ => hAwaits) hMove⟩, rfl⟩
      | succ event =>
          have hEvent : cpuEvent event.rev = event.succ := congrArg Fin.succ (Fin.rev_rev event)
          by_cases hLoc : (s.os.cpu event.rev).loc = .stopped
          · exact ⟨_, _, ⟨hRuns, .detachEvent _ (Or.inr ⟨event.rev, hEvent.symm, hLoc⟩)
              (.detachEvent _ hPhase)⟩, rfl⟩
          · obtain ⟨call, os, hMove, hCall⟩ :=
              Os.exists_step cfg h.owned.slots h.consistent hReturns hLoc
            rw [← hEvent, ← hCall] at hWorks
            refine ⟨.os call, _, ⟨hRuns, .os hWorks ?_ hMove⟩, rfl⟩
            rintro proc rfl
            exact absurd hCall.symm (cpuEvent_ne_ldEvent _)

/-- While the program has not exited and a thread has not come to its end, some thread can
take a step, if every instruction comes to an end and calls of the scheduler do not overlap. -/
theorem noDeadlock_run {mem : Mem} {labels : List (ClockedCall n)}
    (run : Runs (ClockedStep cfg startTime execute) (Clocked.initial mem) labels s)
    (hReturns : ∀ proc ins mem, ∃ stat mem', execute proc ins mem stat mem')
    (hRuns : s.os.exited = false) {party : Fin (n + 1)}
    (hHere : (s.timer.device party).phase ≠ .detached) :
    ∃ call t, ClockedStep cfg startTime execute s call t ∧ call.counts = 1 := by
  have h : s.Goes cfg := run.invariant (fun s => s.Goes cfg) (goes_initial cfg mem)
    fun _ _ _ hGoes step => hGoes.step step
  obtain ⟨round, hRound⟩ := h.inRound
  rcases h.attends.goes_on hRound ⟨party, hHere⟩ with
    ⟨timer, hStep⟩ | ⟨other, hPhase | ⟨hPhase, hDone⟩⟩
  · exact ⟨_, _, ⟨hRuns, .timer hStep⟩, rfl⟩
  · exact h.party_goes startTime hReturns hRuns hPhase
  · exact ⟨_, _, ⟨hRuns, .slotReturns other (.slotReturns other hPhase hDone)⟩, rfl⟩

/-- The process has been handed in, and nobody has taken a step since. -/
theorem noDeadlock_run_one : ∃ s : Clocked 1 Nat, s.os.index = 1 ∧ ∃ call t,
    ClockedStep (calculations 1) (fun _ => 0) calcSucceeds s call t ∧ call.counts = 1 := by
  obtain ⟨s, run, hIndex, -, -, hRuns, hPhase⟩ := loaded_run
  have hHere : (s.timer.device ldEvent).phase ≠ .detached := by simp [hPhase]
  have hReturns : ∀ proc ins mem, ∃ stat mem', calcSucceeds proc ins mem stat mem' :=
    fun _ _ mem => ⟨0, mem, rfl, rfl⟩
  exact ⟨s, hIndex, noDeadlock_run run hReturns hRuns hHere⟩

end Btlos
