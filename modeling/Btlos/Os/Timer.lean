import Btlos.Library.Barrier

/-! The timer of `timer.c`: its thread and the devices that wait for it. A step
is one lock-protected section of `timer_routine`, `next_slot` or `detach_event`,
or what the timer does between two of them. A wait on a condition is a section
that cannot be taken yet. -/
namespace Btlos

open Transition

/-- Where the thread of a device stands: outside `next_slot`, in its second
section, or past `detach_event`. -/
inductive Phase where
  | working
  | waiting
  | detached
deriving DecidableEq

/-- The two flags of a `timer_id_t` and the thread that uses it. `calls` and
`returned` count its calls of `next_slot` and have no effect. -/
structure Device where
  done : Bool
  fsh : Bool
  phase : Phase
  calls : Nat
  returned : Nat

def Device.initial : Device := ⟨false, false, .working, 0, 0⟩

/-- Where the timer stands: at the test of its loop, at device number `index` of
one of the two inner loops, or at its end. -/
inductive TimerLoc where
  | test
  | collect (index fsh event : Nat)
  | release (index fsh event : Nat)
  | ended
deriving DecidableEq

/-- The timer with its devices in the order of `dev_list`. None attaches once the
timer has started. -/
structure Timer (n : Nat) where
  time : UInt64
  timerStop : Bool
  loc : TimerLoc
  device : Fin n → Device

variable {n : Nat}

def Timer.initial (n : Nat) : Timer n := ⟨0, false, .test, fun _ => Device.initial⟩

def Timer.currentTime (s : Timer n) : UInt64 := s.time

def Timer.setDevice (s : Timer n) (i : Fin n) (device : Device) : Timer n :=
  { s with device := Function.update s.device i device }

inductive TimerCall (n : Nat) where
  | timer
  | nextSlot (i : Fin n)
  | slotReturns (i : Fin n)
  | detachEvent (i : Fin n)
  | stopTimer
deriving DecidableEq

/-- The steps of the timer, of the devices and of `stop_timer`, which may set its
flag at any time here. -/
inductive TimerStep : Timer n → TimerCall n → Timer n → Prop where
  | enter {s : Timer n} (hLoc : s.loc = .test) (hRuns : s.timerStop = false) :
      TimerStep s .timer { s with loc := .collect 0 0 0 }
  | exit {s : Timer n} (hLoc : s.loc = .test) (hStops : s.timerStop = true) :
      TimerStep s .timer { s with loc := .ended }
  | collect {s : Timer n} {fsh event : Nat} (i : Fin n) (hLoc : s.loc = .collect i fsh event)
      (hReady : (s.device i).done = true ∨ (s.device i).fsh = true) :
      TimerStep s .timer
        { s with loc := .collect (i + 1) (if (s.device i).fsh then fsh + 1 else fsh) (event + 1) }
  | advance {s : Timer n} {fsh event : Nat} (hLoc : s.loc = .collect n fsh event) :
      TimerStep s .timer { s with time := s.time + 1, loc := .release 0 fsh event }
  | release {s : Timer n} {fsh event : Nat} (i : Fin n) (hLoc : s.loc = .release i fsh event) :
      TimerStep s .timer
        ({ s with loc := .release (i + 1) fsh event }.setDevice i { s.device i with done := false })
  | finish {s : Timer n} {fsh event : Nat} (hLoc : s.loc = .release n fsh event) :
      TimerStep s .timer { s with loc := if fsh = event then .ended else .test }
  | nextSlot {s : Timer n} (i : Fin n) (hPhase : (s.device i).phase = .working) :
      TimerStep s (.nextSlot i)
        (s.setDevice i { s.device i with
          done := true, phase := .waiting, calls := (s.device i).calls + 1 })
  | slotReturns {s : Timer n} (i : Fin n) (hPhase : (s.device i).phase = .waiting)
      (hDone : (s.device i).done = false) :
      TimerStep s (.slotReturns i)
        (s.setDevice i { s.device i with
          phase := .working, returned := (s.device i).returned + 1 })
  | detachEvent {s : Timer n} (i : Fin n) (hPhase : (s.device i).phase = .working) :
      TimerStep s (.detachEvent i)
        (s.setDevice i { s.device i with fsh := true, phase := .detached })
  | stopTimer {s : Timer n} : TimerStep s .stopTimer { s with timerStop := true }

/-- The barrier that the timer is, after `round` increments of the time. -/
def Timer.barrier (s : Timer n) (round : Nat) : Barrier.State (Fin n) where
  round := round
  arrivals := fun i => (s.device i).calls
  departures := fun i => (s.device i).returned
  left := fun i => (s.device i).phase = .detached

/-! Where the devices are while the timer is in its loops -/

/-- The device has finished round number `round - 1` and waits for the timer to
clear its flag. -/
def Device.Held (round : Nat) (d : Device) : Prop :=
  d.phase = .waiting ∧ d.done = true ∧ d.calls = round ∧ d.returned + 1 = round

/-- The flag of the device has been cleared for round number `round`: it works, or
is about to, or has raised the flag again. -/
def Device.Released (round : Nat) (d : Device) : Prop :=
  (d.phase = .working ∧ d.done = false ∧ d.calls = round ∧ d.returned = round) ∨
    (d.phase = .waiting ∧ d.done = false ∧ d.calls = round ∧ d.returned + 1 = round) ∨
    (d.phase = .waiting ∧ d.done = true ∧ d.calls = round + 1 ∧ d.returned = round)

/-- What holds of the device with this index, by the place of the timer. -/
def Device.Fits (loc : TimerLoc) (round index : Nat) (d : Device) : Prop :=
  match loc with
  | .collect j _ _ => if index < j then d.Held (round + 1) else d.Released round
  | .release j _ _ => if index < j then d.Released round else d.Held round
  | _ => d.Released round

/-- What every run preserves. A detached device only keeps its counts. -/
structure Timer.InRound (s : Timer n) (round : Nat) : Prop where
  time : s.time = UInt64.ofNat round
  fits : ∀ i : Fin n, (s.device i).phase = .detached ∧ (s.device i).fsh = true ∨
    (s.device i).fsh = false ∧ (s.device i).Fits s.loc round i

theorem inRound_initial : (Timer.initial n).InRound 0 :=
  ⟨rfl, fun _ => Or.inr ⟨rfl, Or.inl ⟨rfl, rfl, rfl, rfl⟩⟩⟩

@[simp]
theorem device_setDevice (s : Timer n) (i j : Fin n) (d : Device) :
    (s.setDevice i d).device j = if j = i then d else s.device j := by
  simp only [Timer.setDevice, Function.update_apply]

private theorem barrier_setDevice (s : Timer n) (i : Fin n) (d : Device) (round : Nat) :
    (s.setDevice i d).barrier round =
      { s.barrier round with
        arrivals := Function.update (s.barrier round).arrivals i d.calls
        departures := Function.update (s.barrier round).departures i d.returned
        left := Function.update (s.barrier round).left i (d.phase = .detached) } := by
  ext j <;> simp only [Timer.barrier, device_setDevice, Function.update_apply] <;>
    split_ifs <;> rfl

/-- Where the device stays in, or stays out. -/
private theorem barrier_setDevice_counts (s : Timer n) (i : Fin n) (d : Device) (round : Nat)
    (hPhase : d.phase = .detached ↔ (s.device i).phase = .detached) :
    (s.setDevice i d).barrier round =
      { s.barrier round with
        arrivals := Function.update (s.barrier round).arrivals i d.calls
        departures := Function.update (s.barrier round).departures i d.returned } := by
  have hLeft : Function.update (s.barrier round).left i (d.phase = .detached) =
      (s.barrier round).left := by
    rw [propext hPhase]
    exact Function.update_eq_self i (s.barrier round).left
  rw [barrier_setDevice, hLeft]

private theorem Device.not_held {round : Nat} {d : Device}
    (hFree : d.phase = .working ∨ d.done = false) : ¬ d.Held round := by
  intro hHeld
  obtain ⟨hPhase, hDone, -, -⟩ := hHeld
  rcases hFree with hWorking | hClear
  · rw [hPhase] at hWorking
    cases hWorking
  · rw [hDone] at hClear
    cases hClear

/-- A device that is not held has been released, and another that has been takes its place. -/
private theorem Device.Fits.released {loc : TimerLoc} {round index : Nat} {d : Device}
    (h : d.Fits loc round index) (hFree : d.phase = .working ∨ d.done = false) :
    d.Released round ∧ ∀ d' : Device, d'.Released round → d'.Fits loc round index := by
  cases loc with
  | test => exact ⟨h, fun _ hNew => hNew⟩
  | ended => exact ⟨h, fun _ hNew => hNew⟩
  | collect place fsh event =>
      simp only [Device.Fits] at h ⊢
      split_ifs at h ⊢
      · exact False.elim (Device.not_held hFree h)
      · exact ⟨h, fun _ hNew => hNew⟩
  | release place fsh event =>
      simp only [Device.Fits] at h ⊢
      split_ifs at h ⊢
      · exact ⟨h, fun _ hNew => hNew⟩
      · exact False.elim (Device.not_held hFree h)

private theorem Device.Released.of_working {round : Nat} {d : Device} (h : d.Released round)
    (hPhase : d.phase = .working) : d.done = false ∧ d.calls = round ∧ d.returned = round := by
  rcases h with ⟨-, hRest⟩ | ⟨hWaiting, -⟩ | ⟨hWaiting, -⟩
  · exact hRest
  all_goals
    rw [hPhase] at hWaiting
    cases hWaiting

private theorem Device.Released.of_clear {round : Nat} {d : Device} (h : d.Released round)
    (hPhase : d.phase = .waiting) (hDone : d.done = false) :
    d.calls = round ∧ d.returned + 1 = round := by
  rcases h with ⟨hWorking, -⟩ | ⟨-, -, hRest⟩ | ⟨-, hRaised, -⟩
  · rw [hPhase] at hWorking
    cases hWorking
  · exact hRest
  · rw [hDone] at hRaised
    cases hRaised

/-- The timer takes in a device that is through. -/
private theorem Device.Fits.collect {round index place fsh event fsh' event' : Nat} {d : Device}
    (h : d.Fits (.collect place fsh event) round index)
    (hPlace : index = place → d.done = true) :
    d.Fits (.collect (place + 1) fsh' event') round index := by
  simp only [Device.Fits] at h ⊢
  by_cases hBefore : index < place
  · rw [if_pos hBefore] at h
    rwa [if_pos (Nat.lt_succ_of_lt hBefore)]
  · rw [if_neg hBefore] at h
    by_cases hHere : index = place
    · rw [if_pos (hHere ▸ Nat.lt_succ_self index)]
      have hDone := hPlace hHere
      rcases h with ⟨-, hClear, -⟩ | ⟨-, hClear, -⟩ | ⟨hPhase, -, hCalls, hReturned⟩
      · rw [hDone] at hClear
        cases hClear
      · rw [hDone] at hClear
        cases hClear
      · exact ⟨hPhase, hDone, hCalls, congrArg Nat.succ hReturned⟩
    · rwa [if_neg (by omega)]

/-- The timer lets go of the device it stands at. -/
private theorem Device.Fits.release {round index fsh event fsh' event' : Nat} {d : Device}
    (h : d.Fits (.release index fsh event) round index) :
    Device.Fits (.release (index + 1) fsh' event') round index { d with done := false } := by
  simp only [Device.Fits, Nat.lt_irrefl, if_false] at h
  obtain ⟨hPhase, -, hCalls, hReturned⟩ := h
  simp only [Device.Fits, Nat.lt_succ_self, if_true]
  exact Or.inr (Or.inl ⟨hPhase, rfl, hCalls, hReturned⟩)

private theorem Device.Fits.pass {round index place fsh event fsh' event' : Nat} {d : Device}
    (h : d.Fits (.release place fsh event) round index) (hOther : index ≠ place) :
    d.Fits (.release (place + 1) fsh' event') round index := by
  simp only [Device.Fits] at h ⊢
  have hSame : index < place + 1 ↔ index < place := by omega
  simpa only [hSame] using h

/-- Devices and time are as they were. -/
private theorem Timer.InRound.move {s t : Timer n} {round : Nat} (h : s.InRound round)
    (hTime : t.time = s.time) (hDevice : t.device = s.device)
    (hFits : ∀ i : Fin n, (s.device i).fsh = false → (s.device i).Fits s.loc round i →
      (s.device i).Fits t.loc round i) :
    t.InRound round ∧ (t.barrier round = s.barrier round ∨
      ∃ event, Barrier.Step (s.barrier round) event (t.barrier round)) := by
  refine ⟨⟨?_, fun i => ?_⟩, Or.inl ?_⟩
  · rw [hTime]
    exact h.time
  · rw [hDevice]
    rcases h.fits i with hDetached | ⟨hFsh, hOld⟩
    · exact Or.inl hDetached
    · exact Or.inr ⟨hFsh, hFits i hFsh hOld⟩
  · simp only [Timer.barrier, hDevice]

/-- Only one device changes. -/
private theorem Timer.InRound.setDevice {s : Timer n} {round : Nat} (h : s.InRound round)
    (i : Fin n) {d : Device}
    (hNew : d.phase = .detached ∧ d.fsh = true ∨ d.fsh = false ∧ d.Fits s.loc round i) :
    (s.setDevice i d).InRound round := by
  refine ⟨h.time, fun j => ?_⟩
  simp only [device_setDevice]
  split_ifs with hSame
  · rw [hSame]
    exact hNew
  · exact h.fits j

/-- What is known of a device that still takes part. -/
private theorem Timer.InRound.present {s : Timer n} {round : Nat} (h : s.InRound round)
    {i : Fin n} (hHere : (s.device i).phase ≠ .detached) :
    (s.device i).fsh = false ∧ (s.device i).Fits s.loc round i := by
  rcases h.fits i with ⟨hDetached, -⟩ | hPresent
  · exact False.elim (hHere hDetached)
  · exact hPresent

/-- All devices that take part are held when the timer has been through the list. -/
private theorem Timer.InRound.held {s : Timer n} {round fsh event : Nat} (h : s.InRound round)
    (hLoc : s.loc = .collect n fsh event) {i : Fin n} (hHere : (s.device i).phase ≠ .detached) :
    (s.device i).Held (round + 1) := by
  have hFits := (h.present hHere).2
  rw [hLoc] at hFits
  simpa only [Device.Fits, i.isLt, if_true] using hFits

/-- A device that the timer does not hold may change, as long as it is not held after it. -/
private theorem Timer.InRound.replace {s : Timer n} {round : Nat} (h : s.InRound round)
    {i : Fin n} (hHere : (s.device i).phase ≠ .detached)
    (hFree : (s.device i).phase = .working ∨ (s.device i).done = false) :
    (s.device i).Released round ∧
      ∀ d : Device, d.fsh = (s.device i).fsh → d.Released round →
        (s.setDevice i d).InRound round := by
  obtain ⟨hFsh, hFits⟩ := h.present hHere
  obtain ⟨hReleased, hNew⟩ := hFits.released hFree
  refine ⟨hReleased, fun d hSame hThen => h.setDevice i (Or.inr ⟨?_, hNew d hThen⟩)⟩
  rw [hSame]
  exact hFsh

private theorem Timer.InRound.advance {s : Timer n} {round fsh event : Nat} (h : s.InRound round)
    (hLoc : s.loc = .collect n fsh event) :
    ({ s with time := s.time + 1, loc := .release 0 fsh event } : Timer n).InRound (round + 1) := by
  refine ⟨?_, fun i => ?_⟩
  · show s.time + 1 = UInt64.ofNat (round + 1)
    rw [h.time, UInt64.ofNat_add]
    rfl
  · rcases h.fits i with hDetached | ⟨hFsh, hFits⟩
    · exact Or.inl hDetached
    · rw [hLoc] at hFits
      simp only [Device.Fits, i.isLt, if_true] at hFits
      right
      refine ⟨hFsh, ?_⟩
      simpa [Device.Fits] using hFits

private theorem Timer.InRound.release {s : Timer n} {round fsh event : Nat} (h : s.InRound round)
    (i : Fin n) (hLoc : s.loc = .release i fsh event) :
    (({ s with loc := .release (i + 1) fsh event } : Timer n).setDevice i
      { s.device i with done := false }).InRound round := by
  refine ⟨h.time, fun j => ?_⟩
  simp only [device_setDevice]
  split_ifs with hSame
  · subst hSame
    rcases h.fits j with hDetached | ⟨hFsh, hFits⟩
    · exact Or.inl hDetached
    · rw [hLoc] at hFits
      exact Or.inr ⟨hFsh, hFits.release⟩
  · rcases h.fits j with hDetached | ⟨hFsh, hFits⟩
    · exact Or.inl hDetached
    · rw [hLoc] at hFits
      exact Or.inr ⟨hFsh, hFits.pass fun hPlace => hSame (Fin.ext hPlace)⟩

/-- A step of the timer system is one of the barrier, or the barrier does not see it. -/
theorem Timer.InRound.step {s t : Timer n} {label : TimerCall n} {round : Nat}
    (h : s.InRound round) (step : TimerStep s label t) :
    ∃ round', t.InRound round' ∧ (t.barrier round' = s.barrier round ∨
      ∃ event, Barrier.Step (s.barrier round) event (t.barrier round')) := by
  cases step with
  | enter hLoc hRuns | exit hLoc hStops =>
      refine ⟨round, h.move rfl rfl fun i _ hOld => ?_⟩
      rw [hLoc] at hOld
      simpa [Device.Fits] using hOld
  | stopTimer =>
      exact ⟨round, h.move rfl rfl fun _ _ hOld => hOld⟩
  | finish hLoc =>
      refine ⟨round, h.move rfl rfl fun i _ hOld => ?_⟩
      rw [hLoc] at hOld
      simp only [Device.Fits, i.isLt, if_true] at hOld
      split_ifs <;> exact hOld
  | collect i hLoc hReady =>
      refine ⟨round, h.move rfl rfl fun j hFsh hOld => ?_⟩
      rw [hLoc] at hOld
      apply hOld.collect
      intro hSame
      obtain rfl : j = i := Fin.ext hSame
      rcases hReady with hDone | hGone
      · exact hDone
      · rw [hFsh] at hGone
        cases hGone
  | advance hLoc =>
      refine ⟨round + 1, h.advance hLoc, Or.inr ⟨.open, ?_⟩⟩
      exact Barrier.Step.open fun i hHere => (h.held hLoc hHere).2.2.1
  | release i hLoc =>
      refine ⟨round, h.release i hLoc, Or.inl ?_⟩
      rw [barrier_setDevice_counts]
      · simp only [Timer.barrier, Function.update_eq_self]
      · rfl
  | nextSlot i hPhase =>
      have hHere : (s.device i).phase ≠ .detached := by simp [hPhase]
      obtain ⟨hReleased, hNew⟩ := h.replace hHere (Or.inl hPhase)
      obtain ⟨-, hCalls, hReturned⟩ := hReleased.of_working hPhase
      refine ⟨round, hNew _ rfl ?_, Or.inr ⟨.arrive i, ?_⟩⟩
      · exact Or.inr (Or.inr ⟨rfl, rfl, congrArg (· + 1) hCalls, hReturned⟩)
      · rw [barrier_setDevice_counts _ _ _ _ (by simp [hPhase])]
        simpa [Timer.barrier] using Barrier.Step.arrive (s := s.barrier round) i
          ⟨hHere, hCalls.trans hReturned.symm⟩
  | slotReturns i hPhase hDone =>
      have hHere : (s.device i).phase ≠ .detached := by simp [hPhase]
      obtain ⟨hReleased, hNew⟩ := h.replace hHere (Or.inr hDone)
      obtain ⟨hCalls, hReturned⟩ := hReleased.of_clear hPhase hDone
      refine ⟨round, hNew _ rfl ?_, Or.inr ⟨.depart i, ?_⟩⟩
      · exact Or.inl ⟨rfl, hDone, hCalls, hReturned⟩
      · have hBehind : (s.device i).returned < (s.device i).calls := by omega
        rw [barrier_setDevice_counts _ _ _ _ (by simp [hPhase])]
        simpa [Timer.barrier] using
          Barrier.Step.depart (s := s.barrier round) i hBehind (Nat.le_of_eq hCalls)
  | detachEvent i hPhase =>
      have hHere : (s.device i).phase ≠ .detached := by simp [hPhase]
      obtain ⟨hReleased, -⟩ := h.replace hHere (Or.inl hPhase)
      obtain ⟨-, hCalls, hReturned⟩ := hReleased.of_working hPhase
      refine ⟨round, h.setDevice i (Or.inl ⟨rfl, rfl⟩), Or.inr ⟨.leave i, ?_⟩⟩
      rw [barrier_setDevice]
      simpa [Timer.barrier] using Barrier.Step.leave (s := s.barrier round) i
        ⟨hHere, hCalls.trans hReturned.symm⟩

theorem Timer.together_run {labels : List (TimerCall n)} {s : Timer n}
    (run : Runs TimerStep (Timer.initial n) labels s) :
    ∃ round, s.InRound round ∧ (s.barrier round).Together := by
  refine run.invariant (fun s => ∃ round, s.InRound round ∧ (s.barrier round).Together) ?_ ?_
  · refine ⟨0, inRound_initial, ?_⟩
    have hInitial : (Timer.initial n).barrier 0 = Barrier.State.initial := by
      ext i <;> simp [Timer.barrier, Timer.initial, Device.initial, Barrier.State.initial]
    rw [hInitial]
    exact Barrier.together_initial
  · rintro s label t ⟨round, hRound, hTogether⟩ step
    obtain ⟨round', hRound', hSame | ⟨event, hEvent⟩⟩ := hRound.step step
    · exact ⟨round', hRound', hSame ▸ hTogether⟩
    · exact ⟨round', hRound', hTogether.step hEvent⟩

/-! What a run says of a device -/

/-- The slots that a device has completed: its calls of `next_slot`. -/
def completed (labels : List (TimerCall n)) (i : Fin n) : Nat := labels.count (.nextSlot i)

/-- The number of the slot that a device started last: its returns from `next_slot`. -/
def started (labels : List (TimerCall n)) (i : Fin n) : Nat := labels.count (.slotReturns i)

def Attached (labels : List (TimerCall n)) (i : Fin n) : Prop :=
  TimerCall.detachEvent i ∉ labels

/-- The device works in slot number `k`: it has returned from its `k`-th call and
has neither called again nor detached. -/
def InSlot (labels : List (TimerCall n)) (i : Fin n) (k : Nat) : Prop :=
  Attached labels i ∧ started labels i = k ∧ completed labels i = k

private theorem TimerStep.counts {s t : Timer n} {label : TimerCall n} (step : TimerStep s label t)
    (i : Fin n) :
    (t.device i).calls = (s.device i).calls + [label].count (.nextSlot i) ∧
      (t.device i).returned = (s.device i).returned + [label].count (.slotReturns i) ∧
      ((t.device i).phase = .detached ↔
        (s.device i).phase = .detached ∨ label = .detachEvent i) := by
  cases step with
  | enter | exit | collect | advance | finish | stopTimer => simp
  | release j hLoc =>
      by_cases hSame : i = j
      · subst hSame
        simp
      · simp [hSame]
  | nextSlot j hPhase | slotReturns j hPhase | detachEvent j hPhase =>
      by_cases hSame : i = j
      · subst hSame
        simp [hPhase]
      · simp [hSame, Ne.symm hSame]

private theorem counts_run {labels : List (TimerCall n)} {s : Timer n}
    (run : Runs TimerStep (Timer.initial n) labels s) (i : Fin n) :
    (s.device i).calls = completed labels i ∧ (s.device i).returned = started labels i ∧
      ((s.device i).phase = .detached ↔ ¬ Attached labels i) := by
  induction run with
  | nil => simp [Timer.initial, Device.initial, completed, started, Attached]
  | @snoc labels label middle finish prior last ih =>
      obtain ⟨hCalls, hReturned, hPhase⟩ := ih
      obtain ⟨hCalls', hReturned', hPhase'⟩ := last.counts i
      refine ⟨?_, ?_, ?_⟩
      · rw [hCalls', hCalls]
        simp only [completed, List.count_append]
      · rw [hReturned', hReturned]
        simp only [started, List.count_append]
      · rw [hPhase', hPhase]
        simp only [Attached, List.mem_append, List.mem_singleton, not_not, eq_comm]

/-- A device in a slot is inside the barrier. -/
private theorem inSlot_iff_inside {labels : List (TimerCall n)} {s : Timer n}
    (run : Runs TimerStep (Timer.initial n) labels s) (round : Nat) (i : Fin n) :
    (∃ k, InSlot labels i k) ↔ (s.barrier round).Inside i := by
  obtain ⟨hCalls, hReturned, hPhase⟩ := counts_run run i
  simp only [InSlot, Barrier.State.Inside, Timer.barrier, hPhase, not_not, hCalls, hReturned]
  constructor
  · rintro ⟨k, hAttached, hStarted, hCompleted⟩
    exact ⟨hAttached, hCompleted.trans hStarted.symm⟩
  · rintro ⟨hAttached, hSame⟩
    exact ⟨started labels i, hAttached, rfl, hSame⟩

/-- The timer holds all attached devices in one slot, and its time is the number of that slot. -/
structure InStep (labels : List (TimerCall n)) (s : Timer n) : Prop where
  time : ∀ i k, InSlot labels i k → s.currentTime = UInt64.ofNat k
  waits : ∀ i k label t, InSlot labels i k → TimerStep s label t → t.currentTime = s.currentTime
  starts : ∀ i j, Attached labels j → started labels i ≤ completed labels j
  close : ∀ i j, Attached labels i → Attached labels j →
    completed labels i ≤ completed labels j + 1 ∧ started labels i ≤ started labels j + 1

theorem timer_inStep {labels : List (TimerCall n)} {s : Timer n}
    (run : Runs TimerStep (Timer.initial n) labels s) : InStep labels s := by
  obtain ⟨round, hRound, hTogether⟩ := Timer.together_run run
  have hHere : ∀ j, Attached labels j → ¬ (s.barrier round).left j := fun j hAttached hLeft =>
    (counts_run run j).2.2.mp hLeft hAttached
  have hCompleted : ∀ j, (s.barrier round).arrivals j = completed labels j := fun j =>
    (counts_run run j).1
  have hStarted : ∀ j, (s.barrier round).departures j = started labels j := fun j =>
    (counts_run run j).2.1
  constructor
  · intro i k hSlot
    have hInside := (inSlot_iff_inside run round i).mp ⟨k, hSlot⟩
    rw [Timer.currentTime, hRound.time, ← hSlot.2.1, ← hStarted]
    exact congrArg UInt64.ofNat (hTogether.round_eq hInside)
  · intro i k label t hSlot step
    have hInside := (inSlot_iff_inside run round i).mp ⟨k, hSlot⟩
    obtain ⟨round', hRound', hStep⟩ := hRound.step step
    have hSame : round' = round := by
      rcases hStep with hSame | ⟨event, hEvent⟩
      · exact congrArg Barrier.State.round hSame
      · exact hTogether.round_step hInside hEvent
    rw [Timer.currentTime, Timer.currentTime, hRound'.time, hRound.time, hSame]
  · intro i j hAttached
    rw [← hStarted, ← hCompleted]
    exact hTogether.departures_le i (hHere j hAttached)
  · intro i j hFirst hSecond
    rw [← hStarted, ← hStarted, ← hCompleted, ← hCompleted]
    exact ⟨hTogether.arrivals_le (hHere i hFirst) (hHere j hSecond),
      hTogether.departures_le_succ i (hHere j hSecond)⟩

/-- The second device has not been released when the first one calls again. -/
theorem timer_inStep_early : ∃ s : Timer 2,
    InStep [.timer, .nextSlot 0, .nextSlot 1, .timer, .timer, .timer, .timer, .slotReturns 0,
      .nextSlot 0, .timer, .slotReturns 1] s ∧ s.currentTime = 1 := by
  have run : ∃ s : Timer 2, Runs TimerStep (Timer.initial 2)
      [.timer, .nextSlot 0, .nextSlot 1, .timer, .timer, .timer, .timer, .slotReturns 0,
        .nextSlot 0, .timer, .slotReturns 1] s ∧ s.currentTime = 1 := by
    refine ⟨_, Runs.cons (.enter rfl rfl) <| Runs.cons (.nextSlot 0 rfl) <|
      Runs.cons (.nextSlot 1 rfl) <| Runs.cons (.collect 0 rfl (Or.inl rfl)) <|
      Runs.cons (.collect 1 rfl (Or.inl rfl)) <| Runs.cons (.advance rfl) <|
      Runs.cons (.release 0 rfl) <| Runs.cons (.slotReturns 0 rfl rfl) <|
      Runs.cons (.nextSlot 0 rfl) <| Runs.cons (.release 1 rfl) <|
      Runs.one (.slotReturns 1 rfl rfl), ?_⟩
    rfl
  obtain ⟨s, hRun, hTime⟩ := run
  exact ⟨s, timer_inStep hRun, hTime⟩

end Btlos
