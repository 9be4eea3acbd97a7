import Btlos.Os.TimerLocks

/-! Each device of the timer has two monitors. The timer waits in the first one for a
flag of the device, the device in the second one for its flag to be cleared. No signal
is missed in either, and the threads do not block each other. -/
namespace Btlos

open Transition Monitor

variable {n : Nat}

/-! The places of both threads -/

@[simp] def Collect.place : Collect → Place
  | .lockEvent => .outside
  | .testFlags | .countFsh | .unlockEvent => .inside
  | .asleep => .asleep
  | .woken => .waking

@[simp] def Release.place : Release → Place
  | .lockTimer => .outside
  | .clearDone | .unlockTimer => .inside
  | .signalTimer => .owing

/-- Where the timer is in the first monitor of device number `i`. -/
@[simp] def ClockLoc.eventPlace (i : Nat) : ClockLoc → Place
  | .collect index _ _ next => if index = i then next.place else .outside
  | _ => .outside

/-- Where the timer is in the second one. -/
@[simp] def ClockLoc.timerPlace (i : Nat) : ClockLoc → Place
  | .release index _ _ next => if index = i then next.place else .outside
  | _ => .outside

@[simp] def DeviceLoc.eventPlace : DeviceLoc → Place
  | .setFlag _ | .unlockEvent _ => .inside
  | .signalEvent _ => .owing
  | _ => .outside

@[simp] def DeviceLoc.timerPlace : DeviceLoc → Place
  | .testDone | .unlockTimer => .inside
  | .asleep => .asleep
  | .woken => .waking
  | _ => .outside

@[simp] def Party.place (timer device : Place) : Party → Place
  | .timer => timer
  | .device => device

/-- `event_lock` and `event_cond`. -/
def Threads.eventMonitor (s : Threads n) (i : Fin n) : State Party where
  owner := (s.id i).eventLock
  place := Party.place (s.clock.eventPlace i) (s.loc i).eventPlace
  ready := (s.id i).done || (s.id i).fsh

/-- `timer_lock` and `timer_cond`. -/
def Threads.timerMonitor (s : Threads n) (i : Fin n) : State Party where
  owner := (s.id i).timerLock
  place := Party.place (s.clock.timerPlace i) (s.loc i).timerPlace
  ready := !(s.id i).done

theorem move_timer (owner : Option Party) (timer device place : Place) (ready : Bool) :
    State.move ⟨owner, Party.place timer device, ready⟩ .timer place =
      ⟨owner, Party.place place device, ready⟩ := by
  ext party
  · rfl
  · cases party <;> simp [Party.place]
  · rfl

theorem move_device (owner : Option Party) (timer device place : Place) (ready : Bool) :
    State.move ⟨owner, Party.place timer device, ready⟩ .device place =
      ⟨owner, Party.place timer place, ready⟩ := by
  ext party
  · rfl
  · cases party <;> simp [Party.place]
  · rfl

section Step

variable {s s' : Threads n} {label : Actor n × Option (TimerCall n)}

/-- A monitor takes a step or is not concerned. -/
def Takes (waiter : Party) (m m' : State Party) : Prop := m' = m ∨ Monitor.Step waiter m m'

theorem Takes.sound {waiter : Party} {m m' : State Party} (h : Takes waiter m m')
    (hSound : m.Sound waiter) : m'.Sound waiter := by
  cases h with
  | inl hSame => rwa [hSame]
  | inr hStep => exact hSound.step hStep

theorem eventPlace_signalled (clock : ClockLoc) (i j : Nat) :
    (clock.signalled i).eventPlace j =
      if i = j ∧ clock.eventPlace j = .asleep then .waking else clock.eventPlace j := by
  cases clock with
  | collect index fsh event next =>
      cases next with
      | asleep =>
          by_cases hIndex : index = i
          · subst hIndex
            by_cases hSame : index = j <;> simp [ClockLoc.signalled, hSame]
          · by_cases hSame : i = j
            · subst hSame
              simp [ClockLoc.signalled, hIndex]
            · simp [ClockLoc.signalled, hIndex, hSame]
      | _ => by_cases hSame : index = j <;> simp [ClockLoc.signalled, hSame]
  | _ => simp [ClockLoc.signalled]

theorem timerPlace_signalled (loc : DeviceLoc) :
    loc.signalled.timerPlace =
      if loc.timerPlace = .asleep then .waking else loc.timerPlace := by
  cases loc <;> rfl

theorem eventPlace_signalled_device (loc : DeviceLoc) :
    loc.signalled.eventPlace = loc.eventPlace := by
  cases loc <;> rfl

theorem timerPlace_signalled_clock (clock : ClockLoc) (i j : Nat) :
    (clock.signalled i).timerPlace j = clock.timerPlace j := by
  cases clock with
  | collect index fsh event next => cases next <;> rfl
  | _ => rfl

/-- What each step does to the first monitor of a device. -/
theorem eventMonitor_takes (step : ThreadStep s label s') (j : Fin n) :
    Takes .timer (s.eventMonitor j) (s'.eventMonitor j) := by
  cases step with
  | enter hLoc hRuns | exit hLoc hStops | advance hLoc =>
      left
      simp [Threads.eventMonitor, hLoc]
  | finish hLoc =>
      left
      simp only [Threads.eventMonitor, hLoc, clock_setClock]
      split_ifs <;> rfl
  | stopTimer => exact Or.inl rfl
  | lockEvent i hLoc hFree | relockEvent i hLoc hFree =>
      by_cases hSame : i = j
      · subst hSame
        right
        have hStep : Monitor.Step .timer (s.eventMonitor i) _ :=
          .lock .timer (by simp [Threads.eventMonitor, hLoc]) hFree
        simpa [Threads.eventMonitor, hLoc, hFree, move_timer] using hStep
      · left
        simp [Threads.eventMonitor, hLoc, Fin.val_inj, hSame, Ne.symm hSame]
  | flagsRaised i hLoc hReady | countFsh i hLoc =>
      left
      simp [Threads.eventMonitor, hLoc]
  | waitEvent i hLoc hClear =>
      by_cases hSame : i = j
      · subst hSame
        right
        have hStep : Monitor.Step .timer (s.eventMonitor i) _ :=
          .wait (by simp [Threads.eventMonitor, hLoc]) (by simp [Threads.eventMonitor, hClear])
        simpa [Threads.eventMonitor, hLoc, hClear, move_timer] using hStep
      · left
        simp [Threads.eventMonitor, hLoc, Fin.val_inj, hSame, Ne.symm hSame]
  | unlockEvent i hLoc =>
      by_cases hSame : i = j
      · subst hSame
        right
        have hStep : Monitor.Step .timer (s.eventMonitor i) _ :=
          .unlock .timer (by simp [Threads.eventMonitor, hLoc])
        simpa [Threads.eventMonitor, hLoc, move_timer] using hStep
      · left
        simp [Threads.eventMonitor, hLoc, Fin.val_inj, hSame, Ne.symm hSame]
  | wakeTimer i hLoc =>
      by_cases hSame : i = j
      · subst hSame
        right
        have hStep : Monitor.Step .timer (s.eventMonitor i) _ :=
          .wake (by simp [Threads.eventMonitor, hLoc])
        simpa [Threads.eventMonitor, hLoc, move_timer] using hStep
      · left
        simp [Threads.eventMonitor, hLoc, Fin.val_inj, hSame]
  | deviceLocksEvent i call hLoc hFree =>
      by_cases hSame : i = j
      · subst hSame
        right
        have hStep : Monitor.Step .timer (s.eventMonitor i) _ :=
          .lock .device (by simp [Threads.eventMonitor, hLoc]) hFree
        simpa [Threads.eventMonitor, hLoc, hFree, move_device] using hStep
      · left
        simp [Threads.eventMonitor, Ne.symm hSame]
  | setFlag i call hLoc =>
      by_cases hSame : i = j
      · subst hSame
        right
        have hStep : Monitor.Step .timer (s.eventMonitor i) _ :=
          .establish .device (by simp [Threads.eventMonitor, hLoc])
        cases call <;> simpa [Threads.eventMonitor, hLoc, move_device, SlotCall.raise] using hStep
      · left
        simp [Threads.eventMonitor, Ne.symm hSame]
  | signalEvent i call hLoc =>
      by_cases hSame : i = j
      · subst hSame
        right
        have hSignal : Monitor.Step .timer (s.eventMonitor i) _ :=
          .signal .device (by simp [Threads.eventMonitor, hLoc]) (fun hSame => by cases hSame)
        simp only [Threads.eventMonitor, move_device, move_timer] at hSignal
        simp only [Threads.eventMonitor, clock_setLoc, clock_setClock, id_setLoc, id_setClock,
          loc_setLoc, if_pos, eventPlace_signalled, true_and]
        exact hSignal
      · left
        simp only [Threads.eventMonitor, clock_setLoc, clock_setClock, id_setLoc, id_setClock,
          loc_setLoc, loc_setClock, eventPlace_signalled, Fin.val_inj, hSame, Ne.symm hSame,
          false_and, if_false]
  | deviceUnlocksEvent i call hLoc =>
      by_cases hSame : i = j
      · subst hSame
        right
        have hStep : Monitor.Step .timer (s.eventMonitor i) _ :=
          .unlock .device (by simp [Threads.eventMonitor, hLoc])
        cases call <;> simpa [Threads.eventMonitor, hLoc, move_device, SlotCall.after] using hStep
      · left
        simp [Threads.eventMonitor, Ne.symm hSame]
  | clearDone i hLoc =>
      by_cases hSame : i = j
      · subst hSame
        cases hFsh : (s.id i).fsh with
        | true =>
            left
            simp [Threads.eventMonitor, hLoc, hFsh]
        | false =>
            right
            have hStep : Monitor.Step .timer (s.eventMonitor i) _ := .spoil
            simpa [Threads.eventMonitor, hLoc, hFsh] using hStep
      · left
        simp [Threads.eventMonitor, hLoc, Ne.symm hSame]
  | lockTimer i hLoc hFree | unlockTimer i hLoc =>
      left
      by_cases hSame : i = j
      · subst hSame
        simp [Threads.eventMonitor, hLoc]
      · simp [Threads.eventMonitor, hLoc, Ne.symm hSame]
  | signalTimer i hLoc =>
      left
      by_cases hSame : i = j
      · subst hSame
        simp only [Threads.eventMonitor, hLoc, loc_setLoc, id_setLoc, clock_setLoc, if_pos,
          eventPlace_signalled_device]
        rfl
      · simp [Threads.eventMonitor, hLoc, Ne.symm hSame]
  | call i call hLoc | deviceLocksTimer i hLoc hFree | slotReturns i hLoc hDone
  | waitTimer i hLoc hDone | relockTimer i hLoc hFree | deviceUnlocksTimer i hLoc
  | wakeDevice i hLoc =>
      left
      by_cases hSame : i = j
      · subst hSame
        simp [Threads.eventMonitor, hLoc]
      · simp [Threads.eventMonitor, Ne.symm hSame]

/-- What each step does to the second monitor of a device. -/
theorem timerMonitor_takes (step : ThreadStep s label s') (j : Fin n) :
    Takes .device (s.timerMonitor j) (s'.timerMonitor j) := by
  cases step with
  | enter hLoc hRuns | exit hLoc hStops =>
      left
      simp [Threads.timerMonitor, hLoc]
  | advance hLoc =>
      left
      simp [Threads.timerMonitor, hLoc]
  | finish hLoc =>
      left
      simp only [Threads.timerMonitor, hLoc, clock_setClock, ClockLoc.timerPlace]
      split_ifs <;> simp_all
  | stopTimer => exact Or.inl rfl
  | lockEvent i hLoc hFree | relockEvent i hLoc hFree | waitEvent i hLoc hClear
  | unlockEvent i hLoc =>
      left
      by_cases hSame : i = j
      · subst hSame
        simp [Threads.timerMonitor, hLoc]
      · simp [Threads.timerMonitor, hLoc, Ne.symm hSame]
  | flagsRaised i hLoc hReady | countFsh i hLoc | wakeTimer i hLoc =>
      left
      simp [Threads.timerMonitor, hLoc]
  | lockTimer i hLoc hFree =>
      by_cases hSame : i = j
      · subst hSame
        right
        have hStep : Monitor.Step .device (s.timerMonitor i) _ :=
          .lock .timer (by simp [Threads.timerMonitor, hLoc]) hFree
        simpa [Threads.timerMonitor, hLoc, hFree, move_timer] using hStep
      · left
        simp [Threads.timerMonitor, hLoc, Fin.val_inj, hSame, Ne.symm hSame]
  | clearDone i hLoc =>
      by_cases hSame : i = j
      · subst hSame
        right
        have hStep : Monitor.Step .device (s.timerMonitor i) _ :=
          .establish .timer (by simp [Threads.timerMonitor, hLoc])
        simpa [Threads.timerMonitor, hLoc, move_timer] using hStep
      · left
        simp [Threads.timerMonitor, hLoc, Fin.val_inj, hSame, Ne.symm hSame]
  | signalTimer i hLoc =>
      by_cases hSame : i = j
      · subst hSame
        right
        have hSignal : Monitor.Step .device (s.timerMonitor i) _ :=
          .signal .timer (by simp [Threads.timerMonitor, hLoc]) (fun hSame => by cases hSame)
        simp only [Threads.timerMonitor, move_device, move_timer, hLoc] at hSignal
        simp only [Threads.timerMonitor, clock_setLoc, clock_setClock, id_setLoc, id_setClock,
          loc_setLoc, if_pos, timerPlace_signalled, hLoc, ClockLoc.timerPlace] at hSignal ⊢
        exact hSignal
      · left
        simp [Threads.timerMonitor, hLoc, Fin.val_inj, hSame, Ne.symm hSame]
  | unlockTimer i hLoc =>
      by_cases hSame : i = j
      · subst hSame
        right
        have hStep : Monitor.Step .device (s.timerMonitor i) _ :=
          .unlock .timer (by simp [Threads.timerMonitor, hLoc])
        simpa [Threads.timerMonitor, hLoc, move_timer] using hStep
      · left
        simp [Threads.timerMonitor, hLoc, Fin.val_inj, hSame, Ne.symm hSame]
  | call i call hLoc =>
      left
      by_cases hSame : i = j
      · subst hSame
        simp [Threads.timerMonitor, hLoc]
      · simp [Threads.timerMonitor, Ne.symm hSame]
  | deviceLocksEvent i call hLoc hFree =>
      left
      by_cases hSame : i = j
      · subst hSame
        simp [Threads.timerMonitor, hLoc]
      · simp [Threads.timerMonitor, Ne.symm hSame]
  | setFlag i call hLoc =>
      by_cases hSame : i = j
      · subst hSame
        cases call with
        | nextSlot =>
            right
            have hStep : Monitor.Step .device (s.timerMonitor i) _ := .spoil
            simpa [Threads.timerMonitor, hLoc, SlotCall.raise] using hStep
        | detachEvent =>
            left
            simp [Threads.timerMonitor, hLoc, SlotCall.raise]
      · left
        simp [Threads.timerMonitor, Ne.symm hSame]
  | signalEvent i call hLoc =>
      left
      by_cases hSame : i = j
      · subst hSame
        simp only [Threads.timerMonitor, clock_setLoc, clock_setClock, id_setLoc, id_setClock,
          loc_setLoc, if_pos, timerPlace_signalled_clock, hLoc]
        rfl
      · simp only [Threads.timerMonitor, clock_setLoc, clock_setClock, id_setLoc, id_setClock,
          loc_setLoc, loc_setClock, timerPlace_signalled_clock, Ne.symm hSame, if_false]
  | deviceUnlocksEvent i call hLoc =>
      left
      by_cases hSame : i = j
      · subst hSame
        cases call <;> simp [Threads.timerMonitor, hLoc, SlotCall.after]
      · simp [Threads.timerMonitor, Ne.symm hSame]
  | deviceLocksTimer i hLoc hFree | relockTimer i hLoc hFree =>
      by_cases hSame : i = j
      · subst hSame
        right
        have hStep : Monitor.Step .device (s.timerMonitor i) _ :=
          .lock .device (by simp [Threads.timerMonitor, hLoc]) hFree
        simpa [Threads.timerMonitor, hLoc, hFree, move_device] using hStep
      · left
        simp [Threads.timerMonitor, Ne.symm hSame]
  | slotReturns i hLoc hDone =>
      left
      by_cases hSame : i = j
      · subst hSame
        simp [Threads.timerMonitor, hLoc]
      · simp [Threads.timerMonitor, Ne.symm hSame]
  | waitTimer i hLoc hDone =>
      by_cases hSame : i = j
      · subst hSame
        right
        have hStep : Monitor.Step .device (s.timerMonitor i) _ :=
          .wait (by simp [Threads.timerMonitor, hLoc]) (by simp [Threads.timerMonitor, hDone])
        simpa [Threads.timerMonitor, hLoc, hDone, move_device] using hStep
      · left
        simp [Threads.timerMonitor, Ne.symm hSame]
  | deviceUnlocksTimer i hLoc =>
      by_cases hSame : i = j
      · subst hSame
        right
        have hStep : Monitor.Step .device (s.timerMonitor i) _ :=
          .unlock .device (by simp [Threads.timerMonitor, hLoc])
        simpa [Threads.timerMonitor, hLoc, move_device] using hStep
      · left
        simp [Threads.timerMonitor, Ne.symm hSame]
  | wakeDevice i hLoc =>
      by_cases hSame : i = j
      · subst hSame
        right
        have hStep : Monitor.Step .device (s.timerMonitor i) _ :=
          .wake (by simp [Threads.timerMonitor, hLoc])
        simpa [Threads.timerMonitor, hLoc, move_device] using hStep
      · left
        simp [Threads.timerMonitor, Ne.symm hSame]

end Step

/-! What a run keeps -/

/-- Every monitor is in order. -/
def Threads.Monitored (s : Threads n) : Prop :=
  ∀ i, (s.eventMonitor i).Sound .timer ∧ (s.timerMonitor i).Sound .device

theorem monitored_initial : (Threads.initial n).Monitored := by
  intro i
  have hNobody : ∀ party, ¬ (Party.place .outside .outside party).Holds := by
    intro party
    cases party <;> simp [Place.Holds]
  exact ⟨⟨fun party => iff_of_false (fun hOwns => by cases hOwns) (hNobody party),
      fun hAsleep => by cases hAsleep⟩,
    ⟨fun party => iff_of_false (fun hOwns => by cases hOwns) (hNobody party),
      fun hAsleep => by cases hAsleep⟩⟩

theorem monitored_run {labels : List (Actor n × Option (TimerCall n))} {s : Threads n}
    (run : Runs ThreadStep (Threads.initial n) labels s) : s.Monitored :=
  run.invariant Threads.Monitored monitored_initial fun _ _ _ h step i =>
    ⟨(eventMonitor_takes step i).sound (h i).1, (timerMonitor_takes step i).sound (h i).2⟩

/-- The place of the timer is within the list of devices. -/
def ClockLoc.InRange (n : Nat) : ClockLoc → Prop
  | .collect index _ _ next => index < n ∨ index = n ∧ next = .lockEvent
  | .release index _ _ next => index < n ∨ index = n ∧ next = .lockTimer
  | _ => True

theorem inRange_signalled {clock : ClockLoc} (h : clock.InRange n) (i : Fin n) :
    (clock.signalled i).InRange n := by
  cases clock with
  | collect index fsh event next =>
      cases next with
      | asleep =>
          cases h with
          | inl hLt => exact Or.inl hLt
          | inr hEnd => cases hEnd.2
      | _ => exact h
  | _ => exact h

theorem inRange_run {labels : List (Actor n × Option (TimerCall n))} {s : Threads n}
    (run : Runs ThreadStep (Threads.initial n) labels s) : s.clock.InRange n := by
  apply run.invariant (fun s => s.clock.InRange n) trivial
  intro s label t h step
  cases step with
  | enter | advance => exact (Nat.eq_zero_or_pos n).elim (fun h => Or.inr ⟨h.symm, rfl⟩) Or.inl
  | exit => trivial
  | finish =>
      rw [clock_setClock]
      split_ifs <;> trivial
  | unlockEvent i | unlockTimer i =>
      exact (Nat.lt_or_eq_of_le i.isLt).imp id fun h => ⟨h, rfl⟩
  | lockEvent i | flagsRaised i | waitEvent i | relockEvent i | countFsh i | wakeTimer i
  | lockTimer i | clearDone i | signalTimer i => exact Or.inl i.isLt
  | signalEvent i => exact inRange_signalled h i
  | call | deviceLocksEvent | setFlag | deviceUnlocksEvent | deviceLocksTimer | slotReturns
  | waitTimer | relockTimer | deviceUnlocksTimer | wakeDevice | stopTimer => exact h

/-! When the timer ends -/

/-- What the counts of the two inner loops say: once all devices that have been counted
had detached, they have. -/
def Timer.Counted (s : Timer n) : Prop :=
  match s.loc with
  | .collect index fsh event =>
      event = index ∧ fsh ≤ event ∧ (fsh = event → ∀ i : Fin n, i < index → (s.device i).fsh = true)
  | .release _ fsh event => fsh = event → ∀ i, (s.device i).fsh = true
  | .ended => s.timerStop = true ∨ ∀ i, (s.device i).fsh = true
  | .test => True

/-- A flag `fsh` stays up. -/
private theorem fsh_setDevice {s : Timer n} {i j : Fin n} {device : Device}
    (hDevice : (s.device i).fsh = true → device.fsh = true) (h : (s.device j).fsh = true) :
    ((s.setDevice i device).device j).fsh = true := by
  rw [device_setDevice]
  split_ifs with hSame
  · rw [hSame] at h
    exact hDevice h
  · exact h

/-- Where the timer stays and only more flags are raised. -/
private theorem Timer.Counted.mono {s t : Timer n} (h : s.Counted) (hLoc : t.loc = s.loc)
    (hStop : s.timerStop = true → t.timerStop = true)
    (hFsh : ∀ i, (s.device i).fsh = true → (t.device i).fsh = true) : t.Counted := by
  rw [Timer.Counted] at h ⊢
  rw [hLoc]
  cases hAt : s.loc with
  | test => trivial
  | collect index fsh event =>
      rw [hAt] at h
      exact ⟨h.1, h.2.1, fun hAll i hBefore => hFsh i (h.2.2 hAll i hBefore)⟩
  | release index fsh event =>
      rw [hAt] at h
      exact fun hAll i => hFsh i (h hAll i)
  | ended =>
      rw [hAt] at h
      exact h.imp hStop fun hAll i => hFsh i (hAll i)

theorem counted_step {s t : Timer n} {label : TimerCall n} (h : s.Counted)
    (step : TimerStep s label t) : t.Counted := by
  cases step with
  | enter hLoc hRuns =>
      exact ⟨rfl, Nat.le_refl 0, fun _ _ hBefore => absurd hBefore (Nat.not_lt_zero _)⟩
  | exit hLoc hStops => exact Or.inl hStops
  | @collect fsh event i hLoc hReady =>
      rw [Timer.Counted, hLoc] at h
      obtain ⟨hEvent, hLe, hAll⟩ := h
      refine ⟨congrArg (· + 1) hEvent, ?_, fun hCount j hBefore => ?_⟩
      · split_ifs <;> omega
      · split_ifs at hCount with hHere
        · by_cases hSame : j = i
          · rw [hSame]
            exact hHere
          · have hLt : (j : Nat) < i := by
              have := Fin.val_ne_iff.mpr hSame
              omega
            exact hAll (by omega) j hLt
        · omega
  | @advance fsh event hLoc =>
      rw [Timer.Counted, hLoc] at h
      exact fun hAll i => h.2.2 hAll i i.isLt
  | @release fsh event i hLoc =>
      rw [Timer.Counted, hLoc] at h
      exact fun hAll j => fsh_setDevice (s := s) id (h hAll j)
  | @finish fsh event hLoc =>
      rw [Timer.Counted, hLoc] at h
      rw [Timer.Counted]
      by_cases hAll : fsh = event
      · rw [if_pos hAll]
        exact Or.inr (h hAll)
      · rw [if_neg hAll]
        trivial
  | nextSlot i hPhase => exact h.mono rfl id fun _ => fsh_setDevice id
  | slotReturns i hPhase hDone => exact h.mono rfl id fun _ => fsh_setDevice id
  | detachEvent i hPhase => exact h.mono rfl id fun _ => fsh_setDevice fun _ => rfl
  | stopTimer => exact h.mono rfl (fun _ => rfl) fun _ hUp => hUp

private theorem Device.Released.present {round : Nat} {d : Device} (h : d.Released round) :
    d.phase ≠ .detached := by
  rcases h with ⟨hPhase, -⟩ | ⟨hPhase, -⟩ | ⟨hPhase, -⟩ <;> simp [hPhase]

private theorem Device.Held.present {round : Nat} {d : Device} (h : d.Held round) :
    d.phase ≠ .detached := by
  simp [h.1]

private theorem Device.Fits.present {loc : TimerLoc} {round index : Nat} {d : Device}
    (h : d.Fits loc round index) : d.phase ≠ .detached := by
  cases loc with
  | test | ended => exact Device.Released.present h
  | collect place fsh event =>
      rw [Device.Fits] at h
      split_ifs at h
      · exact Device.Held.present h
      · exact Device.Released.present h
  | release place fsh event =>
      rw [Device.Fits] at h
      split_ifs at h
      · exact Device.Released.present h
      · exact Device.Held.present h

/-- A device has raised its flag `fsh` exactly when it has detached. -/
theorem Timer.InRound.fsh_iff {s : Timer n} {round : Nat} (h : s.InRound round) (i : Fin n) :
    (s.device i).fsh = true ↔ (s.device i).phase = .detached := by
  rcases h.fits i with ⟨hPhase, hFsh⟩ | ⟨hFsh, hFits⟩
  · exact iff_of_true hFsh hPhase
  · exact iff_of_false (by simp [hFsh]) hFits.present

/-! Who can move -/

def Threads.TimerMoves (s : Threads n) : Prop := ∃ shown t, ThreadStep s (.timer, shown) t

def Threads.DeviceMoves (s : Threads n) (i : Fin n) : Prop :=
  ∃ shown t, ThreadStep s (.device i, shown) t

/-- The timer stands at this device in one of its inner loops. -/
def ClockLoc.StandsAt (i : Nat) (loc : ClockLoc) : Prop :=
  (∃ fsh event next, loc = .collect i fsh event next) ∨
    ∃ fsh event next, loc = .release i fsh event next

section Moves

variable {s : Threads n}

theorem deviceMoves_of_event {i : Fin n} (h : (s.loc i).eventPlace.Holds) : s.DeviceMoves i := by
  cases hLoc : s.loc i with
  | setFlag call => exact ⟨_, _, .setFlag i call hLoc⟩
  | signalEvent call => exact ⟨_, _, .signalEvent i call hLoc⟩
  | unlockEvent call => exact ⟨_, _, .deviceUnlocksEvent i call hLoc⟩
  | _ => simp [hLoc, Place.Holds] at h

theorem deviceMoves_of_timer {i : Fin n} (h : (s.loc i).timerPlace.Holds) : s.DeviceMoves i := by
  cases hLoc : s.loc i with
  | testDone =>
      cases hDone : (s.id i).done with
      | true => exact ⟨_, _, .waitTimer i hLoc hDone⟩
      | false => exact ⟨_, _, .slotReturns i hLoc hDone⟩
  | unlockTimer => exact ⟨_, _, .deviceUnlocksTimer i hLoc⟩
  | _ => simp [hLoc, Place.Holds] at h

/-- A mutex of the event that the timer does not hold is free or its device can move. -/
theorem Threads.Monitored.event_free (h : s.Monitored) {i : Fin n}
    (hTimer : ¬ (s.clock.eventPlace i).Holds) : (s.id i).eventLock = none ∨ s.DeviceMoves i := by
  cases (h i).1.free_or_held with
  | inl hFree => exact Or.inl hFree
  | inr hHeld =>
      obtain ⟨party, hParty⟩ := hHeld
      cases party with
      | timer => exact absurd hParty hTimer
      | device => exact Or.inr (deviceMoves_of_event hParty)

theorem Threads.Monitored.timer_free (h : s.Monitored) {i : Fin n}
    (hTimer : ¬ (s.clock.timerPlace i).Holds) : (s.id i).timerLock = none ∨ s.DeviceMoves i := by
  cases (h i).2.free_or_held with
  | inl hFree => exact Or.inl hFree
  | inr hHeld =>
      obtain ⟨party, hParty⟩ := hHeld
      cases party with
      | timer => exact absurd hParty hTimer
      | device => exact Or.inr (deviceMoves_of_timer hParty)

/-- While the timer sleeps, no flag is up that its device has signalled. -/
theorem Threads.Monitored.timer_awake (h : s.Monitored) {i : Fin n} {fsh event : Nat}
    (hAsleep : s.clock = .collect i fsh event .asleep) :
    (s.id i).done = false ∧ (s.id i).fsh = false ∨ (s.loc i).eventPlace = .owing := by
  have hPlace : s.clock.eventPlace i = .asleep := by simp [hAsleep]
  cases hReady : (s.eventMonitor i).ready with
  | false => exact Or.inl (Bool.or_eq_false_iff.mp hReady)
  | true =>
      obtain ⟨party, hOwing⟩ := (h i).1.awake hPlace hReady
      cases party with
      | timer =>
          rw [show (s.eventMonitor i).place .timer = s.clock.eventPlace i from rfl,
            hPlace] at hOwing
          cases hOwing
      | device => exact Or.inr hOwing

/-- While a device sleeps, its flag is up or the timer is about to signal. -/
theorem Threads.Monitored.device_awake (h : s.Monitored) {i : Fin n} (hAsleep : s.loc i = .asleep) :
    (s.id i).done = true ∨ s.clock.timerPlace i = .owing := by
  have hPlace : (s.loc i).timerPlace = .asleep := by rw [hAsleep]; rfl
  cases hDone : (s.id i).done with
  | true => exact Or.inl rfl
  | false =>
      have hReady : (s.timerMonitor i).ready = true := by simp [Threads.timerMonitor, hDone]
      obtain ⟨party, hOwing⟩ := (h i).2.awake hPlace hReady
      cases party with
      | timer => exact Or.inr hOwing
      | device =>
          rw [show (s.timerMonitor i).place .device = (s.loc i).timerPlace from rfl, hPlace]
            at hOwing
          cases hOwing

/-- While the timer waits for a device in its first loop, the device can move. -/
theorem Threads.Monitored.device_moves (h : s.Monitored) {i : Fin n} {fsh event : Nat}
    (hAsleep : s.clock = .collect i fsh event .asleep)
    (hDetached : s.loc i = .detached → (s.id i).fsh = true) : s.DeviceMoves i := by
  have hEvent : ¬ (s.clock.eventPlace i).Holds := by simp [hAsleep, Place.Holds]
  have hTimer : ¬ (s.clock.timerPlace i).Holds := by simp [hAsleep, Place.Holds]
  cases h.timer_awake hAsleep with
  | inr hOwing => exact deviceMoves_of_event (Or.inr hOwing)
  | inl hClear =>
      cases hLoc : s.loc i with
      | working => exact ⟨_, _, .call i .nextSlot hLoc⟩
      | lockEvent call =>
          cases h.event_free hEvent with
          | inl hFree => exact ⟨_, _, .deviceLocksEvent i call hLoc hFree⟩
          | inr hMoves => exact hMoves
      | setFlag call | signalEvent call | unlockEvent call =>
          exact deviceMoves_of_event (by simp [hLoc, Place.Holds])
      | lockTimer =>
          cases h.timer_free hTimer with
          | inl hFree => exact ⟨_, _, .deviceLocksTimer i hLoc hFree⟩
          | inr hMoves => exact hMoves
      | testDone | unlockTimer => exact deviceMoves_of_timer (by simp [hLoc, Place.Holds])
      | asleep =>
          cases h.device_awake hLoc with
          | inl hDone =>
              rw [hClear.1] at hDone
              cases hDone
          | inr hOwing => exact absurd (Or.inr hOwing) hTimer
      | woken =>
          cases h.timer_free hTimer with
          | inl hFree => exact ⟨_, _, .relockTimer i hLoc hFree⟩
          | inr hMoves => exact hMoves
      | detached =>
          rw [hDetached hLoc] at hClear
          cases hClear.2

/-- The timer can move, unless it stands at a device that can. -/
theorem Threads.Monitored.moves (h : s.Monitored) (hRange : s.clock.InRange n)
    (hDetached : ∀ i, s.loc i = .detached → (s.id i).fsh = true) (hRuns : s.clock ≠ .ended) :
    s.TimerMoves ∨ ∃ i : Fin n, s.clock.StandsAt i ∧ s.DeviceMoves i := by
  cases hClock : s.clock with
  | test =>
      left
      cases hStop : s.timerStop with
      | true => exact ⟨_, _, .exit hClock hStop⟩
      | false => exact ⟨_, _, .enter hClock hStop⟩
  | ended => exact absurd hClock hRuns
  | collect index fsh event next =>
      rw [hClock] at hRange
      rcases hRange with hLt | ⟨rfl, rfl⟩
      · obtain ⟨i, rfl⟩ : ∃ i : Fin n, (i : Nat) = index := ⟨⟨index, hLt⟩, rfl⟩
        have hStands : ClockLoc.StandsAt i (.collect i fsh event next) :=
          Or.inl ⟨fsh, event, next, rfl⟩
        cases next with
        | lockEvent =>
            cases h.event_free (i := i) (by simp [hClock, Place.Holds]) with
            | inl hFree => exact Or.inl ⟨_, _, .lockEvent i hClock hFree⟩
            | inr hMoves => exact Or.inr ⟨i, hStands, hMoves⟩
        | testFlags =>
            left
            by_cases hReady : (s.id i).done = true ∨ (s.id i).fsh = true
            · exact ⟨_, _, .flagsRaised i hClock hReady⟩
            · exact ⟨_, _, .waitEvent i hClock (by simpa using hReady)⟩
        | asleep => exact Or.inr ⟨i, hStands, h.device_moves hClock (hDetached i)⟩
        | woken =>
            cases h.event_free (i := i) (by simp [hClock, Place.Holds]) with
            | inl hFree => exact Or.inl ⟨_, _, .relockEvent i hClock hFree⟩
            | inr hMoves => exact Or.inr ⟨i, hStands, hMoves⟩
        | countFsh => exact Or.inl ⟨_, _, .countFsh i hClock⟩
        | unlockEvent => exact Or.inl ⟨_, _, .unlockEvent i hClock⟩
      · exact Or.inl ⟨_, _, .advance hClock⟩
  | release index fsh event next =>
      rw [hClock] at hRange
      rcases hRange with hLt | ⟨rfl, rfl⟩
      · obtain ⟨i, rfl⟩ : ∃ i : Fin n, (i : Nat) = index := ⟨⟨index, hLt⟩, rfl⟩
        cases next with
        | lockTimer =>
            cases h.timer_free (i := i) (by simp [hClock, Place.Holds]) with
            | inl hFree => exact Or.inl ⟨_, _, .lockTimer i hClock hFree⟩
            | inr hMoves => exact Or.inr ⟨i, Or.inr ⟨fsh, event, _, rfl⟩, hMoves⟩
        | clearDone => exact Or.inl ⟨_, _, .clearDone i hClock⟩
        | signalTimer => exact Or.inl ⟨_, _, .signalTimer i hClock⟩
        | unlockTimer => exact Or.inl ⟨_, _, .unlockTimer i hClock⟩
      · exact Or.inl ⟨_, _, .finish hClock⟩

/-- Where the timer stands when it is in a section on the event of a device. -/
theorem eventPlace_holds {clock : ClockLoc} {i : Nat} (h : (clock.eventPlace i).Holds) :
    ∃ fsh event next, clock = .collect i fsh event next ∧ next.place = .inside := by
  cases clock with
  | collect index fsh event next =>
      rw [ClockLoc.eventPlace] at h
      split_ifs at h with hIndex
      · subst hIndex
        cases next <;> simp [Place.Holds] at h ⊢
      · simp [Place.Holds] at h
  | _ => simp [Place.Holds] at h

theorem timerPlace_holds {clock : ClockLoc} {i : Nat} (h : (clock.timerPlace i).Holds) :
    ∃ fsh event next, clock = .release i fsh event next ∧ next ≠ .lockTimer := by
  cases clock with
  | release index fsh event next =>
      rw [ClockLoc.timerPlace] at h
      split_ifs at h with hIndex
      · subst hIndex
        cases next <;> simp [Place.Holds] at h ⊢
      · simp [Place.Holds] at h
  | _ => simp [Place.Holds] at h

/-- In a section the timer can move. -/
theorem timerMoves_of_event {i : Fin n} (h : (s.clock.eventPlace i).Holds) : s.TimerMoves := by
  obtain ⟨fsh, event, next, hClock, hInside⟩ := eventPlace_holds h
  cases next with
  | testFlags =>
      by_cases hReady : (s.id i).done = true ∨ (s.id i).fsh = true
      · exact ⟨_, _, .flagsRaised i hClock hReady⟩
      · exact ⟨_, _, .waitEvent i hClock (by simpa using hReady)⟩
  | countFsh => exact ⟨_, _, .countFsh i hClock⟩
  | unlockEvent => exact ⟨_, _, .unlockEvent i hClock⟩
  | lockEvent | asleep | woken => cases hInside

theorem timerMoves_of_timer {i : Fin n} (h : (s.clock.timerPlace i).Holds) : s.TimerMoves := by
  obtain ⟨fsh, event, next, hClock, hInside⟩ := timerPlace_holds h
  cases next with
  | lockTimer => exact absurd rfl hInside
  | clearDone => exact ⟨_, _, .clearDone i hClock⟩
  | signalTimer => exact ⟨_, _, .signalTimer i hClock⟩
  | unlockTimer => exact ⟨_, _, .unlockTimer i hClock⟩

/-- A device that cannot move has detached or sleeps, or the timer has its mutex and
can move. -/
theorem Threads.Monitored.device_blocked (h : s.Monitored) (i : Fin n) :
    s.DeviceMoves i ∨ s.loc i = .detached ∨ s.loc i = .asleep ∨ s.TimerMoves := by
  by_cases hTimer : (s.clock.eventPlace i).Holds ∨ (s.clock.timerPlace i).Holds
  · exact Or.inr (Or.inr (Or.inr (hTimer.elim timerMoves_of_event timerMoves_of_timer)))
  · obtain ⟨hEvent, hSecond⟩ := not_or.mp hTimer
    cases hLoc : s.loc i with
    | working => exact Or.inl ⟨_, _, .call i .nextSlot hLoc⟩
    | lockEvent call =>
        left
        cases h.event_free hEvent with
        | inl hFree => exact ⟨_, _, .deviceLocksEvent i call hLoc hFree⟩
        | inr hMoves => exact hMoves
    | setFlag call | signalEvent call | unlockEvent call =>
        exact Or.inl (deviceMoves_of_event (by simp [hLoc, Place.Holds]))
    | lockTimer =>
        left
        cases h.timer_free hSecond with
        | inl hFree => exact ⟨_, _, .deviceLocksTimer i hLoc hFree⟩
        | inr hMoves => exact hMoves
    | testDone | unlockTimer =>
        exact Or.inl (deviceMoves_of_timer (by simp [hLoc, Place.Holds]))
    | asleep => exact Or.inr (Or.inr (Or.inl rfl))
    | woken =>
        left
        cases h.timer_free hSecond with
        | inl hFree => exact ⟨_, _, .relockTimer i hLoc hFree⟩
        | inr hMoves => exact hMoves
    | detached => exact Or.inr (Or.inl rfl)

end Moves

/-- What the locks and condition variables give in every state of a run. -/
structure Threads.Live (s : Threads n) : Prop where
  exclusive : ∀ i : Fin n, ¬ ((s.clock.eventPlace i).Holds ∧ (s.loc i).eventPlace.Holds) ∧
    ¬ ((s.clock.timerPlace i).Holds ∧ (s.loc i).timerPlace.Holds)
  timerAwake : ∀ (i : Fin n) fsh event, s.clock = .collect i fsh event .asleep →
    (s.id i).done = false ∧ (s.id i).fsh = false ∨ ∃ call, s.loc i = .signalEvent call
  deviceAwake : ∀ i : Fin n, s.loc i = .asleep →
    (s.id i).done = true ∨ ∃ fsh event, s.clock = .release i fsh event .signalTimer
  moves : s.clock ≠ .ended → s.TimerMoves ∨ ∃ i : Fin n, s.clock.StandsAt i ∧ s.DeviceMoves i
  blocked : ∀ i, s.DeviceMoves i ∨ s.loc i = .detached ∨ s.loc i = .asleep ∨ s.TimerMoves
  ended : s.clock = .ended → s.timerStop = true ∨ ∀ i, (s.loc i).phase = .detached

theorem threads_live {labels : List (Actor n × Option (TimerCall n))} {s : Threads n}
    (run : Runs ThreadStep (Threads.initial n) labels s) : s.Live := by
  have h := monitored_run run
  obtain ⟨t, shown, hShows⟩ := shows_run run
  obtain ⟨round, hRound, -⟩ := Timer.together_run shown
  have hCounted : t.Counted :=
    shown.invariant Timer.Counted trivial fun _ _ _ hBefore step => counted_step hBefore step
  have hFsh : ∀ i, (s.id i).fsh = true ↔ (s.loc i).phase = .detached := by
    intro i
    rw [← hShows.fsh i, ← hShows.phase i]
    exact hRound.fsh_iff i
  constructor
  · intro i
    constructor
    · rintro ⟨hTimer, hDevice⟩
      have hSame : Party.timer = .device := (h i).1.exclusive hTimer hDevice
      cases hSame
    · rintro ⟨hTimer, hDevice⟩
      have hSame : Party.timer = .device := (h i).2.exclusive hTimer hDevice
      cases hSame
  · intro i fsh event hAsleep
    apply (h.timer_awake hAsleep).imp_right
    intro hOwing
    cases hLoc : s.loc i with
    | signalEvent call => exact ⟨call, rfl⟩
    | _ => simp [hLoc] at hOwing
  · intro i hAsleep
    apply (h.device_awake hAsleep).imp_right
    intro hOwing
    obtain ⟨fsh, event, next, hClock, -⟩ := timerPlace_holds (Or.inr hOwing)
    cases next with
    | signalTimer => exact ⟨fsh, event, hClock⟩
    | _ => simp [hClock] at hOwing
  · intro hRuns
    apply h.moves (inRange_run run) _ hRuns
    intro i hLoc
    exact (hFsh i).mpr (by rw [hLoc]; rfl)
  · exact h.device_blocked
  · intro hEnded
    rw [Timer.Counted, hShows.loc, hEnded, ClockLoc.timerLoc] at hCounted
    rw [hShows.timerStop] at hCounted
    apply hCounted.imp_right
    intro hAll i
    exact (hFsh i).mp ((hShows.fsh i).symm.trans (hAll i))

/-- The timer slept until the device signalled. -/
theorem threads_live_waking : ∃ s : Threads 1, s.clock = .collect 0 0 1 .unlockEvent ∧ s.Live := by
  obtain ⟨s, run, hClock, -⟩ := wakingSteps_run
  exact ⟨s, hClock, threads_live run⟩

end Btlos
