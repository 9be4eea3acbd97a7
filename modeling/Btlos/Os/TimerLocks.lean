import Btlos.Library.Monitor
import Btlos.Os.Timer

/-! The threads of `timer.c` with their mutexes and condition variables. A step is
one call of the pthread library, one test of a loop or one access to a flag. What
these steps do is what the timer does in whole sections. -/
namespace Btlos

open Transition

/-- The two threads that use a `timer_id_t`. -/
inductive Party where
  | timer
  | device
deriving DecidableEq

/-- A `timer_id_t`, with the thread that holds each mutex. -/
structure TimerId where
  done : Bool
  fsh : Bool
  eventLock : Option Party
  timerLock : Option Party

def TimerId.initial : TimerId := ⟨false, false, none, none⟩

/-- The two functions that a device calls. -/
inductive SlotCall where
  | nextSlot
  | detachEvent
deriving DecidableEq

/-- What the thread of a device does next: outside, in the section that both functions
have on the event, in the second one of `next_slot`, or nothing. -/
inductive DeviceLoc where
  | working
  | lockEvent (call : SlotCall)
  | setFlag (call : SlotCall)
  | signalEvent (call : SlotCall)
  | unlockEvent (call : SlotCall)
  | lockTimer
  | testDone
  | asleep
  | woken
  | unlockTimer
  | detached
deriving DecidableEq

/-- What the timer does next in its first inner loop. -/
inductive Collect where
  | lockEvent
  | testFlags
  | asleep
  | woken
  | countFsh
  | unlockEvent
deriving DecidableEq

/-- What it does next in the second one. -/
inductive Release where
  | lockTimer
  | clearDone
  | signalTimer
  | unlockTimer
deriving DecidableEq

inductive ClockLoc where
  | test
  | collect (index fsh event : Nat) (next : Collect)
  | release (index fsh event : Nat) (next : Release)
  | ended
deriving DecidableEq

structure Threads (n : Nat) where
  time : UInt64
  timerStop : Bool
  clock : ClockLoc
  id : Fin n → TimerId
  loc : Fin n → DeviceLoc

variable {n : Nat}

def Threads.initial (n : Nat) : Threads n :=
  ⟨0, false, .test, fun _ => TimerId.initial, fun _ => .working⟩

def Threads.setId (s : Threads n) (i : Fin n) (id : TimerId) : Threads n :=
  { s with id := Function.update s.id i id }

def Threads.setClock (s : Threads n) (clock : ClockLoc) : Threads n := { s with clock := clock }

def Threads.setLoc (s : Threads n) (i : Fin n) (loc : DeviceLoc) : Threads n :=
  { s with loc := Function.update s.loc i loc }

/-- `pthread_cond_signal` on the `event_cond` of device number `i`. -/
def ClockLoc.signalled (i : Nat) : ClockLoc → ClockLoc
  | .collect index fsh event .asleep =>
      .collect index fsh event (if index = i then .woken else .asleep)
  | loc => loc

/-- `pthread_cond_signal` on the `timer_cond` of a device. -/
def DeviceLoc.signalled : DeviceLoc → DeviceLoc
  | .asleep => .woken
  | loc => loc

/-- Who takes a step; a wait that ends without a signal is one of the library. -/
inductive Actor (n : Nat) where
  | timer
  | device (i : Fin n)
  | pthread
  | main
deriving DecidableEq

/-- The flag that each function raises. -/
def SlotCall.raise (id : TimerId) : SlotCall → TimerId
  | .nextSlot => { id with done := true }
  | .detachEvent => { id with fsh := true }

def SlotCall.after : SlotCall → DeviceLoc
  | .nextSlot => .lockTimer
  | .detachEvent => .detached

def SlotCall.shown (i : Fin n) : SlotCall → TimerCall n
  | .nextSlot => .nextSlot i
  | .detachEvent => .detachEvent i

/-- The steps of all threads, each with the section of the timer that it stands for,
if any. -/
inductive ThreadStep : Threads n → Actor n × Option (TimerCall n) → Threads n → Prop where
  | enter {s : Threads n} (hLoc : s.clock = .test) (hRuns : s.timerStop = false) :
      ThreadStep s (.timer, some .timer) (s.setClock (.collect 0 0 0 .lockEvent))
  | exit {s : Threads n} (hLoc : s.clock = .test) (hStops : s.timerStop = true) :
      ThreadStep s (.timer, some .timer) (s.setClock .ended)
  | lockEvent {s : Threads n} {fsh event : Nat} (i : Fin n)
      (hLoc : s.clock = .collect i fsh event .lockEvent) (hFree : (s.id i).eventLock = none) :
      ThreadStep s (.timer, none)
        ((s.setClock (.collect i fsh event .testFlags)).setId i
          { s.id i with eventLock := some .timer })
  | flagsRaised {s : Threads n} {fsh event : Nat} (i : Fin n)
      (hLoc : s.clock = .collect i fsh event .testFlags)
      (hReady : (s.id i).done = true ∨ (s.id i).fsh = true) :
      ThreadStep s (.timer, none) (s.setClock (.collect i fsh event .countFsh))
  | waitEvent {s : Threads n} {fsh event : Nat} (i : Fin n)
      (hLoc : s.clock = .collect i fsh event .testFlags)
      (hClear : (s.id i).done = false ∧ (s.id i).fsh = false) :
      ThreadStep s (.timer, none)
        ((s.setClock (.collect i fsh event .asleep)).setId i
          { s.id i with eventLock := none })
  | relockEvent {s : Threads n} {fsh event : Nat} (i : Fin n)
      (hLoc : s.clock = .collect i fsh event .woken) (hFree : (s.id i).eventLock = none) :
      ThreadStep s (.timer, none)
        ((s.setClock (.collect i fsh event .testFlags)).setId i
          { s.id i with eventLock := some .timer })
  | countFsh {s : Threads n} {fsh event : Nat} (i : Fin n)
      (hLoc : s.clock = .collect i fsh event .countFsh) :
      ThreadStep s (.timer, some .timer)
        (s.setClock
          (.collect i (if (s.id i).fsh then fsh + 1 else fsh) (event + 1) .unlockEvent))
  | unlockEvent {s : Threads n} {fsh event : Nat} (i : Fin n)
      (hLoc : s.clock = .collect i fsh event .unlockEvent) :
      ThreadStep s (.timer, none)
        ((s.setClock (.collect (i + 1) fsh event .lockEvent)).setId i
          { s.id i with eventLock := none })
  | advance {s : Threads n} {fsh event : Nat} (hLoc : s.clock = .collect n fsh event .lockEvent) :
      ThreadStep s (.timer, some .timer)
        ({ s with time := s.time + 1 }.setClock (.release 0 fsh event .lockTimer))
  | lockTimer {s : Threads n} {fsh event : Nat} (i : Fin n)
      (hLoc : s.clock = .release i fsh event .lockTimer) (hFree : (s.id i).timerLock = none) :
      ThreadStep s (.timer, none)
        ((s.setClock (.release i fsh event .clearDone)).setId i
          { s.id i with timerLock := some .timer })
  | clearDone {s : Threads n} {fsh event : Nat} (i : Fin n)
      (hLoc : s.clock = .release i fsh event .clearDone) :
      ThreadStep s (.timer, some .timer)
        ((s.setClock (.release i fsh event .signalTimer)).setId i
          { s.id i with done := false })
  | signalTimer {s : Threads n} {fsh event : Nat} (i : Fin n)
      (hLoc : s.clock = .release i fsh event .signalTimer) :
      ThreadStep s (.timer, none)
        ((s.setClock (.release i fsh event .unlockTimer)).setLoc i (s.loc i).signalled)
  | unlockTimer {s : Threads n} {fsh event : Nat} (i : Fin n)
      (hLoc : s.clock = .release i fsh event .unlockTimer) :
      ThreadStep s (.timer, none)
        ((s.setClock (.release (i + 1) fsh event .lockTimer)).setId i
          { s.id i with timerLock := none })
  | finish {s : Threads n} {fsh event : Nat} (hLoc : s.clock = .release n fsh event .lockTimer) :
      ThreadStep s (.timer, some .timer)
        (s.setClock (if fsh = event then .ended else .test))
  | call {s : Threads n} (i : Fin n) (call : SlotCall) (hLoc : s.loc i = .working) :
      ThreadStep s (.device i, none) (s.setLoc i (.lockEvent call))
  | deviceLocksEvent {s : Threads n} (i : Fin n) (call : SlotCall)
      (hLoc : s.loc i = .lockEvent call) (hFree : (s.id i).eventLock = none) :
      ThreadStep s (.device i, none)
        ((s.setLoc i (.setFlag call)).setId i { s.id i with eventLock := some .device })
  | setFlag {s : Threads n} (i : Fin n) (call : SlotCall) (hLoc : s.loc i = .setFlag call) :
      ThreadStep s (.device i, some (call.shown i))
        ((s.setLoc i (.signalEvent call)).setId i (call.raise (s.id i)))
  | signalEvent {s : Threads n} (i : Fin n) (call : SlotCall)
      (hLoc : s.loc i = .signalEvent call) :
      ThreadStep s (.device i, none)
        ((s.setClock (s.clock.signalled i)).setLoc i (.unlockEvent call))
  | deviceUnlocksEvent {s : Threads n} (i : Fin n) (call : SlotCall)
      (hLoc : s.loc i = .unlockEvent call) :
      ThreadStep s (.device i, none)
        ((s.setLoc i call.after).setId i { s.id i with eventLock := none })
  | deviceLocksTimer {s : Threads n} (i : Fin n) (hLoc : s.loc i = .lockTimer)
      (hFree : (s.id i).timerLock = none) :
      ThreadStep s (.device i, none)
        ((s.setLoc i .testDone).setId i { s.id i with timerLock := some .device })
  | slotReturns {s : Threads n} (i : Fin n) (hLoc : s.loc i = .testDone)
      (hDone : (s.id i).done = false) :
      ThreadStep s (.device i, some (.slotReturns i)) (s.setLoc i .unlockTimer)
  | waitTimer {s : Threads n} (i : Fin n) (hLoc : s.loc i = .testDone)
      (hDone : (s.id i).done = true) :
      ThreadStep s (.device i, none)
        ((s.setLoc i .asleep).setId i { s.id i with timerLock := none })
  | relockTimer {s : Threads n} (i : Fin n) (hLoc : s.loc i = .woken)
      (hFree : (s.id i).timerLock = none) :
      ThreadStep s (.device i, none)
        ((s.setLoc i .testDone).setId i { s.id i with timerLock := some .device })
  | deviceUnlocksTimer {s : Threads n} (i : Fin n) (hLoc : s.loc i = .unlockTimer) :
      ThreadStep s (.device i, none)
        ((s.setLoc i .working).setId i { s.id i with timerLock := none })
  | wakeTimer {s : Threads n} {fsh event : Nat} (i : Fin n)
      (hLoc : s.clock = .collect i fsh event .asleep) :
      ThreadStep s (.pthread, none) (s.setClock (.collect i fsh event .woken))
  | wakeDevice {s : Threads n} (i : Fin n) (hLoc : s.loc i = .asleep) :
      ThreadStep s (.pthread, none) (s.setLoc i .woken)
  | stopTimer {s : Threads n} :
      ThreadStep s (.main, some .stopTimer) { s with timerStop := true }

@[simp]
theorem id_setId (s : Threads n) (i j : Fin n) (id : TimerId) :
    (s.setId i id).id j = if j = i then id else s.id j := Function.update_apply _ _ _ _

@[simp]
theorem loc_setLoc (s : Threads n) (i j : Fin n) (loc : DeviceLoc) :
    (s.setLoc i loc).loc j = if j = i then loc else s.loc j := Function.update_apply _ _ _ _

@[simp]
theorem clock_setClock (s : Threads n) (clock : ClockLoc) : (s.setClock clock).clock = clock := rfl

@[simp]
theorem id_setClock (s : Threads n) (clock : ClockLoc) : (s.setClock clock).id = s.id := rfl

@[simp]
theorem loc_setClock (s : Threads n) (clock : ClockLoc) : (s.setClock clock).loc = s.loc := rfl

@[simp]
theorem loc_setId (s : Threads n) (i : Fin n) (id : TimerId) : (s.setId i id).loc = s.loc := rfl

@[simp]
theorem clock_setId (s : Threads n) (i : Fin n) (id : TimerId) :
    (s.setId i id).clock = s.clock := rfl

@[simp]
theorem id_setLoc (s : Threads n) (i : Fin n) (loc : DeviceLoc) :
    (s.setLoc i loc).id = s.id := rfl

@[simp]
theorem clock_setLoc (s : Threads n) (i : Fin n) (loc : DeviceLoc) :
    (s.setLoc i loc).clock = s.clock := rfl

/-! What the sections of the timer see of the threads -/

/-- A device has called, waits or is through from the access to a flag on. -/
def DeviceLoc.phase : DeviceLoc → Phase
  | .working | .lockEvent _ | .setFlag _ | .unlockTimer => .working
  | .signalEvent .nextSlot | .unlockEvent .nextSlot => .waiting
  | .lockTimer | .testDone | .asleep | .woken => .waiting
  | .signalEvent .detachEvent | .unlockEvent .detachEvent | .detached => .detached

def ClockLoc.timerLoc : ClockLoc → TimerLoc
  | .test => .test
  | .collect index fsh event .unlockEvent => .collect (index + 1) fsh event
  | .collect index fsh event _ => .collect index fsh event
  | .release index fsh event .lockTimer | .release index fsh event .clearDone =>
      .release index fsh event
  | .release index fsh event _ => .release (index + 1) fsh event
  | .ended => .ended

/-- The timer in whole sections that these threads are, up to the counts of calls.
The timer goes on from a wait only when a flag is raised. -/
structure Threads.Shows (s : Threads n) (t : Timer n) : Prop where
  time : t.time = s.time
  timerStop : t.timerStop = s.timerStop
  loc : t.loc = s.clock.timerLoc
  done : ∀ i, (t.device i).done = (s.id i).done
  fsh : ∀ i, (t.device i).fsh = (s.id i).fsh
  phase : ∀ i, (t.device i).phase = (s.loc i).phase
  raised : ∀ (i : Fin n) fsh event, s.clock = .collect i fsh event .countFsh →
    (s.id i).done = true ∨ (s.id i).fsh = true

theorem shows_initial : (Threads.initial n).Shows (Timer.initial n) :=
  ⟨rfl, rfl, rfl, fun _ => rfl, fun _ => rfl, fun _ => rfl, nofun⟩

section Refinement

variable {s s' : Threads n} {t : Timer n}

/-- A step within a section: the flags and what the sections see stay. -/
private theorem Threads.Shows.hidden (h : s.Shows t) (hTime : s'.time = s.time)
    (hStop : s'.timerStop = s.timerStop) (hClock : s'.clock.timerLoc = s.clock.timerLoc)
    (hFlags : ∀ i, (s'.id i).done = (s.id i).done ∧ (s'.id i).fsh = (s.id i).fsh)
    (hPhase : ∀ i, (s'.loc i).phase = (s.loc i).phase)
    (hRaised : ∀ (i : Fin n) fsh event, s'.clock = .collect i fsh event .countFsh →
      s.clock = .collect i fsh event .countFsh ∨ (s.id i).done = true ∨ (s.id i).fsh = true) :
    s'.Shows t where
  time := h.time.trans hTime.symm
  timerStop := h.timerStop.trans hStop.symm
  loc := h.loc.trans hClock.symm
  done i := (h.done i).trans (hFlags i).1.symm
  fsh i := (h.fsh i).trans (hFlags i).2.symm
  phase i := (h.phase i).trans (hPhase i).symm
  raised i fsh event hAt := by
    rw [(hFlags i).1, (hFlags i).2]
    cases hRaised i fsh event hAt with
    | inl hBefore => exact h.raised i fsh event hBefore
    | inr hReady => exact hReady

/-- Locks do not show. -/
private theorem flags_locks (s : Threads n) (i : Fin n) {id : TimerId}
    (hDone : id.done = (s.id i).done) (hFsh : id.fsh = (s.id i).fsh) (j : Fin n) :
    ((s.setId i id).id j).done = (s.id j).done ∧ ((s.setId i id).id j).fsh = (s.id j).fsh := by
  rw [id_setId]
  split_ifs with hSame
  · subst hSame
    exact ⟨hDone, hFsh⟩
  · exact ⟨rfl, rfl⟩

private theorem phase_setLoc (s : Threads n) (i : Fin n) {loc : DeviceLoc}
    (hPhase : loc.phase = (s.loc i).phase) (j : Fin n) :
    ((s.setLoc i loc).loc j).phase = (s.loc j).phase := by
  rw [loc_setLoc]
  split_ifs with hSame
  · subst hSame
    exact hPhase
  · rfl

/-- The timer takes a step within a section, which may change the lock of a device. -/
private theorem Threads.Shows.timer_hidden (h : s.Shows t) (i : Fin n) {clock : ClockLoc}
    {id : TimerId} (hClock : clock.timerLoc = s.clock.timerLoc)
    (hDone : id.done = (s.id i).done) (hFsh : id.fsh = (s.id i).fsh)
    (hNot : ∀ index fsh event, clock ≠ .collect index fsh event .countFsh) :
    ((s.setClock clock).setId i id).Shows t :=
  h.hidden rfl rfl hClock (flags_locks (s.setClock clock) i hDone hFsh) (fun _ => rfl)
    fun _ _ _ hAt => absurd hAt (hNot _ _ _)

/-- A device takes a step within a section, which may change its lock. -/
private theorem Threads.Shows.device_hidden (h : s.Shows t) (i : Fin n) {loc : DeviceLoc}
    {id : TimerId} (hPhase : loc.phase = (s.loc i).phase)
    (hDone : id.done = (s.id i).done) (hFsh : id.fsh = (s.id i).fsh) :
    ((s.setLoc i loc).setId i id).Shows t :=
  h.hidden rfl rfl rfl (flags_locks (s.setLoc i loc) i hDone hFsh) (phase_setLoc s i hPhase)
    fun _ _ _ hAt => Or.inl hAt

theorem timerLoc_signalled (clock : ClockLoc) (i : Nat) :
    (clock.signalled i).timerLoc = clock.timerLoc := by
  cases clock with
  | collect index fsh event next =>
      cases next with
      | asleep =>
          rw [ClockLoc.signalled]
          split_ifs <;> rfl
      | _ => rfl
  | _ => rfl

theorem phase_signalled (loc : DeviceLoc) : loc.signalled.phase = loc.phase := by
  cases loc <;> rfl

/-- Both sides change the same device. -/
private theorem Threads.Shows.setDevice (h : s.Shows t) (i : Fin n) {device : Device}
    {loc : TimerLoc} (hLoc : loc = s'.clock.timerLoc) (hTime : s'.time = s.time)
    (hStop : s'.timerStop = s.timerStop)
    (hId : ∀ j, j ≠ i → s'.id j = s.id j) (hLocs : ∀ j, j ≠ i → s'.loc j = s.loc j)
    (hDone : device.done = (s'.id i).done) (hFsh : device.fsh = (s'.id i).fsh)
    (hPhase : device.phase = (s'.loc i).phase)
    (hRaised : ∀ (j : Fin n) fsh event, s'.clock = .collect j fsh event .countFsh →
      s.clock = .collect j fsh event .countFsh ∧
        ((s.id i).done = true ∨ (s.id i).fsh = true →
          (s'.id i).done = true ∨ (s'.id i).fsh = true)) :
    s'.Shows ({ t with loc := loc }.setDevice i device) where
  time := h.time.trans hTime.symm
  timerStop := h.timerStop.trans hStop.symm
  loc := hLoc
  done j := by
    rw [device_setDevice]
    split_ifs with hSame
    · rw [hSame, hDone]
    · rw [hId j hSame]
      exact h.done j
  fsh j := by
    rw [device_setDevice]
    split_ifs with hSame
    · rw [hSame, hFsh]
    · rw [hId j hSame]
      exact h.fsh j
  phase j := by
    rw [device_setDevice]
    split_ifs with hSame
    · rw [hSame, hPhase]
    · rw [hLocs j hSame]
      exact h.phase j
  raised j fsh event hAt := by
    obtain ⟨hBefore, hUp⟩ := hRaised j fsh event hAt
    have hReady := h.raised j fsh event hBefore
    by_cases hSame : j = i
    · rw [hSame] at hReady ⊢
      exact hUp hReady
    · rw [hId j hSame]
      exact hReady

private theorem signalled_eq_countFsh {clock : ClockLoc} {i j fsh event : Nat}
    (h : clock.signalled i = .collect j fsh event .countFsh) :
    clock = .collect j fsh event .countFsh := by
  cases clock with
  | collect index fsh event next =>
      cases next with
      | asleep =>
          rw [ClockLoc.signalled] at h
          split_ifs at h <;> cases h
      | _ => exact h
  | _ => exact h

/-- The threads take the steps of the timer, one at the access to a flag in each section. -/
theorem Threads.Shows.step {actor : Actor n} {shown : Option (TimerCall n)} (h : s.Shows t)
    (step : ThreadStep s (actor, shown) s') :
    ∃ t', Runs TimerStep t shown.toList t' ∧ s'.Shows t' := by
  have hLocOf := h.loc
  cases step with
  | enter hLoc hRuns =>
      rw [hLoc] at hLocOf
      exact ⟨_, Runs.one (.enter hLocOf (h.timerStop.trans hRuns)),
        { h with loc := rfl, raised := nofun }⟩
  | exit hLoc hStops =>
      rw [hLoc] at hLocOf
      exact ⟨_, Runs.one (.exit hLocOf (h.timerStop.trans hStops)),
        { h with loc := rfl, raised := nofun }⟩
  | lockEvent i hLoc hFree =>
      exact ⟨t, Runs.nil, h.timer_hidden i (by rw [hLoc]; rfl) rfl rfl nofun⟩
  | flagsRaised i hLoc hReady =>
      refine ⟨t, Runs.nil, h.hidden rfl rfl (by rw [hLoc]; rfl) (fun _ => ⟨rfl, rfl⟩)
        (fun _ => rfl) fun j fsh event hAt => Or.inr ?_⟩
      obtain rfl : i = j := Fin.ext (ClockLoc.collect.inj hAt).1
      exact hReady
  | waitEvent i hLoc hClear =>
      exact ⟨t, Runs.nil, h.timer_hidden i (by rw [hLoc]; rfl) rfl rfl nofun⟩
  | relockEvent i hLoc hFree =>
      exact ⟨t, Runs.nil, h.timer_hidden i (by rw [hLoc]; rfl) rfl rfl nofun⟩
  | countFsh i hLoc =>
      rw [hLoc] at hLocOf
      have hReady := h.raised i _ _ hLoc
      rw [← h.done i, ← h.fsh i] at hReady
      refine ⟨_, Runs.one (.collect i hLocOf hReady), { h with loc := ?_, raised := nofun }⟩
      rw [h.fsh i]
      rfl
  | unlockEvent i hLoc =>
      exact ⟨t, Runs.nil, h.timer_hidden i (by rw [hLoc]; rfl) rfl rfl nofun⟩
  | advance hLoc =>
      rw [hLoc] at hLocOf
      exact ⟨_, Runs.one (.advance hLocOf),
        { h with time := congrArg (· + 1) h.time, loc := rfl, raised := nofun }⟩
  | lockTimer i hLoc hFree =>
      exact ⟨t, Runs.nil, h.timer_hidden i (by rw [hLoc]; rfl) rfl rfl nofun⟩
  | clearDone i hLoc =>
      rw [hLoc] at hLocOf
      refine ⟨_, Runs.one (.release i hLocOf), h.setDevice i rfl rfl rfl ?_ (fun _ _ => rfl) ?_ ?_
        (h.phase i) nofun⟩
      · intro j hOther
        rw [id_setId, if_neg hOther, id_setClock]
      · rw [id_setId, if_pos rfl]
      · rw [id_setId, if_pos rfl]
        exact h.fsh i
  | signalTimer i hLoc =>
      exact ⟨t, Runs.nil, h.hidden rfl rfl (by rw [hLoc]; rfl) (fun _ => ⟨rfl, rfl⟩)
        (phase_setLoc _ i (phase_signalled _)) nofun⟩
  | unlockTimer i hLoc =>
      exact ⟨t, Runs.nil, h.timer_hidden i (by rw [hLoc]; rfl) rfl rfl nofun⟩
  | finish hLoc =>
      rw [hLoc] at hLocOf
      refine ⟨_, Runs.one (.finish hLocOf), { h with loc := ?_, raised := ?_ }⟩
      · split_ifs <;> rfl
      · intro i fsh event hAt
        rw [clock_setClock] at hAt
        split_ifs at hAt
  | call i call hLoc =>
      exact ⟨t, Runs.nil, h.hidden rfl rfl rfl (fun _ => ⟨rfl, rfl⟩)
        (phase_setLoc s i (by rw [hLoc]; rfl)) fun _ _ _ hAt => Or.inl hAt⟩
  | deviceLocksEvent i call hLoc hFree =>
      exact ⟨t, Runs.nil, h.device_hidden i (by rw [hLoc]; rfl) rfl rfl⟩
  | setFlag i call hLoc =>
      have hPhase := h.phase i
      rw [hLoc] at hPhase
      have hOthers : ∀ j, j ≠ i →
          ((s.setLoc i (.signalEvent call)).setId i (call.raise (s.id i))).id j = s.id j := by
        intro j hOther
        rw [id_setId, if_neg hOther, id_setLoc]
      have hLocs : ∀ j, j ≠ i → (s.setLoc i (.signalEvent call)).loc j = s.loc j := by
        intro j hOther
        rw [loc_setLoc, if_neg hOther]
      cases call with
      | nextSlot =>
          refine ⟨_, Runs.one (.nextSlot i hPhase),
            h.setDevice i h.loc rfl rfl hOthers hLocs ?_ ?_ ?_ ?_⟩
          · simp [SlotCall.raise]
          · simp [SlotCall.raise, h.fsh i]
          · simp [DeviceLoc.phase]
          · intro j fsh event hAt
            exact ⟨hAt, fun _ => by simp [SlotCall.raise]⟩
      | detachEvent =>
          refine ⟨_, Runs.one (.detachEvent i hPhase),
            h.setDevice i h.loc rfl rfl hOthers hLocs ?_ ?_ ?_ ?_⟩
          · simp [SlotCall.raise, h.done i]
          · simp [SlotCall.raise]
          · simp [DeviceLoc.phase]
          · intro j fsh event hAt
            exact ⟨hAt, fun _ => by simp [SlotCall.raise]⟩
  | signalEvent i call hLoc =>
      refine ⟨t, Runs.nil, h.hidden rfl rfl (timerLoc_signalled _ _) (fun _ => ⟨rfl, rfl⟩)
        (phase_setLoc _ i ?_) fun j fsh event hAt => Or.inl ?_⟩
      · change _ = (s.loc i).phase
        rw [hLoc]
        cases call <;> rfl
      · exact signalled_eq_countFsh hAt
  | deviceUnlocksEvent i call hLoc =>
      refine ⟨t, Runs.nil, h.device_hidden i ?_ rfl rfl⟩
      rw [hLoc]
      cases call <;> rfl
  | deviceLocksTimer i hLoc hFree =>
      exact ⟨t, Runs.nil, h.device_hidden i (by rw [hLoc]; rfl) rfl rfl⟩
  | slotReturns i hLoc hDone =>
      have hPhase := h.phase i
      rw [hLoc] at hPhase
      refine ⟨_, Runs.one (.slotReturns i hPhase ((h.done i).trans hDone)),
        h.setDevice i h.loc rfl rfl (fun _ _ => rfl) ?_ (h.done i) (h.fsh i) ?_ ?_⟩
      · intro j hOther
        rw [loc_setLoc, if_neg hOther]
      · rw [loc_setLoc, if_pos rfl]
        rfl
      · exact fun _ _ _ hAt => ⟨hAt, fun hReady => hReady⟩
  | waitTimer i hLoc hDone =>
      exact ⟨t, Runs.nil, h.device_hidden i (by rw [hLoc]; rfl) rfl rfl⟩
  | relockTimer i hLoc hFree =>
      exact ⟨t, Runs.nil, h.device_hidden i (by rw [hLoc]; rfl) rfl rfl⟩
  | deviceUnlocksTimer i hLoc =>
      exact ⟨t, Runs.nil, h.device_hidden i (by rw [hLoc]; rfl) rfl rfl⟩
  | wakeTimer i hLoc =>
      exact ⟨t, Runs.nil, h.hidden rfl rfl (by rw [hLoc]; rfl) (fun _ => ⟨rfl, rfl⟩)
        (fun _ => rfl) nofun⟩
  | wakeDevice i hLoc =>
      exact ⟨t, Runs.nil, h.hidden rfl rfl rfl (fun _ => ⟨rfl, rfl⟩)
        (phase_setLoc s i (by rw [hLoc]; rfl)) fun _ _ _ hAt => Or.inl hAt⟩
  | stopTimer =>
      exact ⟨_, Runs.one .stopTimer, { h with timerStop := rfl }⟩

/-- The sections that the steps of the threads stand for. -/
def shownCalls (labels : List (Actor n × Option (TimerCall n))) : List (TimerCall n) :=
  labels.filterMap Prod.snd

/-- Every run of the threads is one of the timer in whole sections. -/
theorem shows_run {labels : List (Actor n × Option (TimerCall n))}
    (run : Runs ThreadStep (Threads.initial n) labels s) :
    ∃ t, Runs TimerStep (Timer.initial n) (shownCalls labels) t ∧ s.Shows t := by
  apply run.simulate_shown Prod.snd Threads.Shows shows_initial
  rintro s ⟨actor, shown⟩ s' t h step
  exact h.step step

/-- At the level of mutexes and condition variables, in every order of the steps and
with waits that end without a signal, the timer holds its devices in one slot. -/
theorem threads_inStep {labels : List (Actor n × Option (TimerCall n))}
    (run : Runs ThreadStep (Threads.initial n) labels s) :
    ∃ t, Runs TimerStep (Timer.initial n) (shownCalls labels) t ∧ s.Shows t ∧
      InStep (shownCalls labels) t := by
  obtain ⟨t, shown, hShows⟩ := shows_run run
  exact ⟨t, shown, hShows, timer_inStep shown⟩

end Refinement

section Example

/-- The steps in which the only device wakes the timer, which then counts it. -/
def wakingSteps : List (Actor 1 × Option (TimerCall 1)) :=
  [(.timer, some .timer), (.timer, none), (.timer, none), (.device 0, none), (.device 0, none),
    (.device 0, some (.nextSlot 0)), (.device 0, none), (.device 0, none), (.timer, none),
    (.timer, none), (.timer, some .timer)]

theorem wakingSteps_run : ∃ s, Runs ThreadStep (Threads.initial 1) wakingSteps s ∧
    s.clock = .collect 0 0 1 .unlockEvent ∧ s.loc 0 = .lockTimer :=
  ⟨_, Runs.cons (.enter rfl rfl) <| Runs.cons (.lockEvent 0 rfl rfl) <|
    Runs.cons (.waitEvent 0 rfl ⟨rfl, rfl⟩) <| Runs.cons (.call 0 .nextSlot rfl) <|
    Runs.cons (.deviceLocksEvent 0 .nextSlot rfl rfl) <|
    Runs.cons (.setFlag 0 .nextSlot rfl) <| Runs.cons (.signalEvent 0 .nextSlot rfl) <|
    Runs.cons (.deviceUnlocksEvent 0 .nextSlot rfl) <| Runs.cons (.relockEvent 0 rfl rfl) <|
    Runs.cons (.flagsRaised 0 rfl (Or.inl rfl)) <| Runs.one (.countFsh 0 rfl), rfl, rfl⟩

theorem threads_inStep_waking : ∃ (s : Threads 1) (t : Timer 1),
    Runs TimerStep (Timer.initial 1) (shownCalls wakingSteps) t ∧ s.Shows t ∧
      InStep (shownCalls wakingSteps) t := by
  obtain ⟨s, run, -⟩ := wakingSteps_run
  exact ⟨s, threads_inStep run⟩

end Example

end Btlos
