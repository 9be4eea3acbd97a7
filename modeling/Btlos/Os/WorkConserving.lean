import Btlos.Os.Arrivals
import Btlos.Os.Attended
import Btlos.Os.Rounds
import Btlos.Os.Turns

/-! No CPU goes without work in a slot while a process that could be run waits, unless that
process is handed in too late for the slot: CPUs look for work only once in a slot. As
everywhere over `OsMove`, calls of the scheduler do not overlap. -/
namespace Btlos

open Transition

variable {n : Nat} {Mem : Type*} {cfg : Config} {startTime : ProcId → UInt64}
  {execute : ProcId → Inst → Mem → Int → Mem → Prop}

/-! The slots and who was run in them -/

/-- The turns that a process has had. -/
def Clocked.turns (s : Clocked n Mem) (proc : ProcId) : Nat :=
  s.ran.countP fun r => r.proc == proc

/-- The turns that it had before a slot. -/
def Clocked.turnsBefore (s : Clocked n Mem) (slot : Nat) (proc : ProcId) : Nat :=
  s.ran.countP fun r => r.proc == proc && decide (r.slot < slot)

/-- In the slot every CPU has run a process, or every process that had been handed in before
and had turns left has been run, or a process has been handed in. -/
def Clocked.WellUsed (cfg : Config) (s : Clocked n Mem) (slot : Nat) : Prop :=
  (∀ c, ∃ r ∈ s.ran, r.cpu = c ∧ r.slot = slot) ∨ slot ∈ s.arrivals ∨
    ∀ proc arrival, s.arrivals[proc]? = some arrival → arrival < slot →
      s.turnsBefore slot proc < cfg.work proc → ∃ r ∈ s.ran, r.proc = proc ∧ r.slot = slot

/-- The CPU is through with its part of the round. -/
def Clocked.Through (s : Clocked n Mem) (round : Nat) (c : Fin n) : Prop :=
  s.due (cpuEvent c) = true ∨
    (s.timer.device (cpuEvent c)).phase = .waiting ∧ s.slot (cpuEvent c) = round

/-- The CPU has found no process in this round, or has stopped. -/
def Clocked.Idle (s : Clocked n Mem) (round : Nat) (c : Fin n) : Prop :=
  (s.os.cpu c).proc = none ∧
    ((s.os.cpu c).loc = .recheck ∨ (s.os.cpu c).loc = .stopped ∨ s.Through round c)

/-- What every run preserves. -/
structure Clocked.Conserving (cfg : Config) (s : Clocked n Mem) (round : Nat) : Prop where
  owned : s.os.Owned cfg
  inRound : s.timer.InRound round
  slots : ∀ party, s.slot party ≤ round
  bounded : ∀ r ∈ s.ran, r.slot ≤ round
  consistent : s.os.Consistent
  counts : s.os.CountsTurns cfg s.turns
  keeps : s.os.KeepsAll cfg
  place : ∀ c, ¬ s.Works (cpuEvent c) → (s.os.cpu c).loc = .check ∨ (s.os.cpu c).loc = .stopped
  notDue : ∀ c, (s.timer.device (cpuEvent c)).phase ≠ .working → s.due (cpuEvent c) = false
  gone : ∀ c, (s.timer.device (cpuEvent c)).phase = .detached → (s.os.cpu c).loc = .stopped
  left : (s.timer.device ldEvent).phase = .detached → s.os.loader = .stopped
  length : s.arrivals.length = s.os.index
  increasing : s.arrivals.Pairwise (· < ·)
  arrivals : ∀ slot ∈ s.arrivals, s.Behind ldEvent slot
  finished : s.os.done = true → ∀ slot ∈ s.arrivals, slot < round
  used : ∀ c proc, s.Through round c → (s.os.cpu c).proc = some proc →
    ∃ r ∈ s.ran, r.cpu = c ∧ r.proc = proc ∧ r.slot = round
  stopped : ∀ c, (s.os.cpu c).loc = .stopped →
    (s.os.cpu c).proc = none ∧ s.due (cpuEvent c) = false ∧ s.os.done = true ∧ s.os.Attended
  idle : ∀ c, s.Idle round c → round ∈ s.arrivals ∨ s.os.Attended
  wellUsed : ∀ slot < round, s.WellUsed cfg slot

theorem conserving_initial (cfg : Config) (mem : Mem) :
    (Clocked.initial mem : Clocked n Mem).Conserving cfg 0 where
  owned := owned_initial cfg mem
  inRound := inRound_initial
  slots := fun _ => Nat.le_refl 0
  bounded := fun _ hRan => by cases hRan
  consistent := consistent_initial mem
  counts := countsTurns_initial cfg mem
  keeps := keepsAll_initial cfg mem
  place := fun _ _ => Or.inl rfl
  notDue := fun _ _ => rfl
  gone := fun _ hPhase => by cases hPhase
  left := fun hPhase => by cases hPhase
  length := rfl
  increasing := List.Pairwise.nil
  arrivals := fun _ hSlot => by cases hSlot
  finished := fun hDone => by cases hDone
  used := fun _ _ _ hProc => by cases hProc
  stopped := fun _ hLoc => by cases hLoc
  idle := by
    rintro c ⟨-, hLoc | hLoc | hDue | ⟨hPhase, -⟩⟩
    · cases hLoc
    · cases hLoc
    · cases hDue
    · cases hPhase
  wellUsed := fun _ hSlot => absurd hSlot (Nat.not_lt_zero _)

section Step

variable {s t : Clocked n Mem} {round slot : Nat} {proc : ProcId}

/-- What was true of an earlier slot stays true. -/
private theorem Clocked.WellUsed.mono {ran : List (Ran n)} {arrivals : List Nat}
    (h : s.WellUsed cfg slot) (hRan : t.ran = s.ran ++ ran)
    (hArrivals : t.arrivals = s.arrivals ++ arrivals)
    (hLater : ∀ r ∈ ran, slot < r.slot) (hNew : ∀ arrival ∈ arrivals, slot < arrival) :
    t.WellUsed cfg slot := by
  have hKept : ∀ r ∈ s.ran, r ∈ t.ran := fun r hr => hRan ▸ List.mem_append_left ran hr
  rcases h with hAll | hArrival | hOld
  · left
    intro c
    obtain ⟨r, hr, hHere⟩ := hAll c
    exact ⟨r, hKept r hr, hHere⟩
  · exact Or.inr (Or.inl (hArrivals ▸ List.mem_append_left arrivals hArrival))
  · right
    right
    intro proc arrival hArrival hBefore hTurns
    have hThere : s.arrivals[proc]? = some arrival := by
      by_cases hProc : proc < s.arrivals.length
      · rwa [hArrivals, List.getElem?_append_left hProc] at hArrival
      · rw [hArrivals, List.getElem?_append_right (Nat.le_of_not_lt hProc)] at hArrival
        exact absurd (hNew arrival (List.mem_of_getElem? hArrival)) hBefore.not_gt
    have hSame : t.turnsBefore slot proc = s.turnsBefore slot proc := by
      rw [Clocked.turnsBefore, Clocked.turnsBefore, hRan, List.countP_append, Nat.add_eq_left,
        List.countP_eq_zero]
      intro r hr
      have hSlot := hLater r hr
      simp [Nat.le_of_lt hSlot]
    rw [hSame] at hTurns
    obtain ⟨r, hr, hHere⟩ := hOld proc arrival hThere hBefore hTurns
    exact ⟨r, hKept r hr, hHere⟩

/-- The turns up to the end of the round, of a process that is not run in it. -/
private theorem turnsBefore_eq (hBounded : ∀ r ∈ s.ran, r.slot ≤ round)
    (hNot : ¬ ∃ r ∈ s.ran, r.proc = proc ∧ r.slot = round) :
    s.turnsBefore round proc = s.turns proc := by
  apply List.countP_congr
  intro r hr
  have hLe := hBounded r hr
  by_cases hProc : r.proc = proc
  · have hSlot : r.slot ≠ round := fun hSlot => hNot ⟨r, hr, hProc, hSlot⟩
    simp [hProc, Nat.lt_of_le_of_ne hLe hSlot]
  · simp [hProc]

/-- Nobody waits when no CPU is about to take a process. -/
theorem Os.Attended.empty {os : Os (Fin n) Mem} (hAttended : os.Attended)
    (hLoc : ∀ c, (os.cpu c).loc = .stopped ∨ (os.cpu c).loc = .check) : os.mlq.readyProcs = 0 := by
  have hNone : os.fetching = ∅ := by
    apply Finset.filter_eq_empty_iff.mpr
    intro c _
    rcases hLoc c with hStopped | hCheck
    · simp [Cpu.fetches, hStopped]
    · simp [Cpu.fetches, hCheck]
  rw [Os.Attended, hNone, Finset.card_empty] at hAttended
  exact Multiset.card_eq_zero.mp (Nat.le_zero.mp hAttended)

private theorem not_works_of_end {party : Fin (n + 1)}
    (hEnd : (s.timer.device party).phase = .detached ∨ (s.timer.device party).Held (round + 1)) :
    ¬ s.Works party := by
  rintro ⟨hPhase, -⟩
  rcases hEnd with hDetached | hHeld
  · rw [hPhase] at hDetached
    cases hDetached
  · rw [Device.Held, hPhase] at hHeld
    cases hHeld.1

/-- The round that comes to its end. -/
private theorem Clocked.Conserving.wellUsed_round (h : s.Conserving cfg round)
    (hEnd : ∀ c, (s.timer.device (cpuEvent c)).phase = .detached ∨
      (s.timer.device (cpuEvent c)).Held (round + 1)) : s.WellUsed cfg round := by
  have hNotWorks : ∀ c, ¬ s.Works (cpuEvent c) := fun c => not_works_of_end (hEnd c)
  have hThrough : ∀ c, (s.os.cpu c).loc = .stopped ∨
      (s.os.cpu c).loc = .check ∧ s.Through round c := by
    intro c
    rcases hEnd c with hDetached | ⟨hPhase, -, -, hReturned⟩
    · exact Or.inl (h.gone c hDetached)
    · rcases h.place c (hNotWorks c) with hLoc | hLoc
      · exact Or.inr ⟨hLoc, Or.inr ⟨hPhase, Nat.succ.inj hReturned⟩⟩
      · exact Or.inl hLoc
  by_cases hAll : ∀ c, ∃ r ∈ s.ran, r.cpu = c ∧ r.slot = round
  · exact Or.inl hAll
  -- A CPU that has run nothing has found nothing, so that nobody waits at the end.
  obtain ⟨c, hNotRun⟩ := not_forall.mp hAll
  have hProc : (s.os.cpu c).proc = none := by
    rcases hThrough c with hLoc | ⟨-, hHere⟩
    · exact (h.stopped c hLoc).1
    · cases hProc : (s.os.cpu c).proc with
      | none => rfl
      | some proc =>
          obtain ⟨r, hr, hCpu, -, hSlot⟩ := h.used c proc hHere hProc
          exact absurd ⟨r, hr, hCpu, hSlot⟩ hNotRun
  have hIdle : s.Idle round c := ⟨hProc, Or.inr ((hThrough c).imp id And.right)⟩
  rcases h.idle c hIdle with hArrival | hAttended
  · exact Or.inr (Or.inl hArrival)
  have hEmpty := hAttended.empty fun c => (hThrough c).imp id And.left
  right
  right
  intro proc arrival hArrival _ hTurns
  by_contra hNot
  rw [turnsBefore_eq h.bounded hNot] at hTurns
  obtain ⟨hIndex, -⟩ := List.getElem?_eq_some_iff.mp hArrival
  rw [h.length] at hIndex
  rcases h.keeps.place proc hIndex with hFreed | hQueued | ⟨c', hHolds⟩
  · exact hTurns.ne (h.counts.freed proc hFreed)
  · rw [hEmpty] at hQueued
    exact Multiset.notMem_zero proc hQueued
  · rcases hThrough c' with hLoc | ⟨hLoc, hHere⟩
    · rw [Os.holds, Cpu.holds_of_loc (by simp [hLoc]), (h.stopped c' hLoc).1] at hHolds
      cases hHolds
    · rw [Os.holds, Cpu.holds_of_loc (by simp [hLoc])] at hHolds
      obtain ⟨r, hr, -, hRun⟩ := h.used c' proc hHere hHolds
      exact hNot ⟨r, hr, hRun⟩

/-- What a step of the timer system within the round leaves to a CPU. -/
structure CpuKept (s : Clocked n Mem) (timer : Timer (n + 1)) (due : Fin (n + 1) → Bool)
    (round : Nat) (c : Fin n) : Prop where
  place : ¬ ({ s with timer := timer, due := due } : Clocked n Mem).Works (cpuEvent c) →
    ¬ s.Works (cpuEvent c) ∨ (s.os.cpu c).loc = .stopped
  notDue : (timer.device (cpuEvent c)).phase ≠ .working → due (cpuEvent c) = false
  gone : (timer.device (cpuEvent c)).phase = .detached → (s.os.cpu c).loc = .stopped
  staysNotDue : s.due (cpuEvent c) = false → due (cpuEvent c) = false
  through : ({ s with timer := timer, due := due } : Clocked n Mem).Through round c →
    s.Through round c

private theorem Clocked.Conserving.timer {label : TimerCall (n + 1)} {timer : Timer (n + 1)}
    {due : Fin (n + 1) → Bool} (h : s.Conserving cfg round) (step : TimerStep s.timer label timer)
    (hTime : timer.time = s.timer.time)
    (hDue : (timer.device ldEvent).phase = .working → due ldEvent = s.due ldEvent)
    (hLeft : label = .detachEvent ldEvent → s.os.loader = .stopped)
    (hCpu : ∀ c, CpuKept s timer due round c) :
    ({ s with timer := timer, due := due } : Clocked n Mem).Conserving cfg round where
  owned := h.owned
  inRound := h.inRound.same step hTime
  slots := by
    intro party
    rcases returned_step step party with ⟨hSame, -⟩ | ⟨rfl, -⟩
    · exact hSame.trans_le (h.slots party)
    · apply Nat.le_of_eq
      apply (h.inRound.same step hTime).returned_of_working
      cases step with
      | slotReturns => simp
  bounded := h.bounded
  consistent := h.consistent
  counts := h.counts
  keeps := h.keeps
  place := fun c hNot => ((hCpu c).place hNot).elim (h.place c) Or.inr
  notDue := fun c => (hCpu c).notDue
  gone := fun c => (hCpu c).gone
  left := by
    intro hPhase
    by_cases hLabel : label = .detachEvent ldEvent
    · exact hLeft hLabel
    · exact h.left (step.detached hLabel hPhase)
  length := h.length
  increasing := h.increasing
  arrivals := fun slot hSlot => (h.arrivals slot hSlot).timer step hDue
  finished := h.finished
  used := fun c proc hHere => h.used c proc ((hCpu c).through hHere)
  stopped := by
    intro c hLoc
    obtain ⟨hProc, hNot, hRest⟩ := h.stopped c hLoc
    exact ⟨hProc, (hCpu c).staysNotDue hNot, hRest⟩
  idle := fun c hIdle => h.idle c ⟨hIdle.1, hIdle.2.imp id (Or.imp id (hCpu c).through)⟩
  wellUsed := h.wellUsed

/-- The timer goes on to the next round. -/
private theorem Clocked.Conserving.opens {timer : Timer (n + 1)} {label : TimerCall (n + 1)}
    (h : s.Conserving cfg round) (step : TimerStep s.timer label timer)
    (hTime : timer.time ≠ s.timer.time) :
    ({ s with timer := timer } : Clocked n Mem).Conserving cfg (round + 1) := by
  obtain ⟨hInRound, hDevice, hEnd⟩ := h.inRound.opens step hTime
  have hOpen : ∀ c, ¬ ({ s with timer := timer } : Clocked n Mem).Through (round + 1) c := by
    rintro c (hDue | ⟨hPhase, hSlot⟩)
    · have hNot : s.due (cpuEvent c) = false := by
        apply h.notDue c
        rcases hEnd (cpuEvent c) with hDetached | ⟨hWaiting, -⟩
        · simp [hDetached]
        · simp [hWaiting]
      cases hNot.symm.trans hDue
    · change (timer.device (cpuEvent c)).phase = .waiting at hPhase
      change (timer.device (cpuEvent c)).returned = round + 1 at hSlot
      rw [hDevice] at hPhase hSlot
      rcases hEnd (cpuEvent c) with hDetached | ⟨-, -, -, hReturned⟩
      · rw [hDetached] at hPhase
        cases hPhase
      · omega
  have hWorks : ∀ party,
      ({ s with timer := timer } : Clocked n Mem).Works party ↔ s.Works party := by
    intro party
    rw [Clocked.Works, Clocked.Works, hDevice]
  have hSlot : ∀ party, ({ s with timer := timer } : Clocked n Mem).slot party = s.slot party := by
    intro party
    rw [Clocked.slot, Clocked.slot, hDevice]
  exact
    { owned := h.owned
      inRound := hInRound
      slots := fun party => (hSlot party).trans_le (Nat.le_succ_of_le (h.slots party))
      bounded := fun r hr => Nat.le_succ_of_le (h.bounded r hr)
      consistent := h.consistent
      counts := h.counts
      keeps := h.keeps
      place := fun c hNot => h.place c (mt (hWorks _).mpr hNot)
      notDue := fun c hPhase => h.notDue c (hDevice ▸ hPhase)
      gone := fun c hPhase => h.gone c (hDevice ▸ hPhase)
      left := fun hPhase => h.left (hDevice ▸ hPhase)
      length := h.length
      increasing := h.increasing
      arrivals := by
        intro slot hArrival
        rw [Clocked.Behind, hSlot, hWorks]
        exact h.arrivals slot hArrival
      finished := fun hDone slot hArrival => Nat.lt_succ_of_lt (h.finished hDone slot hArrival)
      used := fun c _ hHere => absurd hHere (hOpen c)
      stopped := h.stopped
      idle := by
        rintro c ⟨hProc, hLoc | hLoc | hHere⟩
        · rcases h.place c (not_works_of_end (hEnd (cpuEvent c))) with hCheck | hStopped
          · rw [hCheck] at hLoc
            cases hLoc
          · exact Or.inr (h.stopped c hStopped).2.2.2
        · exact Or.inr (h.stopped c hLoc).2.2.2
        · exact absurd hHere (hOpen c)
      wellUsed := by
        intro slot hBefore
        rcases Nat.lt_succ_iff_lt_or_eq.mp hBefore with hOld | rfl
        · exact h.wellUsed slot hOld
        · exact h.wellUsed_round fun c => hEnd (cpuEvent c) }

section Os

variable {call : OsCall (Fin n)} {os : Os (Fin n) Mem}

private theorem turns_moved :
    (s.moved call os).turns = call.turnsAfter s.turns := by
  funext proc
  cases call with
  | run c running =>
      change (s.ran ++ [_]).countP _ = Function.update s.turns running (s.turns running + 1) proc
      rw [List.countP_append, List.countP_singleton]
      by_cases hSame : proc = running
      · subst hSame
        rw [Function.update_self, if_pos (beq_self_eq_true proc)]
        rfl
      · rw [Function.update_of_ne hSame, if_neg (by simp [Ne.symm hSame])]
        rfl
  | compute | free | putProc | getProc | load | addProc | finish => rfl

/-- What a step of the loader or a CPU adds to the records of the round. -/
structure Recorded (s : Clocked n Mem) (call : OsCall (Fin n)) (os : Os (Fin n) Mem)
    (round : Nat) (ran : List (Ran n)) (arrivals : List Nat) : Prop where
  ran_eq : (s.moved call os).ran = s.ran ++ ran
  ranNow : ∀ r ∈ ran, r.slot = round
  arrivals_eq : (s.moved call os).arrivals = s.arrivals ++ arrivals
  arrivalsNow : arrivals = [] ∧ (∀ proc, call ≠ .addProc proc) ∧ os.index = s.os.index ∨
    arrivals = [round] ∧ (∃ proc, call = .addProc proc) ∧ os.index = s.os.index + 1

private theorem recorded_move (hSlot : s.slot call.event = round)
    (hMove : OsMove cfg execute s.os call os) :
    ∃ ran arrivals, Recorded s call os round ran arrivals := by
  have hRan : ∃ ran, s.recordRan call = s.ran ++ ran ∧ ∀ r ∈ ran, r.slot = round := by
    cases call with
    | run c proc =>
        refine ⟨[⟨c, proc, s.slot (cpuEvent c)⟩], rfl, fun r hr => ?_⟩
        rw [List.mem_singleton.mp hr]
        exact hSlot
    | compute | free | putProc | getProc | load | addProc | finish =>
        exact ⟨[], (List.append_nil _).symm, fun r hr => absurd hr List.not_mem_nil⟩
  obtain ⟨ran, hRan, hNow⟩ := hRan
  rcases hMove.adds with ⟨⟨proc, rfl⟩, -, hIndex⟩ | ⟨hNot, hIndex⟩
  · exact ⟨ran, [round], hRan, hNow, hSlot ▸ rfl, Or.inr ⟨rfl, ⟨proc, rfl⟩, hIndex⟩⟩
  · refine ⟨ran, [], hRan, hNow, ?_, Or.inl ⟨rfl, hNot, hIndex⟩⟩
    rw [List.append_nil]
    cases call with
    | addProc proc => exact absurd rfl (hNot proc)
    | compute | free | putProc | getProc | run | load | finish => rfl

private theorem due_moved {c : Fin n} (os : Os (Fin n) Mem)
    (hCpu : call.event = cpuEvent c) :
    (s.moved call os).due (cpuEvent c) = ((os.cpu c).loc == .check) := by
  change Function.update s.due call.event (call.dueAfter os) (cpuEvent c) = _
  rw [hCpu, Function.update_self]
  cases call with
  | compute other | free other | putProc other | getProc other | run other =>
      obtain rfl := cpuEvent_injective hCpu
      rfl
  | load | addProc | finish => exact absurd hCpu.symm (cpuEvent_ne_ldEvent c)

/-- A CPU that takes no step is where it was. -/
private theorem cpu_other {c : Fin n} (hMove : OsMove cfg execute s.os call os)
    (hNot : call.event ≠ cpuEvent c) :
    os.cpu c = s.os.cpu c ∧ (s.moved call os).due (cpuEvent c) = s.due (cpuEvent c) :=
  ⟨hMove.others hNot, Function.update_of_ne (Ne.symm hNot) _ _⟩

private theorem through_other {c : Fin n} (hMove : OsMove cfg execute s.os call os)
    (hNot : call.event ≠ cpuEvent c) (hHere : (s.moved call os).Through round c) :
    s.Through round c := by
  rwa [Clocked.Through, (cpu_other hMove hNot).2] at hHere

/-- A CPU that is through after its own step is back at the head of its loop. -/
private theorem through_own {c : Fin n} (hWorks : s.Works call.event)
    (hCpu : call.event = cpuEvent c) (hHere : (s.moved call os).Through round c) :
    (os.cpu c).loc = .check := by
  rcases hHere with hDue | ⟨hPhase, -⟩
  · rw [due_moved os hCpu] at hDue
    exact beq_iff_eq.mp hDue
  · have hWorking : (s.timer.device (cpuEvent c)).phase = .working := hCpu ▸ hWorks.1
    cases hWorking.symm.trans hPhase

/-- Once the loader is done, nothing is handed in. -/
private theorem Clocked.Conserving.notAdded (h : s.Conserving cfg round)
    (hMove : OsMove cfg execute s.os call os) (hDone : s.os.done = true) :
    ∀ proc, call ≠ .addProc proc := by
  intro proc hCall
  rcases hMove.adds with ⟨-, hLoc, -⟩ | ⟨hNot, -⟩
  · rw [h.consistent.loader hDone] at hLoc
    cases hLoc
  · exact hNot proc hCall

/-! What a step of the loader or a CPU preserves -/

private theorem Clocked.Conserving.place_os (h : s.Conserving cfg round)
    (hWorks : s.Works call.event) (hMove : OsMove cfg execute s.os call os) (c : Fin n)
    (hNot : ¬ (s.moved call os).Works (cpuEvent c)) :
    (os.cpu c).loc = .check ∨ (os.cpu c).loc = .stopped := by
  by_cases hCpu : call.event = cpuEvent c
  · left
    rw [← beq_iff_eq, ← due_moved (s := s) os hCpu, ← Bool.not_eq_false]
    exact fun hDue => hNot ⟨hCpu ▸ hWorks.1, hDue⟩
  · obtain ⟨hSame, hDue⟩ := cpu_other hMove hCpu
    rw [hSame]
    exact h.place c fun hBefore => hNot ⟨hBefore.1, hDue.trans hBefore.2⟩

private theorem Clocked.Conserving.arrivals_os (h : s.Conserving cfg round)
    (hWorks : s.Works call.event) (hMove : OsMove cfg execute s.os call os) {slot : Nat}
    (hArrival : slot ∈ (s.moved call os).arrivals) : (s.moved call os).Behind ldEvent slot := by
  rcases hMove.adds with ⟨⟨proc, rfl⟩, -⟩ | ⟨hNot, -⟩
  · rcases List.mem_append.mp hArrival with hOld | hHere
    · exact (h.arrivals slot hOld).os hWorks os
    · rw [List.mem_singleton.mp hHere]
      refine ⟨le_rfl, ?_⟩
      rintro ⟨-, hDue⟩
      simp [Clocked.moved, OsCall.event, OsCall.dueAfter] at hDue
  · cases call with
    | addProc proc => exact absurd rfl (hNot proc)
    | compute | free | putProc | getProc | run | load | finish =>
        exact (h.arrivals slot hArrival).os hWorks os

private theorem Clocked.Conserving.increasing_os (h : s.Conserving cfg round)
    {ran : List (Ran n)} {arrivals : List Nat} (hWorks : s.Works call.event)
    (hSlot : s.slot call.event = round) (hNew : Recorded s call os round ran arrivals) :
    (s.moved call os).arrivals.Pairwise (· < ·) := by
  rw [hNew.arrivals_eq]
  rcases hNew.arrivalsNow with ⟨rfl, -⟩ | ⟨rfl, ⟨proc, rfl⟩, -⟩
  · rw [List.append_nil]
    exact h.increasing
  · apply List.pairwise_append.mpr ⟨h.increasing, List.pairwise_singleton _ _, ?_⟩
    intro slot hOld now hNow
    rw [List.mem_singleton.mp hNow, ← hSlot]
    exact (h.arrivals slot hOld).2 hWorks

private theorem Clocked.Conserving.finished_os (h : s.Conserving cfg round)
    {ran : List (Ran n)} {arrivals : List Nat} (hWorks : s.Works call.event)
    (hSlot : s.slot call.event = round) (hMove : OsMove cfg execute s.os call os)
    (hNew : Recorded s call os round ran arrivals) (hDone : os.done = true) {slot : Nat}
    (hArrival : slot ∈ (s.moved call os).arrivals) : slot < round := by
  rw [hNew.arrivals_eq] at hArrival
  rcases hMove.done_eq hDone with hBefore | ⟨hLoader, hNot⟩
  · rcases hNew.arrivalsNow with ⟨rfl, -⟩ | ⟨-, ⟨proc, hCall⟩, -⟩
    · rw [List.append_nil] at hArrival
      exact h.finished hBefore slot hArrival
    · exact absurd hCall (h.notAdded hMove hBefore proc)
  · rcases hNew.arrivalsNow with ⟨rfl, -⟩ | ⟨-, ⟨proc, hCall⟩, -⟩
    · rw [List.append_nil] at hArrival
      rw [← hSlot]
      rw [hLoader] at hWorks ⊢
      exact (h.arrivals slot hArrival).2 hWorks
    · exact absurd hCall (hNot proc)

private theorem Clocked.Conserving.used_os (h : s.Conserving cfg round) {ran : List (Ran n)}
    {arrivals : List Nat} (hWorks : s.Works call.event) (hSlot : s.slot call.event = round)
    (hMove : OsMove cfg execute s.os call os) (hNew : Recorded s call os round ran arrivals)
    (c : Fin n) (hHere : (s.moved call os).Through round c) (hProc : (os.cpu c).proc = some proc) :
    ∃ r ∈ (s.moved call os).ran, r.cpu = c ∧ r.proc = proc ∧ r.slot = round := by
  by_cases hCpu : call.event = cpuEvent c
  · obtain rfl := hMove.ends hCpu (through_own hWorks hCpu hHere) hProc
    refine ⟨⟨c, proc, s.slot (cpuEvent c)⟩, ?_, rfl, rfl, hSlot⟩
    exact List.mem_append_right s.ran (List.mem_singleton.mpr rfl)
  · rw [(cpu_other hMove hCpu).1] at hProc
    obtain ⟨r, hr, hRun⟩ := h.used c proc (through_other hMove hCpu hHere) hProc
    exact ⟨r, hNew.ran_eq ▸ List.mem_append_left ran hr, hRun⟩

private theorem Clocked.Conserving.stopped_os (h : s.Conserving cfg round)
    (hMove : OsMove cfg execute s.os call os) (c : Fin n) (hLoc : (os.cpu c).loc = .stopped) :
    (os.cpu c).proc = none ∧ (s.moved call os).due (cpuEvent c) = false ∧ os.done = true ∧
      os.Attended := by
  have hStill : s.os.done = true → s.os.Attended → os.Attended := fun hDone hAttended =>
    hAttended.move h.owned.slots hMove (h.notAdded hMove hDone)
  by_cases hCpu : call.event = cpuEvent c
  · obtain ⟨hProc, hRecheck, hDone, hNone⟩ := hMove.stops hCpu hLoc
    refine ⟨hNone, ?_, hMove.done_mono hDone, ?_⟩
    · rw [due_moved os hCpu, hLoc]
      rfl
    · rcases h.idle c ⟨hProc, Or.inl hRecheck⟩ with hArrival | hAttended
      · exact absurd (h.finished hDone round hArrival) (lt_irrefl round)
      · exact hStill hDone hAttended
  · obtain ⟨hSame, hDue⟩ := cpu_other hMove hCpu
    rw [hSame] at hLoc ⊢
    obtain ⟨hNone, hNotDue, hDone, hAttended⟩ := h.stopped c hLoc
    exact ⟨hNone, hDue.trans hNotDue, hMove.done_mono hDone, hStill hDone hAttended⟩

private theorem Clocked.Conserving.idle_os (h : s.Conserving cfg round) {ran : List (Ran n)}
    {arrivals : List Nat} (hWorks : s.Works call.event)
    (hMove : OsMove cfg execute s.os call os) (hNew : Recorded s call os round ran arrivals)
    (c : Fin n) (hIdle : (s.moved call os).Idle round c) :
    round ∈ (s.moved call os).arrivals ∨ os.Attended := by
  rw [hNew.arrivals_eq]
  rcases hNew.arrivalsNow with ⟨-, hNot, -⟩ | ⟨rfl, -⟩
  · have hBefore : s.Idle round c → round ∈ s.arrivals ++ arrivals ∨ os.Attended := fun hIdle =>
      (h.idle c hIdle).imp (List.mem_append_left arrivals) fun hAttended =>
        hAttended.move h.owned.slots hMove hNot
    by_cases hCpu : call.event = cpuEvent c
    · have hLoc : (os.cpu c).fetches = false := by
        rcases hIdle.2 with hLoc | hLoc | hHere
        · exact congrArg (fun loc => Cpu.fetches ⟨loc, none, 0⟩) hLoc
        · exact congrArg (fun loc => Cpu.fetches ⟨loc, none, 0⟩) hLoc
        · exact congrArg (fun loc => Cpu.fetches ⟨loc, none, 0⟩) (through_own hWorks hCpu hHere)
      rcases hMove.idles h.owned.slots hCpu hIdle.1 hLoc with ⟨hProc, hRecheck⟩ | hAttended
      · exact hBefore ⟨hProc, Or.inl hRecheck⟩
      · exact Or.inr hAttended
    · obtain ⟨hProc, hLoc⟩ := hIdle
      change (os.cpu c).proc = none at hProc
      change (os.cpu c).loc = .recheck ∨ (os.cpu c).loc = .stopped ∨ _ at hLoc
      rw [(cpu_other hMove hCpu).1] at hProc hLoc
      exact hBefore ⟨hProc, hLoc.imp id (Or.imp id (through_other hMove hCpu))⟩
  · exact Or.inl (List.mem_append_right s.arrivals (List.mem_singleton.mpr rfl))

private theorem Clocked.Conserving.wellUsed_os (h : s.Conserving cfg round) {ran : List (Ran n)}
    {arrivals : List Nat} (hNew : Recorded s call os round ran arrivals) {slot : Nat}
    (hBefore : slot < round) : (s.moved call os).WellUsed cfg slot := by
  apply (h.wellUsed slot hBefore).mono hNew.ran_eq hNew.arrivals_eq
  · intro r hr
    rw [hNew.ranNow r hr]
    exact hBefore
  · intro arrival hArrival
    rcases hNew.arrivalsNow with ⟨rfl, -⟩ | ⟨rfl, -⟩
    · cases hArrival
    · rw [List.mem_singleton.mp hArrival]
      exact hBefore

/-- A step of the loader or a CPU. -/
private theorem Clocked.Conserving.move (hFits : cfg.QueuesFit) (h : s.Conserving cfg round)
    (hWorks : s.Works call.event) (step : OsStep cfg execute s.os call os) :
    (s.moved call os).Conserving cfg round := by
  have hMove := step.2
  have hSlot : s.slot call.event = round := h.inRound.returned_of_working hWorks.1
  obtain ⟨ran, arrivals, hNew⟩ := recorded_move hSlot hMove
  -- The party that takes the step is outside next_slot.
  have hAway : ∀ party, (s.timer.device party).phase ≠ .working → call.event ≠ party :=
    fun _ hPhase hCall => hPhase (hCall ▸ hWorks.1)
  have hGone : ∀ party, (s.timer.device party).phase = .detached → call.event ≠ party := by
    intro party hPhase
    apply hAway party
    rw [hPhase]
    simp
  exact
    { owned := owned_step h.owned step
      inRound := h.inRound
      slots := h.slots
      bounded := by
        intro r hr
        rw [hNew.ran_eq] at hr
        rcases List.mem_append.mp hr with hOld | hHere
        · exact h.bounded r hOld
        · exact (hNew.ranNow r hHere).le
      consistent := consistent_step h.owned h.consistent step
      counts := by
        rw [turns_moved]
        exact countsTurns_step h.owned h.counts step
      keeps := keepsAll_step hFits h.owned h.keeps step
      place := h.place_os hWorks hMove
      notDue := fun c hPhase => (cpu_other hMove (hAway _ hPhase)).2.trans (h.notDue c hPhase)
      gone := by
        intro c hPhase
        have hCpu := (cpu_other hMove (hGone (cpuEvent c) hPhase)).1
        exact (congrArg Cpu.loc hCpu).trans (h.gone c hPhase)
      left := fun hPhase => (hMove.loader (hGone ldEvent hPhase)).1.trans (h.left hPhase)
      length := by
        rw [hNew.arrivals_eq, List.length_append, h.length]
        rcases hNew.arrivalsNow with ⟨rfl, -, hIndex⟩ | ⟨rfl, -, hIndex⟩
        · exact hIndex.symm
        · exact hIndex.symm
      increasing := h.increasing_os hWorks hSlot hNew
      arrivals := fun _ => h.arrivals_os hWorks hMove
      finished := fun hDone _ => h.finished_os hWorks hSlot hMove hNew hDone
      used := fun c _ => h.used_os hWorks hSlot hMove hNew c
      stopped := h.stopped_os hMove
      idle := h.idle_os hWorks hMove hNew
      wellUsed := fun _ => h.wellUsed_os hNew }

end Os

/-- A step of the timer system that is not one of the CPU. -/
private theorem cpuKept_other {label : TimerCall (n + 1)} {timer : Timer (n + 1)}
    {due : Fin (n + 1) → Bool} {c : Fin n} (h : s.Conserving cfg round)
    (step : TimerStep s.timer label timer) (hCall : label ≠ .nextSlot (cpuEvent c))
    (hReturn : label ≠ .slotReturns (cpuEvent c)) (hDetach : label ≠ .detachEvent (cpuEvent c))
    (hDue : due (cpuEvent c) = s.due (cpuEvent c)) : CpuKept s timer due round c := by
  obtain ⟨hPhase, hReturned⟩ := device_step step (cpuEvent c) hCall hReturn hDetach
  constructor
  · intro hNot
    left
    rintro ⟨hWorking, hNotDue⟩
    exact hNot ⟨hPhase.trans hWorking, hDue.trans hNotDue⟩
  · intro hAway
    rw [hPhase] at hAway
    exact hDue.trans (h.notDue c hAway)
  · intro hDetached
    exact h.gone c (hPhase.symm.trans hDetached)
  · exact hDue.trans
  · rintro (hTrue | ⟨hWaiting, hSlot⟩)
    · exact Or.inl (hDue.symm.trans hTrue)
    · exact Or.inr ⟨hPhase.symm.trans hWaiting, hReturned.symm.trans hSlot⟩

private theorem cpuKept_nextSlot {timer : Timer (n + 1)} {c : Fin n}
    (hIsDue : s.due (cpuEvent c) = true) (step : TimerStep s.timer (.nextSlot (cpuEvent c)) timer) :
    CpuKept s timer (Function.update s.due (cpuEvent c) false) round c := by
  have hDue : Function.update s.due (cpuEvent c) false (cpuEvent c) = false :=
    Function.update_self _ _ _
  have hWaits : (timer.device (cpuEvent c)).phase = .waiting := by
    cases step with
    | nextSlot => simp
  constructor
  · intro _
    left
    rintro ⟨-, hNot⟩
    cases hIsDue.symm.trans hNot
  · exact fun _ => hDue
  · intro hDetached
    cases hWaits.symm.trans hDetached
  · exact fun _ => hDue
  · exact fun _ => Or.inl hIsDue

private theorem cpuKept_slotReturns {timer : Timer (n + 1)} {c : Fin n}
    (h : s.Conserving cfg round) (step : TimerStep s.timer (.slotReturns (cpuEvent c)) timer) :
    CpuKept s timer s.due round c := by
  obtain ⟨hBefore, hWorks⟩ : (s.timer.device (cpuEvent c)).phase = .waiting ∧
      (timer.device (cpuEvent c)).phase = .working := by
    cases step with
    | slotReturns _ hPhase => exact ⟨hPhase, by simp⟩
  have hDue : s.due (cpuEvent c) = false := h.notDue c (by simp [hBefore])
  constructor
  · exact fun hNot => absurd ⟨hWorks, hDue⟩ hNot
  · exact fun _ => hDue
  · intro hDetached
    cases hWorks.symm.trans hDetached
  · exact id
  · rintro (hTrue | ⟨hWaiting, -⟩)
    · exact Or.inl hTrue
    · cases hWorks.symm.trans hWaiting

private theorem cpuKept_detachEvent {timer : Timer (n + 1)} {c : Fin n}
    (h : s.Conserving cfg round) (hLoc : (s.os.cpu c).loc = .stopped)
    (step : TimerStep s.timer (.detachEvent (cpuEvent c)) timer) :
    CpuKept s timer s.due round c := by
  have hGone : (timer.device (cpuEvent c)).phase = .detached := by
    cases step with
    | detachEvent => simp
  constructor
  · exact fun _ => Or.inr hLoc
  · exact fun _ => (h.stopped c hLoc).2.1
  · exact fun _ => hLoc
  · exact id
  · rintro (hTrue | ⟨hWaiting, -⟩)
    · exact Or.inl hTrue
    · cases hGone.symm.trans hWaiting

theorem Clocked.Conserving.step {call : ClockedCall n} (hFits : cfg.QueuesFit)
    (h : s.Conserving cfg round) (step : ClockedStep cfg startTime execute s call t) :
    ∃ round', t.Conserving cfg round' := by
  obtain ⟨hExited, move⟩ := step
  cases move with
  | os hWorks hStart hMove => exact ⟨round, h.move hFits hWorks ⟨hExited, hMove⟩⟩
  | @nextSlot timer party hDue hStep =>
      refine ⟨round, h.timer hStep (hStep.time_eq (by simp)) ?_ (fun hCall => by cases hCall)
        fun c => ?_⟩
      · intro hPhase
        apply Function.update_of_ne
        rintro rfl
        cases hStep with
        | nextSlot => simp at hPhase
      · by_cases hParty : party = cpuEvent c
        · subst hParty
          rcases hDue with hIsDue | ⟨hLoader, -⟩
          · exact cpuKept_nextSlot hIsDue hStep
          · exact absurd hLoader (cpuEvent_ne_ldEvent c)
        · exact cpuKept_other h hStep (by simpa using hParty) (by simp) (by simp)
            (Function.update_of_ne (Ne.symm hParty) _ _)
  | @slotReturns timer party hStep =>
      refine ⟨round, h.timer hStep (hStep.time_eq (by simp)) (fun _ => rfl)
        (fun hCall => by cases hCall) fun c => ?_⟩
      by_cases hParty : party = cpuEvent c
      · subst hParty
        exact cpuKept_slotReturns h hStep
      · exact cpuKept_other h hStep (by simp) (by simpa using hParty) (by simp) rfl
  | @timer timer hStep =>
      by_cases hTime : timer.time = s.timer.time
      · exact ⟨round, h.timer hStep hTime (fun _ => rfl) (fun hCall => by cases hCall) fun c =>
          cpuKept_other h hStep (by simp) (by simp) (by simp) rfl⟩
      · exact ⟨round + 1, h.opens hStep hTime⟩
  | @detachEvent timer party hStopped hStep =>
      refine ⟨round, h.timer hStep (hStep.time_eq (by simp)) (fun _ => rfl) ?_ fun c => ?_⟩
      · intro hCall
        obtain rfl := TimerCall.detachEvent.inj hCall
        rcases hStopped with ⟨-, hLoader⟩ | ⟨c, hCpu, -⟩
        · exact hLoader
        · exact absurd hCpu.symm (cpuEvent_ne_ldEvent c)
      by_cases hParty : party = cpuEvent c
      · subst hParty
        rcases hStopped with ⟨hLoader, -⟩ | ⟨other, hSame, hLoc⟩
        · exact absurd hLoader (cpuEvent_ne_ldEvent c)
        · obtain rfl := cpuEvent_injective hSame
          exact cpuKept_detachEvent h hLoc hStep
      · exact cpuKept_other h hStep (by simp) (by simp) (by simpa using hParty) rfl
  | @stopTimer timer hJoined hStep =>
      exact ⟨round, h.timer hStep (hStep.time_eq (by simp)) (fun _ => rfl)
        (fun hCall => by cases hCall) fun c =>
          cpuKept_other h hStep (by simp) (by simp) (by simp) rfl⟩

theorem conserving_run {mem : Mem} {labels : List (ClockedCall n)} (hFits : cfg.QueuesFit)
    (run : Runs (ClockedStep cfg startTime execute) (Clocked.initial mem) labels s) :
    ∃ round, s.Conserving cfg round := by
  apply run.invariant (fun s => ∃ round, s.Conserving cfg round) ⟨0, conserving_initial cfg mem⟩
  rintro s label t ⟨round, h⟩ step
  exact h.step hFits step

end Step

/-- In every slot that is over for anybody, all CPUs have run a process, or no process that
could have been run has been left out, or a new process has come. -/
theorem wellUsed_run {mem : Mem} {labels : List (ClockedCall n)} {s : Clocked n Mem}
    (run : Runs (ClockedStep cfg startTime execute) (Clocked.initial mem) labels s)
    (hFits : cfg.QueuesFit) {party : Fin (n + 1)} {slot : Nat} (hOver : slot < s.slot party) :
    s.WellUsed cfg slot := by
  obtain ⟨round, h⟩ := conserving_run hFits run
  exact h.wellUsed slot (hOver.trans_le (h.slots party))

theorem queuesFit_twoAtOnce : twoAtOnce.QueuesFit where
  prio := fun _ _ => Nat.zero_lt_succ 139
  room := by
    intro level
    apply (Finset.card_filter_le _ _).trans_lt
    rw [Finset.card_range]
    decide

theorem wellUsed_run_two : ∃ s : Clocked 1 Nat, 0 < s.slot ldEvent ∧ s.WellUsed twoAtOnce 0 := by
  obtain ⟨s, run, -, -, hSlot⟩ := twoSlots_run
  have hOver : 0 < s.slot ldEvent := by
    rw [hSlot]
    exact Nat.zero_lt_one
  exact ⟨s, hOver, wellUsed_run run queuesFit_twoAtOnce hOver⟩

end Btlos
