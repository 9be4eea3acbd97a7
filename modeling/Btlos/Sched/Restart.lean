import Btlos.Os.Cpu
import Btlos.Sched.Policy

/-! What `init_scheduler` leaves of earlier calls. It empties the queues and resets
their slots, but the next search starts at the priority where the last one stopped. -/
namespace Btlos

open Transition TimeShare

private theorem maxQueueSize_pos : 0 < maxQueueSize := by decide

private theorem maxPrio_pos : 0 < maxPrio := by decide

private theorem filled_none {Proc : Type*} :
    ∀ i < 0, ((fun _ => none : Nat → Option Proc) i).isSome :=
  fun _ h => absurd h (Nat.not_lt_zero _)

/-- The static variables at the start of the program. -/
def Mlq.static {Proc : Type*} : Mlq Proc where
  mlqReadyQueue := fun _ => ⟨fun _ => none, 0, 0, maxQueueSize_pos, filled_none⟩
  currentPrio := ⟨0, maxPrio_pos⟩

/-- The calls whose results show what is in the queues. -/
inductive ReadyCall (Proc : Type*) where
  | mlq (call : MlqCall Proc)
  | queueEmpty (result : Int)

/-- All calls of the scheduler. The mutex is no part of the state. -/
inductive SchedCall (Proc : Type*) where
  | ready (call : ReadyCall Proc)
  | initScheduler
  | finishScheduler

variable {Proc : Type*}

inductive ReadyStep (prio : Proc → Nat) : Mlq Proc → ReadyCall Proc → Mlq Proc → Prop where
  | mlq {m t : Mlq Proc} {call : MlqCall Proc} (step : MlqStep prio m call t) :
      ReadyStep prio m (.mlq call) t
  | queueEmpty (m : Mlq Proc) : ReadyStep prio m (.queueEmpty (Btlos.queueEmpty m)) m

inductive SchedStep (prio : Proc → Nat) : Mlq Proc → SchedCall Proc → Mlq Proc → Prop where
  | ready {m t : Mlq Proc} {call : ReadyCall Proc} (step : ReadyStep prio m call t) :
      SchedStep prio m (.ready call) t
  | initScheduler (m : Mlq Proc) : SchedStep prio m .initScheduler (Btlos.initScheduler m)
  | finishScheduler (m : Mlq Proc) : SchedStep prio m .finishScheduler m

/-- From here and from the start of the program, the same calls have the same results
once the scheduler has been initialised. -/
def ForgetsPast (prio : Proc → Nat) (m : Mlq Proc) : Prop :=
  ∀ calls, (∃ t, Runs (ReadyStep prio) (initScheduler m) calls t) ↔
    ∃ t, Runs (ReadyStep prio) (initScheduler Mlq.static) calls t

/-- The processes that `get_proc` has returned. -/
def returned (past : List (SchedCall Proc)) : List Proc :=
  past.filterMap fun call => match call with
    | .ready (.mlq (.getProc result)) => result
    | _ => none

variable {prio : Proc → Nat} {m m' t : Mlq Proc}

/-! Schedulers that nothing but stale pointers tells apart -/

private theorem joins?_congr (h : m.waiting = m'.waiting) (proc : Proc) :
    m.joins? prio proc = m'.joins? prio proc := by
  rw [Mlq.joins?, Mlq.joins?, h]

private theorem queueEmpty_congr (h : m.waiting = m'.waiting) : queueEmpty m = queueEmpty m' := by
  have hEmpty : ∀ m : Mlq Proc,
      ((List.finRange maxPrio).any fun level => !empty (m.mlqReadyQueue level)) = true ↔
        ∃ level, m.waiting level ≠ [] := by
    intro m
    simp [← empty_iff, Mlq.waiting]
  rw [queueEmpty, queueEmpty]
  congr 1
  rw [eq_iff_iff, hEmpty, hEmpty, h]

theorem ready_putMlqProc (h : m.ready = m'.ready) (proc : Proc) :
    (putMlqProc prio m proc).ready = (putMlqProc prio m' proc).ready := by
  obtain ⟨hWaiting, hSlots, hCurrent⟩ := Ready.mk.inj h
  rw [Mlq.ready, Mlq.ready, waiting_putMlqProc, waiting_putMlqProc, joins?_congr hWaiting, hWaiting,
    slots_putMlqProc, slots_putMlqProc, hSlots, currentPrio_putMlqProc, currentPrio_putMlqProc,
    hCurrent]

/-- A call has the same result on both, and they stay alike. -/
theorem ReadyStep.alike {call : ReadyCall Proc} (h : m.ready = m'.ready) (hSlots : m.SlotsBounded)
    (step : ReadyStep prio m call t) :
    ∃ t', ReadyStep prio m' call t' ∧ t.ready = t'.ready ∧ t.SlotsBounded := by
  have hSlots' : m'.SlotsBounded := by
    intro level
    have := hSlots level
    rwa [congrFun (Ready.mk.inj h).2.1 level] at this
  cases step with
  | queueEmpty =>
      rw [queueEmpty_congr (Ready.mk.inj h).1]
      exact ⟨m', .queueEmpty m', h, hSlots⟩
  | mlq step =>
      have hBounded := slotsBounded_step hSlots step
      cases step with
      | addProc proc => exact ⟨_, .mlq (.addProc m' proc), ready_putMlqProc h proc, hBounded⟩
      | putProc proc => exact ⟨_, .mlq (.putProc m' proc), ready_putMlqProc h proc, hBounded⟩
      | getProc fuel hGet =>
          obtain ⟨result, t', hReturns, hPolicy⟩ := getProc_returns hSlots'
          rw [← h] at hPolicy
          obtain ⟨rfl, hReady⟩ := (getProc_get hSlots hGet).unique hPolicy
          exact ⟨t', .mlq (.getProc _ (hReturns _ le_rfl)), hReady, hBounded⟩

theorem readyRuns_alike {calls : List (ReadyCall Proc)} (h : m.ready = m'.ready)
    (hSlots : m.SlotsBounded) (run : Runs (ReadyStep prio) m calls t) :
    ∃ t', Runs (ReadyStep prio) m' calls t' ∧ t.ready = t'.ready ∧ t.SlotsBounded := by
  apply run.simulate (fun t (t' : Mlq Proc) => t.ready = t'.ready ∧ t.SlotsBounded) ⟨h, hSlots⟩
  intro s call t s' hAlike step
  exact step.alike hAlike.1 hAlike.2

/-! After `init_scheduler` -/

theorem ready_initScheduler (m : Mlq Proc) :
    (initScheduler m).ready = ⟨fun _ => [], fun _ => 0, m.currentPrio⟩ := rfl

theorem slotsBounded_initScheduler (m : Mlq Proc) : (initScheduler m).SlotsBounded :=
  fun _ => Nat.zero_le _

/-- Where the search stands at priority 0, nothing is left of the past. -/
theorem forgetsPast_of_zero (h : m.currentPrio = 0) : ForgetsPast prio m := by
  have hReady : (initScheduler m).ready = (initScheduler (Mlq.static : Mlq Proc)).ready := by
    rw [ready_initScheduler, ready_initScheduler, h]
    rfl
  intro calls
  constructor
  · rintro ⟨t, run⟩
    obtain ⟨t', run', -⟩ := readyRuns_alike hReady (slotsBounded_initScheduler _) run
    exact ⟨t', run'⟩
  · rintro ⟨t, run⟩
    obtain ⟨t', run', -⟩ := readyRuns_alike hReady.symm (slotsBounded_initScheduler _) run
    exact ⟨t', run'⟩

/-- A process that waits at the priority where the search stands is the next one. -/
private theorem getProc_at_current (hSlots : m.SlotsBounded) {result : Option Proc} {proc : Proc}
    {fuel : Nat} (hWaiting : m.waiting m.currentPrio = [proc])
    (hUsed : m.slots m.currentPrio < quota m.currentPrio)
    (hGet : getProc fuel m = some (result, t)) : result = some proc := by
  have hNext : Get quota m.ready (some proc) (m.ready.serve m.currentPrio m.slots) := by
    apply Get.go le_rfl ⟨?_, hUsed⟩ (fun other hOther _ => hOther)
    · exact congrArg List.head? hWaiting
    · change m.waiting m.currentPrio ≠ []
      rw [hWaiting]
      exact List.cons_ne_nil _ _
  exact ((getProc_get hSlots hGet).unique hNext).1

/-- Two processes of different priority that join empty queues wait alone in theirs. -/
private theorem waiting_two {level level' : Fin maxPrio} (hLevels : level ≠ level')
    {proc proc' : Proc} (hProc : prio proc = level) (hProc' : prio proc' = level')
    (hEmpty : ∀ other, m.waiting other = []) :
    (addProc prio (addProc prio m proc) proc').waiting level = [proc] ∧
      (addProc prio (addProc prio m proc) proc').waiting level' = [proc'] := by
  have hRoom : ([] : List Proc).length < maxQueueSize - 1 := by simp
  have hFirst : m.joins? prio proc = some level :=
    joins?_eq_some.mpr ⟨hProc, by rw [hEmpty]; exact hRoom⟩
  have hMiddle : (addProc prio m proc).waiting = Function.update m.waiting level [proc] := by
    rw [addProc, addMlqProc_eq, waiting_putMlqProc, hFirst]
    simp only [hEmpty, List.nil_append]
  have hStill : (addProc prio m proc).waiting level' = [] := by
    rw [hMiddle, Function.update_of_ne hLevels.symm, hEmpty]
  have hSecond : (addProc prio m proc).joins? prio proc' = some level' :=
    joins?_eq_some.mpr ⟨hProc', by rw [hStill]; exact hRoom⟩
  rw [addProc, addMlqProc_eq, waiting_putMlqProc, hSecond]
  simp only [hStill, List.nil_append]
  rw [Function.update_of_ne hLevels, hMiddle, Function.update_self, Function.update_self]
  exact ⟨rfl, rfl⟩

/-- After `init_scheduler`, with one process of priority 0 and one of another level. -/
private def afterTwo (prio : Proc → Nat) (m : Mlq Proc) (first here : Proc) : Mlq Proc :=
  addProc prio (addProc prio (initScheduler m) first) here

private theorem afterTwo_run (m : Mlq Proc) (first here : Proc) :
    Runs (ReadyStep prio) (initScheduler m) [.mlq (.addProc first), .mlq (.addProc here)]
      (afterTwo prio m first here) :=
  Runs.snoc (Runs.one (.mlq (.addProc _ first))) (.mlq (.addProc _ here))

/-- Those two calls lead to no other state. -/
private theorem afterTwo_unique {first here : Proc}
    (run : Runs (ReadyStep prio) (initScheduler m)
      ([.mlq (.addProc first)] ++ [.mlq (.addProc here)]) t) : t = afterTwo prio m first here := by
  obtain ⟨middle, prior, last⟩ := run.of_concat
  have hFirst : Runs (ReadyStep prio) (initScheduler m) ([] ++ [.mlq (.addProc first)]) middle :=
    prior
  obtain ⟨start, before, step⟩ := hFirst.of_concat
  obtain rfl := before.eq_of_nil
  cases step with
  | mlq step =>
      cases step
      cases last with
      | mlq last =>
          cases last
          rfl

/-- The process that is returned then is the one that waits where the search stands. -/
private theorem getProc_afterTwo {first here proc : Proc} {result : Option Proc} {fuel : Nat}
    (hWaiting : (afterTwo prio m first here).waiting m.currentPrio = [proc])
    (hGet : getProc fuel (afterTwo prio m first here) = some (result, t)) :
    result = some proc := by
  have hCurrent : (afterTwo prio m first here).currentPrio = m.currentPrio := by
    rw [afterTwo, addProc, addMlqProc_eq, currentPrio_putMlqProc, addProc, addMlqProc_eq,
      currentPrio_putMlqProc]
    rfl
  have hSlots : (afterTwo prio m first here).slots m.currentPrio < quota m.currentPrio := by
    rw [afterTwo, addProc, addMlqProc_eq, slots_putMlqProc, addProc, addMlqProc_eq,
      slots_putMlqProc]
    have := m.currentPrio.isLt
    change 0 < maxPrio - (m.currentPrio : Nat)
    omega
  rw [← hCurrent] at hWaiting hSlots
  exact getProc_at_current (((slotsBounded_initScheduler m).put prio first).put prio here)
    hWaiting hSlots hGet

/-- Elsewhere, two processes tell the difference: of one with priority 0 and one with
the priority where the search stands, the second comes first. -/
theorem not_forgetsPast_of_ne (hEvery : ∀ level : Fin maxPrio, ∃ proc, prio proc = level)
    (h : m.currentPrio ≠ 0) : ¬ ForgetsPast prio m := by
  intro hForgets
  obtain ⟨first, hFirst⟩ := hEvery 0
  obtain ⟨here, hHere⟩ := hEvery m.currentPrio
  have hWaiting := fun m' : Mlq Proc =>
    waiting_two h.symm hFirst hHere (m := initScheduler m') fun _ => rfl
  obtain ⟨result, t, hReturns, -⟩ := getProc_returns (m := afterTwo prio m first here)
    (((slotsBounded_initScheduler m).put prio first).put prio here)
  have hGet := hReturns _ le_rfl
  obtain rfl : result = some here := getProc_afterTwo (hWaiting m).2 hGet
  -- in a fresh program the same calls would have to have this result too
  obtain ⟨t', run⟩ := (hForgets _).mp ⟨t, (afterTwo_run m first here).snoc (.mlq (.getProc _ hGet))⟩
  obtain ⟨middle, prior, last⟩ := run.of_concat
  obtain rfl := afterTwo_unique prior
  cases last with
  | mlq last =>
      cases last with
      | getProc fuel hFresh =>
          have hSame : here = first :=
            Option.some.inj (getProc_afterTwo (m := Mlq.static) (hWaiting Mlq.static).1 hFresh)
          have hZero : (m.currentPrio : Nat) = 0 := by
            rw [← hHere, hSame, hFirst]
            rfl
          exact h (Fin.ext hZero)

/-! Where the search stands -/

theorem returned_concat (past : List (SchedCall Proc)) (call : SchedCall Proc) :
    returned (past ++ [call]) = returned past ++ returned [call] := by
  simp [returned]

/-- The search stands at the priority of the process that was returned last. -/
structure StandsAtLast (prio : Proc → Nat) (past : List (SchedCall Proc)) (m : Mlq Proc) :
    Prop where
  slots : m.SlotsBounded
  level : ∀ level proc, proc ∈ m.waiting level → prio proc = level
  current : (m.currentPrio : Nat) = ((returned past).getLast?.map prio).getD 0

/-- The search stops at a queue that the process it returns was waiting in, and adds
nobody to a queue. -/
private theorem get_current {r r' : Ready (Fin maxPrio) Proc} {proc : Proc}
    (h : Get quota r (some proc) r') : proc ∈ r.waiting r'.current ∧
      ∀ level other, other ∈ r'.waiting level → other ∈ r.waiting level := by
  have hServe : ∀ level slots, (r.waiting level).head? = some proc →
      proc ∈ r.waiting (r.serve level slots).current ∧
        ∀ level' other, other ∈ (r.serve level slots).waiting level' →
          other ∈ r.waiting level' := by
    intro level slots hHead
    refine ⟨List.mem_of_mem_head? hHead, fun level' other hOther => ?_⟩
    change other ∈ Function.update r.waiting level (r.waiting level).tail level' at hOther
    by_cases hLevel : level' = level
    · subst hLevel
      rw [Function.update_self] at hOther
      exact List.mem_of_mem_tail hOther
    · rwa [Function.update_of_ne hLevel] at hOther
  cases h with
  | go _ _ _ hHead => exact hServe _ _ hHead
  | wrap _ _ hHead => exact hServe _ _ hHead

theorem StandsAtLast.put {past : List (SchedCall Proc)} (h : StandsAtLast prio past m)
    (proc : Proc) : StandsAtLast prio past (putMlqProc prio m proc) := by
  refine ⟨h.slots.put prio proc, fun level other hOther => ?_, ?_⟩
  · rw [waiting_putMlqProc] at hOther
    cases hJoins : m.joins? prio proc with
    | none =>
        rw [hJoins] at hOther
        exact h.level level other hOther
    | some joined =>
        rw [hJoins] at hOther
        by_cases hLevel : level = joined
        · subst hLevel
          simp only [Function.update_self, List.mem_append, List.mem_singleton] at hOther
          rcases hOther with hOld | rfl
          · exact h.level level other hOld
          · exact (joins?_eq_some.mp hJoins).1
        · simp only [Function.update_of_ne hLevel] at hOther
          exact h.level level other hOther
  · rw [currentPrio_putMlqProc]
    exact h.current

theorem StandsAtLast.get {past : List (SchedCall Proc)} (h : StandsAtLast prio past m)
    {fuel : Nat} {result : Option Proc} (hGet : getProc fuel m = some (result, t)) :
    StandsAtLast prio (past ++ [.ready (.mlq (.getProc result))]) t := by
  have hPolicy := getProc_get h.slots hGet
  have hSlots := h.slots.get hGet
  cases result with
  | none =>
      obtain ⟨hWaiting, -, hCurrent⟩ := Ready.mk.inj hPolicy.none_eq
      refine ⟨hSlots, fun level proc hProc => h.level level proc (hWaiting ▸ hProc), ?_⟩
      rw [returned_concat, hCurrent, h.current]
      simp [returned]
  | some proc =>
      obtain ⟨hWaited, hOthers⟩ := get_current hPolicy
      refine ⟨hSlots, fun level other hOther => h.level level other (hOthers level other hOther),
        ?_⟩
      rw [returned_concat]
      simpa [returned] using (h.level t.currentPrio proc hWaited).symm

theorem StandsAtLast.step {past : List (SchedCall Proc)} {call : SchedCall Proc}
    (h : StandsAtLast prio past m) (step : SchedStep prio m call t) :
    StandsAtLast prio (past ++ [call]) t := by
  -- calls other than get_proc return no process
  have hSame : ∀ {t : Mlq Proc}, returned [call] = [] → StandsAtLast prio past t →
      StandsAtLast prio (past ++ [call]) t := by
    intro t hNone hStands
    refine ⟨hStands.slots, hStands.level, ?_⟩
    rw [returned_concat, hNone, List.append_nil]
    exact hStands.current
  cases step with
  | finishScheduler => exact hSame rfl h
  | initScheduler =>
      refine hSame rfl ⟨slotsBounded_initScheduler m, fun level proc hProc => ?_, h.current⟩
      exact absurd hProc List.not_mem_nil
  | ready step =>
      cases step with
      | queueEmpty => exact hSame rfl h
      | mlq step =>
          cases step with
          | addProc proc => exact hSame rfl (h.put proc)
          | putProc proc => exact hSame rfl (h.put proc)
          | getProc fuel hGet => exact h.get hGet

/-- In every run from the start of the program the search stands at the priority of
the process that was returned last. -/
theorem standsAtLast_run {past : List (SchedCall Proc)}
    (run : Runs (SchedStep prio) Mlq.static past m) : StandsAtLast prio past m := by
  induction run with
  | nil =>
      refine ⟨fun _ => Nat.zero_le _, fun level proc hProc => ?_, rfl⟩
      exact absurd hProc List.not_mem_nil
  | snoc prior last ih => exact ih.step last

/-- After a sequence of calls, `init_scheduler` makes a fresh scheduler exactly when
the process that was returned last, if there was one, has priority 0. -/
theorem forgetsPast_iff {past : List (SchedCall Pcb)} {m : Mlq Pcb}
    (run : Runs (SchedStep Pcb.prio) Mlq.static past m) :
    ForgetsPast Pcb.prio m ↔ ∀ proc, (returned past).getLast? = some proc → proc.prio = 0 := by
  have hCurrent := (standsAtLast_run run).current
  have hZero : m.currentPrio = 0 ↔
      ∀ proc, (returned past).getLast? = some proc → proc.prio = 0 := by
    rw [Fin.ext_iff, hCurrent]
    cases (returned past).getLast? with
    | none => simp
    | some proc => simp
  rw [← hZero]
  constructor
  · intro hForgets
    by_contra hNe
    exact not_forgetsPast_of_ne (fun level => ⟨⟨[], 0, level⟩, rfl⟩) hNe hForgets
  · exact forgetsPast_of_zero

/-- A process of priority 0 is handed in and returned. -/
theorem forgetsPast_zero : ∃ m,
    Runs (SchedStep Pcb.prio) Mlq.static
      [.ready (.mlq (.addProc ⟨[], 0, 0⟩)), .ready (.mlq (.getProc (some ⟨[], 0, 0⟩)))] m ∧
    ForgetsPast Pcb.prio m := by
  have hRun : Runs (SchedStep Pcb.prio) Mlq.static
      [.ready (.mlq (.addProc ⟨[], 0, 0⟩)), .ready (.mlq (.getProc (some ⟨[], 0, 0⟩)))] _ :=
    Runs.snoc (Runs.one (.ready (.mlq (.addProc _ _)))) (.ready (.mlq (.getProc 1 rfl)))
  exact ⟨_, hRun, (forgetsPast_iff hRun).mpr (by simp [returned])⟩

/-- After a process of priority 5 has been returned, the search goes on from there. -/
theorem past_remembered : ∃ m,
    Runs (SchedStep Pcb.prio) Mlq.static
      [.ready (.mlq (.addProc ⟨[], 0, 5⟩)), .ready (.mlq (.getProc (some ⟨[], 0, 5⟩)))] m ∧
    ¬ ForgetsPast Pcb.prio m := by
  have hRun : Runs (SchedStep Pcb.prio) Mlq.static
      [.ready (.mlq (.addProc ⟨[], 0, 5⟩)), .ready (.mlq (.getProc (some ⟨[], 0, 5⟩)))] _ :=
    Runs.snoc (Runs.one (.ready (.mlq (.addProc _ _)))) (.ready (.mlq (.getProc 6 rfl)))
  refine ⟨_, hRun, not_forgetsPast_of_ne (fun level => ⟨⟨[], 0, level⟩, rfl⟩) ?_⟩
  have hCurrent := (standsAtLast_run hRun).current
  intro hZero
  rw [hZero] at hCurrent
  simp [returned] at hCurrent

end Btlos
