import Btlos.Sched.Policy

/-! `get_mlq_proc` with several callers. Only the section that takes a process is
under the lock; the test of all queues and the tests of the current one come before
it. A step is one of these tests, one section under the lock, or a whole call of
`put_proc` or `add_proc`. -/
namespace Btlos

open Transition

/-- Where a CPU stands in `get_mlq_proc`: outside, in the loop, or before the lock
with the queue that it has chosen. -/
inductive GetLoc where
  | idle
  | search
  | take (priorityQueue : Fin maxPrio)
deriving DecidableEq

/-- The queues and the CPUs. `sawEmpty` tells of each CPU whether all queues have
been empty at some moment since its call began, and has no effect. -/
structure Concurrent (CpuId Pcb : Type*) where
  mlq : Mlq Pcb
  loc : CpuId → GetLoc
  sawEmpty : CpuId → Bool

variable {CpuId Pcb : Type*}

def Concurrent.initial : Concurrent CpuId Pcb := ⟨Mlq.initial, fun _ => .idle, fun _ => false⟩

/-- One round of the `while (1)` up to the lock. -/
def getRound (m : Mlq Pcb) : Mlq Pcb × GetLoc :=
  let designatedSlots := maxPrio - m.currentPrio
  let priorityQueue := m.mlqReadyQueue m.currentPrio
  if priorityQueue.size ≠ 0 then
    if priorityQueue.slots = designatedSlots then (nextQueue m, .search)
    else (m, .take m.currentPrio)
  else (nextQueue m, .search)

/-- The section under the lock. By now the current priority may be another one. -/
def getTake (m : Mlq Pcb) (prio : Fin maxPrio) : Option Pcb × Mlq Pcb :=
  let (proc, priorityQueue) := dequeue (m.mlqReadyQueue prio)
  (proc, m.setQueue prio { priorityQueue with slots := priorityQueue.slots + 1 })

/-- One step of `get_mlq_proc`, with its result when it returns. -/
def getStep (m : Mlq Pcb) : GetLoc → Mlq Pcb × GetLoc × Option (Option Pcb)
  | .idle => if queueEmpty m = 1 then (m, .idle, some none) else (m, .search, none)
  | .search => ((getRound m).1, (getRound m).2, none)
  | .take prio => ((getTake m prio).2, .idle, some (getTake m prio).1)

/-- The queues are as `m` now, also for the calls that are in progress. -/
def Concurrent.change (s : Concurrent CpuId Pcb) (m : Mlq Pcb) : Concurrent CpuId Pcb :=
  { s with mlq := m, sawEmpty := fun c => s.sawEmpty c || queueEmpty m == 1 }

variable [DecidableEq CpuId]

/-- The CPU begins a call. -/
def Concurrent.begin (s : Concurrent CpuId Pcb) (c : CpuId) : Concurrent CpuId Pcb :=
  if s.loc c = .idle then { s with sawEmpty := Function.update s.sawEmpty c false } else s

/-- The next step of a CPU in `get_proc`. -/
def Concurrent.getProc (s : Concurrent CpuId Pcb) (c : CpuId) :
    Concurrent CpuId Pcb × Option (Option Pcb) :=
  let (m, loc, result) := getStep s.mlq (s.loc c)
  ({ (s.begin c).change m with loc := Function.update s.loc c loc }, result)

/-- The steps as an observer sees them; `result` is there when the call returns. -/
inductive ConcurrentCall (CpuId Pcb : Type*) where
  | getProc (cpu : CpuId) (result : Option (Option Pcb))
  | putProc (cpu : CpuId) (proc : Pcb)
  | addProc (proc : Pcb)

inductive ConcurrentStep (prio : Pcb → Nat) :
    Concurrent CpuId Pcb → ConcurrentCall CpuId Pcb → Concurrent CpuId Pcb → Prop where
  | getProc (s : Concurrent CpuId Pcb) (c : CpuId) :
      ConcurrentStep prio s (.getProc c (s.getProc c).2) (s.getProc c).1
  | putProc (s : Concurrent CpuId Pcb) (c : CpuId) (proc : Pcb) (hLoc : s.loc c = .idle) :
      ConcurrentStep prio s (.putProc c proc) (s.change (Btlos.putProc prio s.mlq proc))
  | addProc (s : Concurrent CpuId Pcb) (proc : Pcb) :
      ConcurrentStep prio s (.addProc proc) (s.change (Btlos.addProc prio s.mlq proc))

/-- The call of the CPU comes to its end when no other party takes a step. -/
def Concurrent.ReturnsAlone (s : Concurrent CpuId Pcb) (c : CpuId) : Prop :=
  ∃ steps, ((fun u : Concurrent CpuId Pcb => (u.getProc c).1)^[steps] s).loc c = .idle

/-- Every call in progress returns, and one that returns NULL now has its reason. -/
structure Concurrent.Safe (s : Concurrent CpuId Pcb) : Prop where
  returns : ∀ c, s.loc c ≠ .idle → s.ReturnsAlone c
  null : ∀ c, (s.getProc c).2 = some none → (s.getProc c).1.sawEmpty c = true

/-- A CPU that is about to take the last process of a queue takes it from nobody who
has seen it there: if no other queue has a process, no other CPU is in the loop, and
otherwise none is before the lock of this queue, unless all queues have been empty
since its call began. -/
def Concurrent.Undisturbed (s : Concurrent CpuId Pcb) : ConcurrentCall CpuId Pcb → Prop
  | .getProc c _ => ∀ level proc, s.loc c = .take level → s.mlq.waiting level = [proc] →
      ∀ other, other ≠ c →
        ((∀ queue, queue ≠ level → s.mlq.waiting queue = []) → s.loc other ≠ .search) ∧
        (s.loc other = .take level → s.sawEmpty other = false →
          ∀ queue, queue ≠ level → s.mlq.waiting queue = [])
  | _ => True

section Queues

variable {m : Mlq Pcb}

omit [DecidableEq CpuId]

theorem getRound_take (h : m.Servable m.currentPrio) : getRound m = (m, .take m.currentPrio) :=
  round_of_servable _ _ h

theorem getRound_next (h : ¬ m.Servable m.currentPrio) : getRound m = (nextQueue m, .search) :=
  round_of_not_servable _ _ h

theorem waiting_nextQueue (m : Mlq Pcb) : (nextQueue m).waiting = m.waiting := by
  rw [nextQueue]
  split_ifs <;> rfl

theorem waiting_getRound (m : Mlq Pcb) : (getRound m).1.waiting = m.waiting := by
  by_cases hServable : m.Servable m.currentPrio
  · rw [getRound_take hServable]
  · rw [getRound_next hServable, waiting_nextQueue]

/-- A round that chooses a queue has seen a process there. -/
theorem waiting_of_getRound {level : Fin maxPrio} (h : (getRound m).2 = .take level) :
    m.waiting level ≠ [] := by
  by_cases hServable : m.Servable m.currentPrio
  · rw [getRound_take hServable] at h
    cases h
    exact hServable.1
  · rw [getRound_next hServable] at h
    cases h

/-- Without other callers this is the section of the sequential search. -/
theorem getTake_eq (m : Mlq Pcb) (level : Fin maxPrio) :
    (getTake m level).1 = (serveCurrent (m.at level)).1 ∧
      (getTake m level).2.waiting = (serveCurrent (m.at level)).2.waiting := ⟨rfl, rfl⟩

theorem getTake_fst (m : Mlq Pcb) (level : Fin maxPrio) :
    (getTake m level).1 = (m.waiting level).head? :=
  (getTake_eq m level).1.trans (serveCurrent_fst _)

theorem waiting_getTake (m : Mlq Pcb) (level : Fin maxPrio) :
    (getTake m level).2.waiting = Function.update m.waiting level (m.waiting level).tail :=
  (getTake_eq m level).2.trans (waiting_serveCurrent _)

end Queues

variable {s t : Concurrent CpuId Pcb} {c : CpuId}

theorem mlq_getProc (s : Concurrent CpuId Pcb) (c : CpuId) :
    (s.getProc c).1.mlq = (getStep s.mlq (s.loc c)).1 := rfl

theorem loc_getProc (s : Concurrent CpuId Pcb) (c : CpuId) :
    (s.getProc c).1.loc = Function.update s.loc c (getStep s.mlq (s.loc c)).2.1 := rfl

theorem result_getProc (s : Concurrent CpuId Pcb) (c : CpuId) :
    (s.getProc c).2 = (getStep s.mlq (s.loc c)).2.2 := rfl

/-- What a CPU has seen is not forgotten during its call. -/
theorem sawEmpty_getProc (s : Concurrent CpuId Pcb) {other : CpuId}
    (hCall : s.loc c = .idle → other ≠ c) :
    (s.getProc c).1.sawEmpty other =
      (s.sawEmpty other || queueEmpty (s.getProc c).1.mlq == 1) := by
  have hBegin : (s.begin c).sawEmpty other = s.sawEmpty other := by
    rw [Concurrent.begin]
    split_ifs with hIdle
    · exact Function.update_of_ne (hCall hIdle) _ _
    · rfl
  rw [← hBegin]
  rfl

theorem sawEmpty_of_empty (s : Concurrent CpuId Pcb) (other : CpuId)
    (hEmpty : ∀ level, (s.getProc c).1.mlq.waiting level = []) :
    (s.getProc c).1.sawEmpty other = true := by
  have hQueues := queueEmpty_eq_one.mpr hEmpty
  show ((s.begin c).sawEmpty other || queueEmpty (s.getProc c).1.mlq == 1) = true
  rw [hQueues]
  exact Bool.or_true _

theorem getProc_empty (hLoc : s.loc c = .idle) (hEmpty : queueEmpty s.mlq = 1) :
    (s.getProc c).1.mlq = s.mlq ∧ (s.getProc c).1.loc c = .idle ∧
      (s.getProc c).2 = some none := by
  rw [mlq_getProc, loc_getProc, result_getProc, Function.update_self, hLoc, getStep, if_pos hEmpty]
  exact ⟨rfl, rfl, rfl⟩

theorem getProc_begin (hLoc : s.loc c = .idle) (hSome : queueEmpty s.mlq ≠ 1) :
    (s.getProc c).1.mlq = s.mlq ∧ (s.getProc c).1.loc c = .search ∧ (s.getProc c).2 = none := by
  rw [mlq_getProc, loc_getProc, result_getProc, Function.update_self, hLoc, getStep, if_neg hSome]
  exact ⟨rfl, rfl, rfl⟩

theorem getProc_search (hLoc : s.loc c = .search) :
    (s.getProc c).1.mlq = (getRound s.mlq).1 ∧ (s.getProc c).1.loc c = (getRound s.mlq).2 ∧
      (s.getProc c).2 = none := by
  rw [mlq_getProc, loc_getProc, result_getProc, Function.update_self, hLoc]
  exact ⟨rfl, rfl, rfl⟩

theorem getProc_take {level : Fin maxPrio} (hLoc : s.loc c = .take level) :
    (s.getProc c).1.mlq = (getTake s.mlq level).2 ∧ (s.getProc c).1.loc c = .idle ∧
      (s.getProc c).2 = some (getTake s.mlq level).1 := by
  rw [mlq_getProc, loc_getProc, result_getProc, Function.update_self, hLoc]
  exact ⟨rfl, rfl, rfl⟩

theorem waiting_getProc (s : Concurrent CpuId Pcb) {c : CpuId}
    (hLoc : ∀ level, s.loc c ≠ .take level) :
    (s.getProc c).1.mlq.waiting = s.mlq.waiting := by
  rw [mlq_getProc]
  cases hHere : s.loc c with
  | idle =>
      rw [getStep]
      split_ifs <;> rfl
  | search => exact waiting_getRound s.mlq
  | take level => exact absurd hHere (hLoc level)

/-! A call that goes on alone -/

theorem Concurrent.ReturnsAlone.of_step (h : (s.getProc c).1.ReturnsAlone c) :
    s.ReturnsAlone c := by
  obtain ⟨steps, hIdle⟩ := h
  refine ⟨steps + 1, ?_⟩
  rw [Function.iterate_succ_apply]
  exact hIdle

theorem returnsAlone_take {level : Fin maxPrio} (hLoc : s.loc c = .take level) :
    s.ReturnsAlone c :=
  ⟨1, (getProc_take hLoc).2.1⟩

/-- The search of one CPU alone is the sequential search. -/
theorem returnsAlone_search {fuel : Nat} {out : Option Pcb × Mlq Pcb}
    (hLoc : s.loc c = .search) (hSearch : searchLoop fuel s.mlq = some out) :
    s.ReturnsAlone c := by
  induction fuel generalizing s with
  | zero => simp [searchLoop] at hSearch
  | succ fuel ih =>
      obtain ⟨hQueues, hNext, -⟩ := getProc_search hLoc
      apply Concurrent.ReturnsAlone.of_step
      by_cases hServable : s.mlq.Servable s.mlq.currentPrio
      · rw [getRound_take hServable] at hNext
        exact returnsAlone_take hNext
      · rw [getRound_next hServable] at hQueues hNext
        rw [searchLoop_next _ hServable] at hSearch
        exact ih hNext (hQueues ▸ hSearch)

/-- The search does not end while no process is there. -/
theorem search_endless (hLoc : s.loc c = .search) (hEmpty : ∀ level, s.mlq.waiting level = []) :
    ¬ s.ReturnsAlone c := by
  rintro ⟨steps, hIdle⟩
  induction steps generalizing s with
  | zero =>
      rw [Function.iterate_zero_apply, hLoc] at hIdle
      cases hIdle
  | succ steps ih =>
      obtain ⟨hQueues, hNext, -⟩ := getProc_search hLoc
      have hClosed : ¬ s.mlq.Servable s.mlq.currentPrio := fun hServable =>
        hServable.1 (hEmpty _)
      rw [getRound_next hClosed] at hQueues hNext
      rw [Function.iterate_succ_apply] at hIdle
      apply ih hNext _ hIdle
      intro level
      rw [hQueues, waiting_nextQueue]
      exact hEmpty level

/-- What the CPUs in the middle of a call count on. -/
structure Concurrent.Sound (s : Concurrent CpuId Pcb) : Prop where
  search : ∀ c, s.loc c = .search → ∃ level, s.mlq.waiting level ≠ []
  take : ∀ c level, s.loc c = .take level → s.mlq.waiting level = [] → s.sawEmpty c = true

/-- A moment without any process is recorded for all calls in progress. -/
def Concurrent.Recorded (s : Concurrent CpuId Pcb) : Prop :=
  (∀ level, s.mlq.waiting level = []) → ∀ c, s.loc c ≠ .idle → s.sawEmpty c = true

private theorem Concurrent.Safe.sound (h : s.Safe) (hRecorded : s.Recorded) : s.Sound := by
  constructor
  · intro c hLoc
    by_contra hNone
    have hReturns := h.returns c (by simp [hLoc])
    apply search_endless hLoc _ hReturns
    intro level
    by_contra hLevel
    exact hNone ⟨level, hLevel⟩
  · intro c level hLoc hEmpty
    obtain ⟨hQueues, -, hResult⟩ := getProc_take hLoc
    rw [getTake_fst, hEmpty] at hResult
    have hSaw := h.null c hResult
    rw [sawEmpty_getProc s (by simp [hLoc]), Bool.or_eq_true, beq_iff_eq] at hSaw
    rcases hSaw with hSaw | hQueueEmpty
    · exact hSaw
    · apply hRecorded _ c (by simp [hLoc])
      -- taking from an empty queue has changed no queue
      have hAll := queueEmpty_eq_one.mp hQueueEmpty
      rw [hQueues, waiting_getTake, hEmpty] at hAll
      intro other
      by_cases hOther : other = level
      · rw [hOther]
        exact hEmpty
      · have hHere := hAll other
        rwa [Function.update_of_ne hOther] at hHere

private theorem Concurrent.Sound.safe (h : s.Sound) : s.Safe := by
  constructor
  · intro c hLoc
    cases hHere : s.loc c with
    | idle => exact absurd hHere hLoc
    | search =>
        obtain ⟨level, proc, m, hSearch, -⟩ := searchLoop_finds (h.search c hHere)
        exact returnsAlone_search hHere hSearch
    | take level => exact returnsAlone_take hHere
  · intro c hNull
    cases hHere : s.loc c with
    | idle =>
        apply sawEmpty_of_empty
        rw [waiting_getProc s (by simp [hHere])]
        rw [result_getProc, hHere, getStep] at hNull
        split_ifs at hNull with hEmpty
        exact queueEmpty_eq_one.mp hEmpty
    | search =>
        rw [(getProc_search hHere).2.2] at hNull
        cases hNull
    | take level =>
        rw [(getProc_take hHere).2.2, getTake_fst] at hNull
        have hEmpty : s.mlq.waiting level = [] := by simpa using hNull
        rw [sawEmpty_getProc s (by simp [hHere]), h.take c level hHere hEmpty, Bool.true_or]

theorem safe_iff_sound (hRecorded : s.Recorded) : s.Safe ↔ s.Sound :=
  ⟨fun h => h.sound hRecorded, fun h => h.safe⟩

/-! What a step does to that -/

theorem loc_getProc_of_ne (s : Concurrent CpuId Pcb) {other : CpuId} (hOther : other ≠ c) :
    (s.getProc c).1.loc other = s.loc other := by
  rw [loc_getProc, Function.update_of_ne hOther]

omit [DecidableEq CpuId] in
private theorem exists_waiting (h : queueEmpty s.mlq ≠ 1) : ∃ level, s.mlq.waiting level ≠ [] := by
  by_contra hNone
  apply h
  rw [queueEmpty_eq_one]
  intro level
  by_contra hLevel
  exact hNone ⟨level, hLevel⟩

/-- A CPU that is in the loop after its step was told that there is a process. -/
private theorem Concurrent.Sound.enter (h : s.Sound) (hLoc : (s.getProc c).1.loc c = .search) :
    ∃ level, s.mlq.waiting level ≠ [] := by
  rw [loc_getProc, Function.update_self] at hLoc
  cases hHere : s.loc c with
  | idle =>
      rw [hHere, getStep] at hLoc
      split_ifs at hLoc with hEmpty
      exact exists_waiting hEmpty
  | search => exact h.search c hHere
  | take level =>
      rw [hHere] at hLoc
      cases hLoc

/-- A CPU that is before the lock after its step has seen a process there. -/
private theorem waiting_of_choice {level : Fin maxPrio}
    (hLoc : (s.getProc c).1.loc c = .take level) : s.mlq.waiting level ≠ [] := by
  rw [loc_getProc, Function.update_self] at hLoc
  cases hHere : s.loc c with
  | idle =>
      rw [hHere, getStep] at hLoc
      split_ifs at hLoc
  | search =>
      rw [hHere] at hLoc
      exact waiting_of_getRound hLoc
  | take level =>
      rw [hHere] at hLoc
      cases hLoc

/-- A step of one CPU after which no queue has become empty. -/
private theorem Concurrent.Sound.getProc (h : s.Sound) (c : CpuId)
    (hKeep : ∀ level, s.mlq.waiting level ≠ [] → (s.getProc c).1.mlq.waiting level ≠ []) :
    (s.getProc c).1.Sound := by
  constructor
  · intro other hLoc
    have hBefore : ∃ level, s.mlq.waiting level ≠ [] := by
      by_cases hOther : other = c
      · subst hOther
        exact h.enter hLoc
      · rw [loc_getProc_of_ne s hOther] at hLoc
        exact h.search other hLoc
    obtain ⟨level, hLevel⟩ := hBefore
    exact ⟨level, hKeep level hLevel⟩
  · intro other level hLoc hEmpty
    have hBefore : s.mlq.waiting level = [] := by
      by_contra hLevel
      exact hKeep level hLevel hEmpty
    by_cases hOther : other = c
    · subst hOther
      exact absurd hBefore (waiting_of_choice hLoc)
    · rw [loc_getProc_of_ne s hOther] at hLoc
      rw [sawEmpty_getProc s fun _ => hOther, h.take other level hLoc hBefore, Bool.true_or]

omit [DecidableEq CpuId] in
/-- A process is handed in. -/
private theorem Concurrent.Sound.put (h : s.Sound) (prio : Pcb → Nat) (proc : Pcb) :
    (s.change (putMlqProc prio s.mlq proc)).Sound := by
  have hKeep : ∀ level, s.mlq.waiting level ≠ [] →
      (putMlqProc prio s.mlq proc).waiting level ≠ [] := by
    intro level hLevel
    rw [waiting_putMlqProc]
    cases hJoins : s.mlq.joins? prio proc with
    | none => exact hLevel
    | some joined =>
        by_cases hSame : level = joined
        · subst hSame
          simp
        · simpa [hSame] using hLevel
  constructor
  · intro c hLoc
    obtain ⟨level, hLevel⟩ := h.search c hLoc
    exact ⟨level, hKeep level hLevel⟩
  · intro c level hLoc hEmpty
    have hBefore : s.mlq.waiting level = [] := by
      by_contra hLevel
      exact hKeep level hLevel hEmpty
    show (s.sawEmpty c || queueEmpty (putMlqProc prio s.mlq proc) == 1) = true
    rw [h.take c level hLoc hBefore, Bool.true_or]

section Last

variable {level : Fin maxPrio} {proc : Pcb}

private theorem waiting_last (hLoc : s.loc c = .take level) (hLast : s.mlq.waiting level = [proc]) :
    (s.getProc c).1.mlq.waiting = Function.update s.mlq.waiting level [] := by
  rw [(getProc_take hLoc).1, waiting_getTake, hLast, List.tail_cons]

private theorem ne_of_loc (hLoc : s.loc c = .take level) (other : CpuId)
    (hOther : (s.getProc c).1.loc other ≠ .idle) :
    other ≠ c ∧ (s.getProc c).1.loc other = s.loc other := by
  have hNe : other ≠ c := by
    rintro rfl
    exact hOther (getProc_take hLoc).2.1
  exact ⟨hNe, loc_getProc_of_ne s hNe⟩

private theorem undisturbed_of_sound (hLoc : s.loc c = .take level)
    (hLast : s.mlq.waiting level = [proc]) (h : (s.getProc c).1.Sound) {other : CpuId}
    (hOther : other ≠ c) :
    ((∀ queue, queue ≠ level → s.mlq.waiting queue = []) → s.loc other ≠ .search) ∧
      (s.loc other = .take level → s.sawEmpty other = false →
        ∀ queue, queue ≠ level → s.mlq.waiting queue = []) := by
  have hWaiting := waiting_last hLoc hLast
  have hSame := loc_getProc_of_ne s hOther
  constructor
  · intro hOthers hSearch
    obtain ⟨queue, hQueue⟩ := h.search other (hSame.trans hSearch)
    rw [hWaiting] at hQueue
    by_cases hHere : queue = level
    · rw [hHere, Function.update_self] at hQueue
      exact hQueue rfl
    · rw [Function.update_of_ne hHere] at hQueue
      exact hQueue (hOthers queue hHere)
  · intro hTake hNot queue hQueue
    have hGone : (s.getProc c).1.mlq.waiting level = [] := by
      rw [hWaiting, Function.update_self]
    have hSaw := h.take other level (hSame.trans hTake) hGone
    rw [sawEmpty_getProc s fun _ => hOther, hNot, Bool.false_or, beq_iff_eq] at hSaw
    have hAll := queueEmpty_eq_one.mp hSaw queue
    rwa [hWaiting, Function.update_of_ne hQueue] at hAll

private theorem sound_of_undisturbed (hSound : s.Sound) (hLoc : s.loc c = .take level)
    (hLast : s.mlq.waiting level = [proc])
    (h : ∀ other, other ≠ c →
      ((∀ queue, queue ≠ level → s.mlq.waiting queue = []) → s.loc other ≠ .search) ∧
      (s.loc other = .take level → s.sawEmpty other = false →
        ∀ queue, queue ≠ level → s.mlq.waiting queue = [])) :
    (s.getProc c).1.Sound := by
  have hWaiting := waiting_last hLoc hLast
  constructor
  · intro other hSearch
    obtain ⟨hOther, hSame⟩ := ne_of_loc hLoc other (by simp [hSearch])
    by_contra hNone
    apply (h other hOther).1 _ (hSame.symm.trans hSearch)
    intro queue hQueue
    by_contra hHere
    apply hNone
    refine ⟨queue, ?_⟩
    rw [hWaiting, Function.update_of_ne hQueue]
    exact hHere
  · intro other chosen hTake hEmpty
    obtain ⟨hOther, hSame⟩ := ne_of_loc hLoc other (by simp [hTake])
    have hBefore := hSame.symm.trans hTake
    by_cases hSaw : s.sawEmpty other = true
    · rw [sawEmpty_getProc s fun _ => hOther, hSaw, Bool.true_or]
    · by_cases hHere : chosen = level
      · subst hHere
        apply sawEmpty_of_empty
        intro queue
        rw [hWaiting, Function.update_apply]
        split_ifs with hQueue
        · rfl
        · exact (h other hOther).2 hBefore (Bool.eq_false_iff.mpr hSaw) queue hQueue
      · rw [hWaiting, Function.update_of_ne hHere] at hEmpty
        exact absurd (hSound.take other chosen hBefore hEmpty) hSaw

end Last

/-- A step that does not take a last process leaves no queue empty that was not. -/
private theorem waiting_getProc_ne_nil
    (hMore : ∀ level proc, s.loc c = .take level → s.mlq.waiting level ≠ [proc])
    (level : Fin maxPrio) (hLevel : s.mlq.waiting level ≠ []) :
    (s.getProc c).1.mlq.waiting level ≠ [] := by
  cases hLoc : s.loc c with
  | idle | search =>
      rw [waiting_getProc s (by simp [hLoc])]
      exact hLevel
  | take chosen =>
      rw [(getProc_take hLoc).1, waiting_getTake]
      by_cases hChosen : level = chosen
      · subst hChosen
        rw [Function.update_self]
        cases hList : s.mlq.waiting level with
        | nil => exact absurd hList hLevel
        | cons proc rest =>
            intro hRest
            rw [List.tail_cons] at hRest
            rw [hRest] at hList
            exact hMore level proc hLoc hList
      · rw [Function.update_of_ne hChosen]
        exact hLevel

/-- A step keeps what the calls count on exactly when it takes no process that
another CPU has seen. -/
theorem sound_step_iff {prio : Pcb → Nat} {call : ConcurrentCall CpuId Pcb} (h : s.Sound)
    (step : ConcurrentStep prio s call t) : t.Sound ↔ s.Undisturbed call := by
  cases step with
  | putProc c proc hLoc => exact iff_of_true (h.put prio proc) trivial
  | addProc proc =>
      rw [addProc, addMlqProc_eq]
      exact iff_of_true (h.put prio proc) trivial
  | getProc c =>
      by_cases hLast : ∃ level proc, s.loc c = .take level ∧ s.mlq.waiting level = [proc]
      · obtain ⟨level, proc, hLoc, hWaiting⟩ := hLast
        constructor
        · intro hNext chosen last hChosen hList other hOther
          obtain rfl : level = chosen := GetLoc.take.inj (hLoc.symm.trans hChosen)
          exact undisturbed_of_sound hLoc hWaiting hNext hOther
        · intro hCondition
          exact sound_of_undisturbed h hLoc hWaiting (hCondition level proc hLoc hWaiting)
      · have hMore : ∀ level proc, s.loc c = .take level → s.mlq.waiting level ≠ [proc] :=
          fun level proc hLoc hList => hLast ⟨level, proc, hLoc, hList⟩
        apply iff_of_true (h.getProc c (waiting_getProc_ne_nil hMore))
        exact fun level proc hLoc hList => absurd hList (hMore level proc hLoc)

theorem recorded_step {prio : Pcb → Nat} {call : ConcurrentCall CpuId Pcb}
    (step : ConcurrentStep prio s call t) : t.Recorded := by
  intro hEmpty other hCall
  cases step with
  | getProc c => exact sawEmpty_of_empty s other hEmpty
  | putProc c proc | addProc proc =>
      have hQueues := queueEmpty_eq_one.mpr hEmpty
      simp only [Concurrent.change] at hQueues ⊢
      rw [hQueues]
      exact Bool.or_true _

/-- In any interleaving, all calls in progress return and NULL is returned only where
all queues have been empty during the call, as long as and only as long as no step
takes a process that another CPU has seen. -/
theorem getProc_safe_iff {prio : Pcb → Nat} {calls : List (ConcurrentCall CpuId Pcb)} :
    Runs (Keeping (ConcurrentStep prio) Concurrent.Safe) Concurrent.initial calls s ↔
      Runs (Guarded (ConcurrentStep prio) Concurrent.Undisturbed) Concurrent.initial calls s := by
  have hRecorded : (Concurrent.initial : Concurrent CpuId Pcb).Recorded :=
    fun _ _ hCall => absurd rfl hCall
  apply Runs.keeping_iff_guarded Concurrent.Recorded _ hRecorded
  · intro s call t _ _ step _
    exact recorded_step step
  · intro s call t hHere hSafe step
    rw [safe_iff_sound (recorded_step step)]
    exact sound_step_iff ((safe_iff_sound hHere).mp hSafe) step
  · rw [safe_iff_sound hRecorded]
    exact ⟨nofun, nofun⟩

/-- Two CPUs test the same queue with one process. One of them takes it, and the other
gets NULL while a process waits in the next queue; or the other is still in the loop,
with all queues empty, and does not come out of it. -/
theorem getProc_races :
    (∃ s : Concurrent Bool Nat, Runs (ConcurrentStep id) Concurrent.initial
        [.addProc 0, .addProc 1, .getProc false none, .getProc true none, .getProc false none,
          .getProc true none, .getProc false (some (some 0))] s ∧
      (s.getProc true).2 = some none ∧ (s.getProc true).1.sawEmpty true = false ∧ ¬ s.Safe) ∧
    ∃ s : Concurrent Bool Nat, Runs (ConcurrentStep id) Concurrent.initial
        [.addProc 0, .getProc false none, .getProc true none, .getProc false none,
          .getProc false (some (some 0))] s ∧
      s.loc true = .search ∧ ¬ s.ReturnsAlone true ∧ ¬ s.Safe := by
  constructor
  · refine ⟨_, Runs.cons (.addProc _ 0) <| Runs.cons (.addProc _ 1) <|
      Runs.cons (.getProc _ false) <| Runs.cons (.getProc _ true) <|
      Runs.cons (.getProc _ false) <| Runs.cons (.getProc _ true) <|
      Runs.one (.getProc _ false), by decide +kernel, by decide +kernel, fun hSafe => ?_⟩
    have hSaw := hSafe.null true (by decide +kernel)
    revert hSaw
    decide +kernel
  · refine ⟨_, Runs.cons (.addProc _ 0) <| Runs.cons (.getProc _ false) <|
      Runs.cons (.getProc _ true) <| Runs.cons (.getProc _ false) <|
      Runs.one (.getProc _ false), rfl,
      search_endless rfl (queueEmpty_eq_one.mp (by decide +kernel)), fun hSafe => ?_⟩
    have hReturns := hSafe.returns true nofun
    revert hReturns
    exact search_endless rfl (queueEmpty_eq_one.mp (by decide +kernel))

end Btlos
