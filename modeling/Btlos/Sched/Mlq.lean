import Btlos.Library.Transition
import Btlos.Sched.Queue
import Mathlib.Data.Fin.Basic

/-! The multi-level queue of `sched.c`: one array queue for each priority, and
the priority at which the last search stopped. -/
namespace Btlos

open Transition

abbrev maxPrio : Nat := 140

structure Mlq (Pcb : Type*) where
  mlqReadyQueue : Fin maxPrio → Queue Pcb
  currentPrio : Fin maxPrio

variable {Pcb : Type*}

def Mlq.setQueue (m : Mlq Pcb) (prio : Fin maxPrio) (q : Queue Pcb) : Mlq Pcb :=
  { m with mlqReadyQueue := Function.update m.mlqReadyQueue prio q }

def resetSlots (m : Mlq Pcb) : Mlq Pcb where
  mlqReadyQueue := fun prio => { m.mlqReadyQueue prio with slots := 0 }
  currentPrio := 0

def queueEmpty (m : Mlq Pcb) : Int :=
  if (List.finRange maxPrio).any fun prio => !empty (m.mlqReadyQueue prio) then -1 else 1

/-- The current priority is left as it is. -/
def initScheduler (m : Mlq Pcb) : Mlq Pcb :=
  { m with
    mlqReadyQueue := fun prio =>
      { m.mlqReadyQueue prio with
        size := 0
        slots := 0
        size_lt := by decide
        filled := fun _ h => absurd h (Nat.not_lt_zero _) } }

/-- The static variables after `init_scheduler`. -/
def Mlq.initial : Mlq Pcb :=
  initScheduler
    { mlqReadyQueue := fun _ =>
        ⟨fun _ => none, 0, 0, by decide, fun _ h => absurd h (Nat.not_lt_zero _)⟩
      currentPrio := 0 }

def advance (m : Mlq Pcb) : Mlq Pcb :=
  { m with currentPrio := ⟨(m.currentPrio + 1) % maxPrio, Nat.mod_lt _ (by decide)⟩ }

/-- Go on to the next queue, and back at priority 0 reset the slots. -/
def nextQueue (m : Mlq Pcb) : Mlq Pcb :=
  if ((advance m).currentPrio : Nat) = 0 then resetSlots (advance m) else advance m

/-- Take the first process of the current queue and count a slot for it. -/
def serveCurrent (m : Mlq Pcb) : Option Pcb × Mlq Pcb :=
  let (proc, priorityQueue) := dequeue (m.mlqReadyQueue m.currentPrio)
  (proc, m.setQueue m.currentPrio { priorityQueue with slots := priorityQueue.slots + 1 })

/-- The `while (1)` of `get_mlq_proc`, for a bounded number of rounds. -/
def searchLoop : Nat → Mlq Pcb → Option (Option Pcb × Mlq Pcb)
  | 0, _ => none
  | fuel + 1, m =>
      let designatedSlots := maxPrio - m.currentPrio
      let priorityQueue := m.mlqReadyQueue m.currentPrio
      if priorityQueue.size ≠ 0 then
        if priorityQueue.slots = designatedSlots then searchLoop fuel (nextQueue m)
        else some (serveCurrent m)
      else searchLoop fuel (nextQueue m)

def getMlqProc (fuel : Nat) (m : Mlq Pcb) : Option (Option Pcb × Mlq Pcb) :=
  if queueEmpty m = 1 then some (none, m) else searchLoop fuel m

def putMlqProc (prio : Pcb → Nat) (m : Mlq Pcb) (proc : Pcb) : Mlq Pcb :=
  if h : maxPrio ≤ prio proc then m
  else
    let level : Fin maxPrio := ⟨prio proc, Nat.lt_of_not_le h⟩
    m.setQueue level (enqueue (m.mlqReadyQueue level) proc)

def addMlqProc (prio : Pcb → Nat) (m : Mlq Pcb) (proc : Pcb) : Mlq Pcb :=
  if h : maxPrio ≤ prio proc then m
  else
    let level : Fin maxPrio := ⟨prio proc, Nat.lt_of_not_le h⟩
    m.setQueue level (enqueue (m.mlqReadyQueue level) proc)

def getProc (fuel : Nat) (m : Mlq Pcb) : Option (Option Pcb × Mlq Pcb) := getMlqProc fuel m

def putProc (prio : Pcb → Nat) (m : Mlq Pcb) (proc : Pcb) : Mlq Pcb := putMlqProc prio m proc

def addProc (prio : Pcb → Nat) (m : Mlq Pcb) (proc : Pcb) : Mlq Pcb := addMlqProc prio m proc

/-- The calls of the loader and of the CPUs. -/
inductive MlqCall (Pcb : Type*) where
  | addProc (proc : Pcb)
  | putProc (proc : Pcb)
  | getProc (result : Option Pcb)

inductive MlqStep (prio : Pcb → Nat) : Mlq Pcb → MlqCall Pcb → Mlq Pcb → Prop where
  | addProc (m : Mlq Pcb) (proc : Pcb) :
      MlqStep prio m (.addProc proc) (Btlos.addProc prio m proc)
  | putProc (m : Mlq Pcb) (proc : Pcb) :
      MlqStep prio m (.putProc proc) (Btlos.putProc prio m proc)
  | getProc {m t : Mlq Pcb} {result : Option Pcb} (fuel : Nat)
      (hGet : Btlos.getProc fuel m = some (result, t)) : MlqStep prio m (.getProc result) t

/-! What a queue holds and has used -/

def Mlq.waiting (m : Mlq Pcb) (prio : Fin maxPrio) : List Pcb := (m.mlqReadyQueue prio).procs

def Mlq.slots (m : Mlq Pcb) (prio : Fin maxPrio) : Nat := (m.mlqReadyQueue prio).slots

/-- The queue has a process and slots left for it. -/
def Mlq.Servable (m : Mlq Pcb) (prio : Fin maxPrio) : Prop :=
  m.waiting prio ≠ [] ∧ m.slots prio ≠ maxPrio - prio

variable {m t : Mlq Pcb} {prio : Pcb → Nat}

@[simp] theorem waiting_initial (level : Fin maxPrio) :
    (Mlq.initial : Mlq Pcb).waiting level = [] := rfl

theorem waiting_setQueue (m : Mlq Pcb) (level : Fin maxPrio) (q : Queue Pcb) :
    (m.setQueue level q).waiting = Function.update m.waiting level q.procs := by
  funext p
  by_cases h : p = level
  · subst h
    simp [Mlq.waiting, Mlq.setQueue]
  · simp [Mlq.waiting, Mlq.setQueue, h]

theorem slots_setQueue (m : Mlq Pcb) (level : Fin maxPrio) (q : Queue Pcb) :
    (m.setQueue level q).slots = Function.update m.slots level q.slots := by
  funext p
  by_cases h : p = level
  · subst h
    simp [Mlq.slots, Mlq.setQueue]
  · simp [Mlq.slots, Mlq.setQueue, h]

theorem queueEmpty_eq_one : queueEmpty m = 1 ↔ ∀ level, m.waiting level = [] := by
  have hAny : ((List.finRange maxPrio).any fun level => !empty (m.mlqReadyQueue level)) = false ↔
      ∀ level, m.waiting level = [] := by
    simp [← empty_iff, Mlq.waiting]
  rw [← hAny, queueEmpty]
  split_ifs with h <;> simp_all

/-- The queue of its priority that a process can join, if there is one and fewer
than `MAX_QUEUE_SIZE - 1` processes wait there. -/
def Mlq.joins? (prio : Pcb → Nat) (m : Mlq Pcb) (proc : Pcb) : Option (Fin maxPrio) :=
  if h : prio proc < maxPrio then
    if (m.waiting ⟨prio proc, h⟩).length < maxQueueSize - 1 then some ⟨prio proc, h⟩ else none
  else none

theorem joins?_eq_some {proc : Pcb} {level : Fin maxPrio} :
    m.joins? prio proc = some level ↔
      prio proc = level ∧ (m.waiting level).length < maxQueueSize - 1 := by
  rw [Mlq.joins?]
  split_ifs with hLow hRoom
  · constructor
    · intro h
      obtain rfl := Option.some.inj h
      exact ⟨rfl, hRoom⟩
    · rintro ⟨hPrio, -⟩
      exact congrArg some (Fin.ext hPrio)
  · apply iff_of_false nofun
    rintro ⟨hPrio, h⟩
    obtain rfl : ⟨prio proc, hLow⟩ = level := Fin.ext hPrio
    exact hRoom h
  · apply iff_of_false nofun
    rintro ⟨hPrio, -⟩
    exact hLow (hPrio ▸ level.isLt)

/-- A process that is handed in goes to the end of the queue that it can join,
and is dropped when there is none. -/
theorem waiting_putMlqProc (prio : Pcb → Nat) (m : Mlq Pcb) (proc : Pcb) :
    (putMlqProc prio m proc).waiting =
      match m.joins? prio proc with
      | some level => Function.update m.waiting level (m.waiting level ++ [proc])
      | none => m.waiting := by
  rw [putMlqProc, Mlq.joins?]
  by_cases hLow : prio proc < maxPrio
  · rw [dif_neg hLow.not_ge, dif_pos hLow, waiting_setQueue, procs_enqueue]
    split_ifs with hRoom hFull hFull
    · rfl
    · exact absurd hRoom hFull
    · exact absurd hFull hRoom
    · exact Function.update_eq_self _ _
  · rw [dif_pos (Nat.le_of_not_lt hLow), dif_neg hLow]

@[simp] theorem slots_putMlqProc (m : Mlq Pcb) (proc : Pcb) :
    (putMlqProc prio m proc).slots = m.slots := by
  rw [putMlqProc]
  split_ifs
  · rfl
  · rw [slots_setQueue, slots_enqueue]
    exact Function.update_eq_self _ _

@[simp] theorem currentPrio_putMlqProc (m : Mlq Pcb) (proc : Pcb) :
    (putMlqProc prio m proc).currentPrio = m.currentPrio := by
  rw [putMlqProc]
  split_ifs <;> rfl

/-- `put_mlq_proc` and `add_mlq_proc` do the same. -/
theorem addMlqProc_eq (m : Mlq Pcb) (proc : Pcb) :
    addMlqProc prio m proc = putMlqProc prio m proc := rfl

/-! One round of the search -/

section Round

variable {Result : Type*} (next serve : Result)

/-- A round that serves the current queue. -/
theorem round_of_servable (h : m.Servable m.currentPrio) :
    (if (m.mlqReadyQueue m.currentPrio).size ≠ 0 then
      if (m.mlqReadyQueue m.currentPrio).slots = maxPrio - m.currentPrio then next else serve
    else next) = serve := by
  have hSize : (m.mlqReadyQueue m.currentPrio).size ≠ 0 := mt Queue.procs_eq_nil.mpr h.1
  rw [if_pos hSize]
  exact if_neg h.2

/-- A round that goes on to the next queue. -/
theorem round_of_not_servable (h : ¬ m.Servable m.currentPrio) :
    (if (m.mlqReadyQueue m.currentPrio).size ≠ 0 then
      if (m.mlqReadyQueue m.currentPrio).slots = maxPrio - m.currentPrio then next else serve
    else next) = next := by
  split_ifs with hSize hSlots
  · rfl
  · exact absurd ⟨mt Queue.procs_eq_nil.mp hSize, hSlots⟩ h
  · rfl

end Round

theorem searchLoop_serve (fuel : Nat) (h : m.Servable m.currentPrio) :
    searchLoop (fuel + 1) m = some (serveCurrent m) :=
  round_of_servable _ _ h

theorem searchLoop_next (fuel : Nat) (h : ¬ m.Servable m.currentPrio) :
    searchLoop (fuel + 1) m = searchLoop fuel (nextQueue m) :=
  round_of_not_servable _ _ h

/-- More fuel does not change what the search returns. -/
theorem searchLoop_mono {fuel more : Nat} {out : Option Pcb × Mlq Pcb}
    (h : searchLoop fuel m = some out) (hFuel : fuel ≤ more) :
    searchLoop more m = some out := by
  induction fuel generalizing m more with
  | zero => simp [searchLoop] at h
  | succ fuel ih =>
      obtain ⟨more, rfl⟩ : ∃ k, more = k + 1 := ⟨more - 1, by omega⟩
      by_cases hServable : m.Servable m.currentPrio
      · rw [searchLoop_serve _ hServable] at h ⊢
        exact h
      · rw [searchLoop_next _ hServable] at h ⊢
        exact ih h (by omega)

theorem getProc_mono {fuel more : Nat} {out : Option Pcb × Mlq Pcb}
    (h : getProc fuel m = some out) (hFuel : fuel ≤ more) : getProc more m = some out := by
  rw [getProc, getMlqProc] at h ⊢
  split_ifs at h ⊢
  · exact h
  · exact searchLoop_mono h hFuel

theorem nextQueue_of_lt (h : (m.currentPrio : Nat) + 1 < maxPrio) :
    ((advance m).currentPrio : Nat) ≠ 0 ∧
      nextQueue m = { m with currentPrio := ⟨m.currentPrio + 1, h⟩ } := by
  have hAdvance : advance m = { m with currentPrio := ⟨m.currentPrio + 1, h⟩ } := by
    simp only [advance, Nat.mod_eq_of_lt h]
  have hZero : ((advance m).currentPrio : Nat) ≠ 0 := by
    rw [hAdvance]
    exact Nat.succ_ne_zero _
  exact ⟨hZero, by rw [nextQueue, if_neg hZero, hAdvance]⟩

theorem nextQueue_last (h : (m.currentPrio : Nat) + 1 = maxPrio) :
    ((advance m).currentPrio : Nat) = 0 ∧ nextQueue m = resetSlots m := by
  have hZero : ((advance m).currentPrio : Nat) = 0 := by
    simp only [advance, h, Nat.mod_self]
  exact ⟨hZero, by rw [nextQueue, if_pos hZero]; rfl⟩

theorem serveCurrent_fst (m : Mlq Pcb) :
    (serveCurrent m).1 = (m.waiting m.currentPrio).head? := dequeue_fst _

theorem waiting_serveCurrent (m : Mlq Pcb) :
    (serveCurrent m).2.waiting =
      Function.update m.waiting m.currentPrio (m.waiting m.currentPrio).tail := by
  have hTail : (m.waiting m.currentPrio).tail =
      (dequeue (m.mlqReadyQueue m.currentPrio)).2.procs := (procs_dequeue _).symm
  rw [hTail]
  exact waiting_setQueue _ _ _

theorem slots_serveCurrent (m : Mlq Pcb) :
    (serveCurrent m).2.slots =
      Function.update m.slots m.currentPrio (m.slots m.currentPrio + 1) := by
  have hSlots : m.slots m.currentPrio =
      (dequeue (m.mlqReadyQueue m.currentPrio)).2.slots := (slots_dequeue _).symm
  rw [hSlots]
  exact slots_setQueue _ _ _

/-! The slots stay within their bounds -/

/-- No queue has used more slots than it gets. -/
def Mlq.SlotsBounded (m : Mlq Pcb) : Prop := ∀ level, m.slots level ≤ maxPrio - level

theorem Mlq.SlotsBounded.next (h : m.SlotsBounded) : (nextQueue m).SlotsBounded := by
  rw [nextQueue]
  split_ifs
  · exact fun _ => Nat.zero_le _
  · exact h

theorem Mlq.SlotsBounded.serve (h : m.SlotsBounded) (hServable : m.Servable m.currentPrio) :
    (serveCurrent m).2.SlotsBounded := by
  intro level
  rw [slots_serveCurrent]
  by_cases hLevel : level = m.currentPrio
  · have hLe := h m.currentPrio
    have hLeft := hServable.2
    rw [hLevel, Function.update_self]
    omega
  · rw [Function.update_of_ne hLevel]
    exact h level

theorem Mlq.SlotsBounded.search {fuel : Nat} {out : Option Pcb × Mlq Pcb}
    (h : m.SlotsBounded) (hSearch : searchLoop fuel m = some out) : out.2.SlotsBounded := by
  induction fuel generalizing m with
  | zero => simp [searchLoop] at hSearch
  | succ fuel ih =>
      by_cases hServable : m.Servable m.currentPrio
      · rw [searchLoop_serve _ hServable] at hSearch
        obtain rfl : serveCurrent m = out := Option.some.inj hSearch
        exact h.serve hServable
      · rw [searchLoop_next _ hServable] at hSearch
        exact ih h.next hSearch

theorem Mlq.SlotsBounded.put (h : m.SlotsBounded) (prio : Pcb → Nat) (proc : Pcb) :
    (putMlqProc prio m proc).SlotsBounded := by
  simpa [SlotsBounded] using h

theorem Mlq.SlotsBounded.get {fuel : Nat} {result : Option Pcb} (h : m.SlotsBounded)
    (hGet : getProc fuel m = some (result, t)) : t.SlotsBounded := by
  rw [getProc, getMlqProc] at hGet
  split_ifs at hGet
  · cases hGet
    exact h
  · exact h.search hGet

theorem slotsBounded_step {call : MlqCall Pcb} (h : m.SlotsBounded)
    (step : MlqStep prio m call t) : t.SlotsBounded := by
  cases step with
  | addProc proc =>
      rw [addProc, addMlqProc_eq]
      exact h.put prio proc
  | putProc proc => exact h.put prio proc
  | getProc fuel hGet => exact h.get hGet

/-- The slots are within their bounds in every state that calls lead to. -/
theorem slotsBounded_run {calls : List (MlqCall Pcb)}
    (run : Runs (MlqStep prio) Mlq.initial calls m) : m.SlotsBounded :=
  run.invariant Mlq.SlotsBounded (fun _ => Nat.zero_le _) fun _ _ _ h step =>
    slotsBounded_step h step

end Btlos
