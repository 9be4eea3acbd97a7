import Btlos.Library.Fifo
import Btlos.Library.Outcome
import Btlos.Sched.Queue

/-! `queue.c` with every access to its array. A place that is not part of the
queue holds whatever pointer was in it before, and an index outside the array has
no defined result. -/
namespace Btlos

open Transition

structure ArrayQueue (Ptr : Type*) where
  proc : Int → Ptr
  size : Int

variable {Ptr : Type*}

namespace ArrayQueue

/-- Read `q->proc[i]`. -/
def readProc (i : Int) (q : ArrayQueue Ptr) : Outcome (ArrayQueue Ptr) Ptr :=
  if 0 ≤ i ∧ i < maxQueueSize then .ok (q.proc i) q else .undefined

/-- Write `q->proc[i]`. -/
def writeProc (i : Int) (proc : Ptr) (q : ArrayQueue Ptr) : Outcome (ArrayQueue Ptr) Unit :=
  if 0 ≤ i ∧ i < maxQueueSize then .ok () { q with proc := Function.update q.proc i proc }
  else .undefined

/-- `init_queue`. The array is left as it was allocated. -/
def initQueue (fresh : Int → Ptr) : ArrayQueue Ptr := ⟨fresh, 0⟩

/-- `empty`. -/
def isEmpty (q : ArrayQueue Ptr) : Bool := q.size == 0

def enqueue (proc : Ptr) (q : ArrayQueue Ptr) : Outcome (ArrayQueue Ptr) Unit :=
  if q.size < maxQueueSize - 1 then
    (q.writeProc q.size proc).bind fun _ q => .ok () { q with size := q.size + 1 }
  else .ok () q

/-- The loop of `dequeue` from `i` on, with the number of rounds that are left. -/
def shiftLoop : Nat → Int → ArrayQueue Ptr → Outcome (ArrayQueue Ptr) Unit
  | 0, _, q => .ok () q
  | left + 1, i, q =>
      (q.readProc (i + 1)).bind fun next q =>
        (q.writeProc i next).bind fun _ q => shiftLoop left (i + 1) q

/-- What both variants of `dequeue` do once they have an index. The memory that
is allocated for the result is never used. -/
def takeAt (index : Int) (q : ArrayQueue Ptr) : Outcome (ArrayQueue Ptr) (Option Ptr) :=
  (q.readProc index).bind fun newProc q =>
    (q.shiftLoop (q.size - index).toNat index).bind fun _ q =>
      .ok (some newProc) { q with size := q.size - 1 }

/-- `dequeue` with `MLQ_SCHED`. -/
def dequeue (q : ArrayQueue Ptr) : Outcome (ArrayQueue Ptr) (Option Ptr) :=
  if q.isEmpty then .ok none q else q.takeAt 0

/-- The calls of a queue. That a process has been accepted shows in the size. -/
inductive Step : ArrayQueue Ptr → Fifo.Event Ptr → ArrayQueue Ptr → Prop where
  | enqueue {q t : ArrayQueue Ptr} {accepted : Bool} (proc : Ptr)
      (hCall : q.enqueue proc = .ok () t) (hAccepted : accepted = decide (t.size = q.size + 1)) :
      Step q (.insert proc accepted) t
  | dequeue {q t : ArrayQueue Ptr} {result : Option Ptr} (hCall : q.dequeue = .ok result t) :
      Step q (.take result) t

/-! What the accesses do to the processes that wait -/

/-- The processes of the queue, the first one first. -/
def waiting (q : ArrayQueue Ptr) : List Ptr := List.ofFn fun i : Fin q.size.toNat => q.proc i

/-- The capacity that `enqueue` keeps to. -/
def Fits (q : ArrayQueue Ptr) : Prop := 0 ≤ q.size ∧ q.size ≤ maxQueueSize - 1

variable {q : ArrayQueue Ptr}

@[simp] theorem length_waiting (q : ArrayQueue Ptr) : q.waiting.length = q.size.toNat := by
  simp [waiting]

theorem waiting_getElem? (q : ArrayQueue Ptr) (i : Nat) :
    q.waiting[i]? = if i < q.size.toNat then some (q.proc i) else none := by
  by_cases h : i < q.size.toNat
  · simp [waiting, h]
  · simp [waiting, h]

theorem waiting_eq_nil (h : q.Fits) : q.waiting = [] ↔ q.size = 0 := by
  rw [← List.length_eq_zero_iff, length_waiting]
  have := h.1
  omega

theorem fits_initQueue (fresh : Int → Ptr) : (initQueue fresh).Fits := by
  constructor <;> simp [initQueue]

@[simp] theorem waiting_initQueue (fresh : Int → Ptr) : (initQueue fresh).waiting = [] := by
  simp [waiting, initQueue]

/-- The shift moves every later place of the queue down by one, and reads the one
place after the last. -/
theorem shiftLoop_eq (left : Nat) {i : Int} (hLow : 0 ≤ i) (hHigh : i + left < maxQueueSize) :
    q.shiftLoop left i =
      .ok () { q with proc := fun j =>
        if i ≤ j ∧ j < i + left then q.proc (j + 1) else q.proc j } := by
  induction left generalizing i q with
  | zero =>
      have hSame : (fun j => if i ≤ j ∧ j < i + (0 : Nat) then q.proc (j + 1) else q.proc j) =
          q.proc := by
        funext j
        rw [if_neg (by omega)]
      rw [shiftLoop, hSame]
  | succ left ih =>
      rw [shiftLoop, readProc, if_pos (by omega), Outcome.bind_ok, writeProc, if_pos (by omega),
        Outcome.bind_ok, ih (by omega) (by omega)]
      congr 2
      funext j
      by_cases hHere : j = i
      · subst hHere
        rw [if_neg (by omega), if_pos (by omega)]
        exact Function.update_self _ _ _
      · by_cases hLater : i + 1 ≤ j ∧ j < i + 1 + left
        · rw [if_pos hLater, if_pos (by omega)]
          exact Function.update_of_ne (by omega) _ _
        · rw [if_neg hLater, if_neg (by omega)]
          exact Function.update_of_ne hHere _ _

/-- From a place of the queue its process is taken, and the others close up. -/
theorem takeAt_ok (h : q.Fits) {index : Nat} (hIndex : index < q.size.toNat) :
    ∃ t, q.takeAt index = .ok (some (q.proc index)) t ∧ t.Fits ∧
      t.waiting = q.waiting.eraseIdx index := by
  obtain ⟨hLow, hHigh⟩ := h
  have hRounds : (index : Int) + (q.size - index).toNat = q.size := by omega
  rw [takeAt, readProc, if_pos (by omega), Outcome.bind_ok,
    shiftLoop_eq _ (by omega) (by rw [hRounds]; omega), hRounds, Outcome.bind_ok]
  refine ⟨_, rfl, ⟨by simp only; omega, by simp only; omega⟩, ?_⟩
  apply List.ext_getElem?
  intro i
  rw [List.getElem?_eraseIdx, waiting_getElem?, waiting_getElem?, waiting_getElem?]
  simp only
  by_cases hBefore : i < index
  · have hLeft : i < (q.size - 1).toNat := by omega
    have hKept : ¬ ((index : Int) ≤ i ∧ (i : Int) < q.size) := by omega
    rw [if_pos hBefore, if_pos hLeft, if_neg hKept, if_pos (by omega)]
  · rw [if_neg hBefore]
    by_cases hIn : i + 1 < q.size.toNat
    · have hLeft : i < (q.size - 1).toNat := by omega
      have hMoved : (index : Int) ≤ i ∧ (i : Int) < q.size := by omega
      rw [if_pos hIn, if_pos hLeft, if_pos hMoved]
      rfl
    · rw [if_neg hIn, if_neg (by omega)]

theorem enqueue_room (h : q.Fits) (hRoom : q.size < maxQueueSize - 1) (proc : Ptr) :
    ∃ t, q.enqueue proc = .ok () t ∧ t.Fits ∧ t.size = q.size + 1 ∧
      t.waiting = q.waiting ++ [proc] := by
  obtain ⟨hLow, hHigh⟩ := h
  rw [enqueue, if_pos hRoom, writeProc, if_pos (by omega), Outcome.bind_ok]
  refine ⟨_, rfl, ⟨by simp only; omega, by simp only; omega⟩, rfl, ?_⟩
  have hLast : ((q.size.toNat : Nat) : Int) = q.size := by omega
  apply List.ext_getElem?
  intro i
  rw [waiting_getElem?, List.getElem?_append, waiting_getElem?, length_waiting]
  simp only
  rcases Nat.lt_trichotomy i q.size.toNat with hi | rfl | hi
  · rw [if_pos (by omega), if_pos hi, if_pos hi, Function.update_of_ne (by omega)]
  · rw [if_pos (by omega), if_neg (by omega), hLast, Function.update_self]
    simp
  · rw [if_neg (by omega), if_neg (by omega), List.getElem?_eq_none (by simp; omega)]

theorem enqueue_full (hFull : ¬ q.size < maxQueueSize - 1) (proc : Ptr) :
    q.enqueue proc = .ok () q := by
  rw [enqueue, if_neg hFull]

/-- The first process is taken, if there is one. -/
theorem dequeue_ok (h : q.Fits) :
    ∃ t, q.dequeue = .ok q.waiting.head? t ∧ t.Fits ∧ t.waiting = q.waiting.tail := by
  rw [dequeue, isEmpty]
  by_cases hEmpty : q.size = 0
  · have hNone := (waiting_eq_nil h).mpr hEmpty
    rw [if_pos (by simpa using hEmpty)]
    exact ⟨q, by rw [hNone]; rfl, h, by rw [hNone]; rfl⟩
  · have hFirst : 0 < q.size.toNat := by have := h.1; omega
    obtain ⟨t, hTake, hFits, hRest⟩ := takeAt_ok h hFirst
    rw [if_neg (by simpa using hEmpty)]
    refine ⟨t, ?_, hFits, ?_⟩
    · rw [List.head?_eq_getElem?, waiting_getElem?, if_pos hFirst]
      exact hTake
    · rw [hRest, List.eraseIdx_zero]

/-! The queue against a FIFO -/

/-- A call is one of a FIFO with one place less than the array has. -/
theorem Step.fifo {t : ArrayQueue Ptr} {event : Fifo.Event Ptr} (h : q.Fits)
    (step : Step q event t) :
    Fifo.Step (maxQueueSize - 1) q.waiting event t.waiting ∧ t.Fits := by
  have hMax : (maxQueueSize : Int) = 10 := rfl
  have hLow := h.1
  cases step with
  | enqueue proc hCall hAccepted =>
      by_cases hRoom : q.size < maxQueueSize - 1
      · obtain ⟨t', hEnqueue, hFits, hSize, hWaiting⟩ := enqueue_room h hRoom proc
        obtain ⟨-, rfl⟩ := Outcome.ok.inj (hEnqueue.symm.trans hCall)
        rw [hAccepted, decide_eq_true hSize, hWaiting]
        refine ⟨.accept proc ?_, hFits⟩
        rw [length_waiting]
        omega
      · obtain ⟨-, rfl⟩ := Outcome.ok.inj ((enqueue_full hRoom proc).symm.trans hCall)
        rw [hAccepted, decide_eq_false (by omega)]
        refine ⟨.refuse proc ?_, h⟩
        rw [length_waiting]
        omega
  | dequeue hCall =>
      obtain ⟨t', hDequeue, hFits, hWaiting⟩ := dequeue_ok h
      obtain ⟨rfl, rfl⟩ := Outcome.ok.inj (hDequeue.symm.trans hCall)
      rw [hWaiting]
      refine ⟨?_, hFits⟩
      cases q.waiting with
      | nil => exact .idle
      | cons proc rest => exact .take proc rest

/-- After these calls the queue is what a FIFO would be, and every next call
stays within the array. -/
structure RefinesFifo (past : List (Fifo.Event Ptr)) (q : ArrayQueue Ptr) : Prop where
  order : Fifo.taken past ++ q.waiting = Fifo.accepted past
  size_nonneg : 0 ≤ q.size
  size_le : q.size ≤ maxQueueSize - 1
  enqueue_room : q.waiting.length < maxQueueSize - 1 → ∀ proc, ∃ t,
    q.enqueue proc = .ok () t ∧ t.waiting = q.waiting ++ [proc]
  enqueue_full : ¬ q.waiting.length < maxQueueSize - 1 → ∀ proc, q.enqueue proc = .ok () q
  dequeue : ∃ result t, q.dequeue = .ok result t ∧ t.waiting = q.waiting.tail ∧
    (∀ proc, result = some proc ↔ (Fifo.accepted past)[(Fifo.taken past).length]? = some proc) ∧
    (result = none ↔ Fifo.taken past = Fifo.accepted past)

/-- Every run of calls refines a FIFO, whatever the allocated array holds. -/
theorem refinesFifo_run {fresh : Int → Ptr} {past : List (Fifo.Event Ptr)} {q : ArrayQueue Ptr}
    (run : Runs Step (initQueue fresh) past q) : RefinesFifo past q := by
  obtain ⟨hRun, hFits⟩ := run.refines waiting Fits (fits_initQueue fresh) fun _ _ _ h step =>
    step.fifo h
  rw [waiting_initQueue] at hRun
  have hOrder := Fifo.taken_append_waiting hRun
  have hLow := hFits.1
  have hMax : (maxQueueSize : Int) = 10 := rfl
  refine ⟨hOrder, hFits.1, hFits.2, fun hRoom proc => ?_, fun hFull proc => ?_, ?_⟩
  · rw [length_waiting] at hRoom
    obtain ⟨t, hCall, -, -, hWaiting⟩ := ArrayQueue.enqueue_room hFits (by omega) proc
    exact ⟨t, hCall, hWaiting⟩
  · rw [length_waiting] at hFull
    exact ArrayQueue.enqueue_full (by omega) proc
  · obtain ⟨t, hCall, -, hWaiting⟩ := dequeue_ok hFits
    refine ⟨q.waiting.head?, t, hCall, hWaiting, fun proc => ?_, ?_⟩
    · rw [← hOrder, List.getElem?_append_right le_rfl, Nat.sub_self, List.head?_eq_getElem?]
    · rw [List.head?_eq_none_iff, ← hOrder, List.self_eq_append_right]

/-- Two processes are put into a queue and the first one is taken. -/
theorem refinesFifo_run_two : ∃ q : ArrayQueue Nat,
    RefinesFifo [.insert 5 true, .insert 6 true, .take (some 5)] q := by
  have hFirst : Runs Step (initQueue fun _ => 0) [.insert 5 true] _ := Runs.one (.enqueue 5 rfl rfl)
  exact ⟨_, refinesFifo_run ((hFirst.snoc (.enqueue 6 rfl rfl)).snoc (.dequeue rfl))⟩

/-! The queues of the scheduler -/

/-- The array holds the processes of a queue of the scheduler. -/
structure Represents {Pcb : Type*} (q : ArrayQueue (Option Pcb)) (abstract : Queue Pcb) :
    Prop where
  fits : q.Fits
  waiting : q.waiting = abstract.procs.map some

section Scheduler

variable {Pcb : Type*} {q : ArrayQueue (Option Pcb)} {abstract : Queue Pcb}

theorem Represents.size (h : q.Represents abstract) : q.size = abstract.size := by
  have hLength := congrArg List.length h.waiting
  rw [length_waiting, List.length_map, Queue.length_procs] at hLength
  have := h.fits.1
  omega

/-- The queues of the scheduler put processes in as the array does. -/
theorem Represents.enqueue (h : q.Represents abstract) (proc : Pcb) :
    ∃ t, q.enqueue (some proc) = .ok () t ∧ t.Represents (Btlos.enqueue abstract proc) := by
  have hMax : (maxQueueSize : Int) = 10 := rfl
  have hSize := h.size
  by_cases hRoom : q.size < maxQueueSize - 1
  · obtain ⟨t, hCall, hFits, -, hWaiting⟩ := ArrayQueue.enqueue_room h.fits hRoom (some proc)
    refine ⟨t, hCall, hFits, ?_⟩
    rw [hWaiting, h.waiting, procs_enqueue, Queue.length_procs, if_pos (by omega), List.map_append]
    rfl
  · refine ⟨q, ArrayQueue.enqueue_full hRoom _, h.fits, ?_⟩
    rw [h.waiting, procs_enqueue, Queue.length_procs, if_neg (by omega)]

/-- And they take them out as it does. -/
theorem Represents.dequeue (h : q.Represents abstract) :
    ∃ t, q.dequeue = .ok ((Btlos.dequeue abstract).1.map some) t ∧
      t.Represents (Btlos.dequeue abstract).2 := by
  obtain ⟨t, hCall, hFits, hWaiting⟩ := dequeue_ok h.fits
  refine ⟨t, ?_, hFits, ?_⟩
  · rw [hCall, h.waiting, List.head?_map, dequeue_fst]
  · rw [hWaiting, h.waiting, procs_dequeue, List.map_tail]

end Scheduler

end ArrayQueue

end Btlos
