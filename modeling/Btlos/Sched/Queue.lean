import Mathlib.Data.List.OfFn
import Mathlib.Logic.Function.Basic
import Mathlib.Tactic.Common

/-! The array queue of `queue.c`. The array keeps what was in a place that is no
longer in use; the processes of the queue are those in its first `size` places. -/
namespace Btlos

abbrev maxQueueSize : Nat := 10

/-- A queue whose accesses stay within the array, also those to the place after
the last process. -/
structure Queue (Pcb : Type*) where
  proc : Nat → Option Pcb
  size : Nat
  slots : Nat
  size_lt : size < maxQueueSize
  filled : ∀ i < size, (proc i).isSome

variable {Pcb : Type*}

def empty (q : Queue Pcb) : Bool := q.size == 0

/-- A full queue is left as it is, and the caller is not told. -/
def enqueue (q : Queue Pcb) (proc : Pcb) : Queue Pcb :=
  if h : q.size < maxQueueSize - 1 then
    { q with
      proc := Function.update q.proc q.size (some proc)
      size := q.size + 1
      size_lt := by omega
      filled := by
        intro i hi
        by_cases hLast : i = q.size
        · simp [hLast]
        · simpa [Function.update_of_ne hLast] using q.filled i (by omega) }
  else q

/-- The loop of `dequeue` from `i` on, with the number of rounds that are left. -/
def shiftLoop (proc : Nat → Option Pcb) (i : Nat) : Nat → Nat → Option Pcb
  | 0 => proc
  | left + 1 => shiftLoop (Function.update proc i (proc (i + 1))) (i + 1) left

theorem shiftLoop_apply (proc : Nat → Option Pcb) (i left j : Nat) :
    shiftLoop proc i left j = if i ≤ j ∧ j < i + left then proc (j + 1) else proc j := by
  induction left generalizing proc i with
  | zero =>
      rw [shiftLoop, if_neg (by omega)]
  | succ left ih =>
      rw [shiftLoop, ih]
      by_cases hHere : j = i
      · subst hHere
        simp
      · rw [Function.update_of_ne hHere]
        by_cases hLater : i + 1 ≤ j ∧ j < i + 1 + left
        · rw [if_pos hLater, if_pos (by omega), Function.update_of_ne (by omega)]
        · rw [if_neg hLater, if_neg (by omega)]

/-- The variant for the multi-level queue, which takes the first process. -/
def dequeue (q : Queue Pcb) : Option Pcb × Queue Pcb :=
  if h : q.size = 0 then (none, q)
  else (q.proc 0,
    { q with
      proc := shiftLoop q.proc 0 q.size
      size := q.size - 1
      size_lt := by have := q.size_lt; omega
      filled := by
        intro i hi
        rw [shiftLoop_apply, if_pos (by omega)]
        exact q.filled (i + 1) (by omega) })

/-- The processes in the queue, the first one first. -/
def Queue.procs (q : Queue Pcb) : List Pcb :=
  List.ofFn fun i : Fin q.size => (q.proc i).get (q.filled i i.isLt)

@[simp] theorem Queue.length_procs (q : Queue Pcb) : q.procs.length = q.size := by
  simp [procs]

theorem Queue.procs_getElem? (q : Queue Pcb) (i : Nat) :
    q.procs[i]? = if i < q.size then q.proc i else none := by
  by_cases h : i < q.size
  · simp [procs, h]
  · simp [procs, h]

theorem Queue.procs_eq_nil {q : Queue Pcb} : q.procs = [] ↔ q.size = 0 := by
  rw [← List.length_eq_zero_iff, length_procs]

theorem empty_iff {q : Queue Pcb} : empty q = true ↔ q.procs = [] := by
  rw [empty, beq_iff_eq, Queue.procs_eq_nil]

@[simp] theorem slots_enqueue (q : Queue Pcb) (proc : Pcb) :
    (enqueue q proc).slots = q.slots := by
  rw [enqueue]
  split_ifs <;> rfl

/-- The last place of the array is never used. -/
theorem procs_enqueue (q : Queue Pcb) (proc : Pcb) :
    (enqueue q proc).procs =
      if q.procs.length < maxQueueSize - 1 then q.procs ++ [proc] else q.procs := by
  rw [enqueue, Queue.length_procs]
  split_ifs with h
  · apply List.ext_getElem?
    intro i
    rw [Queue.procs_getElem?, List.getElem?_append, Queue.procs_getElem?, Queue.length_procs]
    rcases Nat.lt_trichotomy i q.size with hi | rfl | hi
    · simp [hi, Nat.lt_succ_of_lt hi, Function.update_of_ne hi.ne]
    · simp
    · have hPast : ¬ i < q.size + 1 := by omega
      simp [hPast, hi.not_gt, show ¬ i - q.size = 0 by omega]
  · rfl

theorem dequeue_fst (q : Queue Pcb) : (dequeue q).1 = q.procs.head? := by
  rw [dequeue, List.head?_eq_getElem?, Queue.procs_getElem?]
  split_ifs with h h' h'
  · omega
  · rfl
  · rfl
  · omega

theorem procs_dequeue (q : Queue Pcb) : (dequeue q).2.procs = q.procs.tail := by
  rw [dequeue]
  split_ifs with h
  · simp [Queue.procs_eq_nil.mpr h]
  · apply List.ext_getElem?
    intro i
    rw [List.getElem?_tail, Queue.procs_getElem?, Queue.procs_getElem?]
    simp only [shiftLoop_apply]
    by_cases hi : i < q.size - 1
    · rw [if_pos hi, if_pos (by omega), if_pos (by omega)]
    · rw [if_neg hi, if_neg (by omega)]

@[simp] theorem slots_dequeue (q : Queue Pcb) : (dequeue q).2.slots = q.slots := by
  rw [dequeue]
  split_ifs <;> rfl

end Btlos
