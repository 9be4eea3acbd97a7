import Btlos.Library.FirstLeast
import Btlos.Sched.ArrayQueue

/-! `dequeue` of `queue.c` in the build without `MLQ_SCHED`, which takes the
process with the least priority number. The search starts from a sentinel that
is smaller than most of the numbers a process can have. -/
namespace Btlos

/-- `MAX_INT`. -/
def maxInt : Int := 1000000

namespace ArrayQueue

variable {Ptr : Type*}

/-- The loop of `queuePeek` from `i` on. In the comparison the `int` on the left is
converted to the unsigned type of the priority. -/
def peekLoop (priority : Ptr → BitVec 32) :
    Nat → Int → Int → Int → ArrayQueue Ptr → Outcome (ArrayQueue Ptr) Int
  | 0, _, _, index, q => .ok index q
  | left + 1, i, maxPrio, index, q =>
      (q.readProc i).bind fun proc q =>
        if BitVec.ofInt 32 maxPrio > priority proc then
          peekLoop priority left (i + 1) (priority proc).toInt i q
        else peekLoop priority left (i + 1) maxPrio index q

def queuePeek (priority : Ptr → BitVec 32) (q : ArrayQueue Ptr) : Outcome (ArrayQueue Ptr) Int :=
  q.peekLoop priority q.size.toNat 0 maxInt (-1)

/-- `dequeue` without `MLQ_SCHED`. -/
def dequeueLeast (priority : Ptr → BitVec 32) (q : ArrayQueue Ptr) :
    Outcome (ArrayQueue Ptr) (Option Ptr) :=
  if q.isEmpty then .ok none q
  else (q.queuePeek priority).bind fun index q => q.takeAt index

/-- The priority as a number. -/
def priorityNumber (priority : Ptr → BitVec 32) (proc : Ptr) : Nat := (priority proc).toNat

/-- The index that the search holds for what it has found. -/
def peekIndex : Option Nat → Int
  | some i => i
  | none => -1

/-- The call takes the process that was put in first among those with the least
priority number, leaves the others in their order and stays within the array. -/
def TakesFirstLeast (priority : Ptr → BitVec 32) (q : ArrayQueue Ptr) : Prop :=
  ∃ i proc t, FirstLeast.At (priorityNumber priority) q.waiting i proc ∧
    q.dequeueLeast priority = .ok (some proc) t ∧ t.waiting = q.waiting.eraseIdx i

variable {priority : Ptr → BitVec 32} {q : ArrayQueue Ptr}

/-- Comparing with a sentinel that is a small number compares the numbers. -/
private theorem ofInt_gt_iff {best : Nat} (hBest : best ≤ 1000000) (proc : Ptr) :
    BitVec.ofInt 32 best > priority proc ↔ priorityNumber priority proc < best := by
  rw [gt_iff_lt, BitVec.lt_def, BitVec.toNat_ofInt, priorityNumber]
  omega

/-- A number below the sentinel is stored as it is. -/
private theorem toInt_priority {best : Nat} (hBest : best ≤ 1000000) {proc : Ptr}
    (hLower : priorityNumber priority proc < best) :
    (priority proc).toInt = priorityNumber priority proc := by
  rw [priorityNumber] at hLower ⊢
  rw [BitVec.toInt_eq_toNat_cond, if_pos (by omega)]

/-- The search from place `i` on, given what it has found before. -/
private theorem peekLoop_found (h : q.Fits) {bound : Nat} (hBound : bound ≤ 1000000) (left : Nat)
    {best i : Nat} {found : Option Nat} (hLeft : i + left = q.size.toNat)
    (hFound : FirstLeast.Found (priorityNumber priority) bound (q.waiting.take i) best found) :
    ∃ least result, FirstLeast.Found (priorityNumber priority) bound q.waiting least result ∧
      q.peekLoop priority left i best (peekIndex found) = .ok (peekIndex result) q := by
  induction left generalizing best i found with
  | zero =>
      have hAll : q.waiting.take i = q.waiting :=
        List.take_of_length_le (by rw [length_waiting]; omega)
      rw [hAll] at hFound
      exact ⟨best, found, hFound, rfl⟩
  | succ left ih =>
      have hMax : (maxQueueSize : Int) = 10 := rfl
      have hLow := h.1
      have hHigh := h.2
      have hBest : best ≤ 1000000 := hFound.best_le.trans hBound
      have hNext : q.waiting.take (i + 1) = q.waiting.take i ++ [q.proc i] := by
        rw [List.take_add_one, waiting_getElem?, if_pos (by omega)]
        rfl
      have hLength : (q.waiting.take i).length = i := by
        rw [List.length_take, length_waiting]
        omega
      rw [peekLoop, readProc, if_pos (by omega), Outcome.bind_ok]
      by_cases hLower : priorityNumber priority (q.proc i) < best
      · have hStep := hFound.lower hLower
        rw [← hNext, hLength] at hStep
        rw [if_pos ((ofInt_gt_iff hBest _).mpr hLower), toInt_priority hBest hLower]
        exact ih (i := i + 1) (by omega) hStep
      · have hStep := hFound.pass (not_lt.mp hLower)
        rw [← hNext] at hStep
        rw [if_neg (mt (ofInt_gt_iff hBest _).mp hLower)]
        exact ih (i := i + 1) (by omega) hStep

/-- What `queuePeek` returns: the place of the first process with the least number,
if that number is below the sentinel, and otherwise -1. -/
theorem queuePeek_found (priority : Ptr → BitVec 32) (h : q.Fits) :
    ∃ least result, FirstLeast.Found (priorityNumber priority) 1000000 q.waiting least result ∧
      q.queuePeek priority = .ok (peekIndex result) q :=
  peekLoop_found h le_rfl q.size.toNat (Nat.zero_add _) (FirstLeast.found_nil _ _)

/-- With the index -1 the call reads before the array. -/
private theorem takeAt_none (q : ArrayQueue Ptr) : q.takeAt (peekIndex none) = .undefined := rfl

/-- The call is right exactly when the number of some process in the queue is below
the sentinel. -/
theorem takesFirstLeast_iff (h : q.Fits) :
    TakesFirstLeast priority q ↔
      ∃ proc ∈ q.waiting, priorityNumber priority proc < 1000000 := by
  obtain ⟨least, result, hFound, hPeek⟩ := queuePeek_found priority h
  rw [← hFound.isSome_iff, TakesFirstLeast, dequeueLeast, hPeek, Outcome.bind_ok]
  cases hFound with
  | nothing =>
      apply iff_of_false _ (by simp)
      rintro ⟨i, proc, t, -, hCall, -⟩
      rw [takeAt_none] at hCall
      split_ifs at hCall
      cases hCall
  | @item i proc hLow hAt =>
      apply iff_of_true _ rfl
      obtain ⟨hi, hProc⟩ : i < q.size.toNat ∧ q.proc i = proc := by
        simpa [waiting_getElem?] using hAt.here
      have hBusy : ¬ q.isEmpty = true := by
        rw [isEmpty, beq_iff_eq]
        omega
      obtain ⟨t, hTake, -, hRest⟩ := takeAt_ok h hi
      rw [hProc] at hTake
      exact ⟨i, proc, t, hAt, by rw [if_neg hBusy]; exact hTake, hRest⟩

/-- Two processes wait, and the one put in last has the smaller number. -/
theorem takesFirstLeast_two : TakesFirstLeast id
      (⟨fun i => if i = 0 then 4294967295#32 else 7#32, 2⟩ : ArrayQueue (BitVec 32)) :=
  (takesFirstLeast_iff (by constructor <;> simp)).mpr ⟨7#32, by decide, by decide⟩

/-- A single process with the number of the sentinel: the index of the first one is
never set. -/
theorem dequeueLeast_of_sentinel : ¬ TakesFirstLeast id
    (⟨fun _ => 1000000#32, 1⟩ : ArrayQueue (BitVec 32)) := by
  rintro ⟨i, proc, t, -, hCall, -⟩
  have hEval : dequeueLeast id (⟨fun _ => 1000000#32, 1⟩ : ArrayQueue (BitVec 32)) = .undefined :=
    rfl
  rw [hEval] at hCall
  cases hCall

/-! The queues that the calls lead to -/

/-- The calls of a queue in that build. -/
inductive LeastStep (priority : Ptr → BitVec 32) :
    ArrayQueue Ptr → Fifo.Event Ptr → ArrayQueue Ptr → Prop where
  | enqueue {q t : ArrayQueue Ptr} {accepted : Bool} (proc : Ptr)
      (hCall : q.enqueue proc = .ok () t) (hAccepted : accepted = decide (t.size = q.size + 1)) :
      LeastStep priority q (.insert proc accepted) t
  | dequeue {q t : ArrayQueue Ptr} {result : Option Ptr}
      (hCall : q.dequeueLeast priority = .ok result t) : LeastStep priority q (.take result) t

/-- A call that has a defined result leaves a queue within its capacity. -/
theorem LeastStep.fits {t : ArrayQueue Ptr} {event : Fifo.Event Ptr} (h : q.Fits)
    (step : LeastStep priority q event t) : t.Fits := by
  cases step with
  | enqueue proc hCall hAccepted => exact ((Step.enqueue proc hCall hAccepted).fifo h).2
  | dequeue hCall =>
      obtain ⟨least, result, hFound, hPeek⟩ := queuePeek_found priority h
      rw [dequeueLeast, hPeek, Outcome.bind_ok] at hCall
      split_ifs at hCall
      · obtain ⟨-, rfl⟩ := Outcome.ok.inj hCall
        exact h
      · cases hFound with
        | nothing =>
            rw [takeAt_none] at hCall
            cases hCall
        | item hLow hAt =>
            have hPlace := hAt.here
            rw [waiting_getElem?] at hPlace
            obtain ⟨t', hTake, hFits, -⟩ := takeAt_ok h (Option.ite_some_none_eq_some.mp hPlace).1
            obtain ⟨-, rfl⟩ := Outcome.ok.inj (hTake.symm.trans hCall)
            exact hFits

/-- So the condition is about every queue that calls lead to. -/
theorem fits_run {fresh : Int → Ptr} {past : List (Fifo.Event Ptr)}
    (run : Transition.Runs (LeastStep priority) (initQueue fresh) past q) : q.Fits :=
  run.invariant Fits (fits_initQueue fresh) fun _ _ _ h step => step.fits h

end ArrayQueue

end Btlos
