import Btlos.Library.TimeShare
import Btlos.Sched.Mlq
import Mathlib.Order.Minimal

/-! The search of `get_mlq_proc` finds what the time-sharing policy says, in at
most two laps over the queues. -/
namespace Btlos

open Transition TimeShare

variable {Pcb : Type*} {m t : Mlq Pcb} {prio : Pcb → Nat}

/-- The slots that a queue gets in a cycle. -/
def quota (level : Fin maxPrio) : Nat := maxPrio - level

def Mlq.ready (m : Mlq Pcb) : Ready (Fin maxPrio) Pcb := ⟨m.waiting, m.slots, m.currentPrio⟩

/-- The same queues with the search at another priority. -/
def Mlq.at (m : Mlq Pcb) (level : Fin maxPrio) : Mlq Pcb := { m with currentPrio := level }

theorem Mlq.SlotsBounded.servable_iff (h : m.SlotsBounded) (level : Fin maxPrio) :
    m.Servable level ↔ m.ready.Open quota level := by
  have hLe := h level
  apply and_congr_right
  intro _
  change m.slots level ≠ maxPrio - level ↔ m.slots level < maxPrio - level
  omega

/-- Queues that cannot be served are passed one after the other. -/
theorem searchLoop_skip (fuel : Nat) (level : Fin maxPrio) (hFrom : m.currentPrio ≤ level)
    (hClosed : ∀ other, m.currentPrio ≤ other → other < level → ¬ m.Servable other) :
    searchLoop (fuel + (level - m.currentPrio)) m = searchLoop fuel (m.at level) := by
  obtain ⟨gap, hGap⟩ : ∃ gap, (level : Nat) = m.currentPrio + gap :=
    ⟨level - m.currentPrio, by have := Fin.le_def.mp hFrom; omega⟩
  have hFuel : (level : Nat) - m.currentPrio = gap := by omega
  rw [hFuel]
  clear hFuel
  induction gap generalizing m with
  | zero =>
      obtain rfl : m.currentPrio = level := Fin.ext hGap.symm
      rfl
  | succ gap ih =>
      have hLt : (m.currentPrio : Nat) + 1 < maxPrio := by have := level.isLt; omega
      have hHere : m.currentPrio < level := Fin.lt_def.mpr (by omega)
      rw [← Nat.add_assoc, searchLoop_next _ (hClosed _ le_rfl hHere), (nextQueue_of_lt hLt).2]
      refine ih (m := m.at ⟨m.currentPrio + 1, hLt⟩) (Fin.le_def.mpr ?_) ?_ ?_
      · change (m.currentPrio : Nat) + 1 ≤ level
        omega
      · intro other hOther hBelow
        refine hClosed other (le_trans (Fin.le_def.mpr ?_) hOther) hBelow
        exact Nat.le_succ _
      · change (level : Nat) = m.currentPrio + 1 + gap
        omega

/-- When no queue from here on can be served, the slots are reset. -/
theorem searchLoop_lap (fuel : Nat)
    (hClosed : ∀ other, m.currentPrio ≤ other → ¬ m.Servable other) :
    searchLoop (fuel + (maxPrio - m.currentPrio)) m = searchLoop fuel (resetSlots m) := by
  have hLt := m.currentPrio.isLt
  have hFuel : fuel + (maxPrio - m.currentPrio) =
      fuel + 1 + ((Fin.last 139 : Fin maxPrio) - m.currentPrio) := by
    have hLast : ((Fin.last 139 : Fin maxPrio) : Nat) = maxPrio - 1 := rfl
    omega
  have hLast : m.currentPrio ≤ Fin.last 139 := Fin.le_last _
  rw [hFuel, searchLoop_skip (fuel + 1) (Fin.last 139) hLast fun other h _ => hClosed other h,
    searchLoop_next fuel (m := m.at (Fin.last 139)) (hClosed _ hLast), (nextQueue_last rfl).2]
  rfl

/-- Serving the current queue is what the policy does with it. -/
theorem serveCurrent_ready {proc : Pcb}
    (hHead : (m.waiting m.currentPrio).head? = some proc) :
    ∃ t, serveCurrent m = (some proc, t) ∧ t.ready = m.ready.serve m.currentPrio m.slots := by
  refine ⟨(serveCurrent m).2, Prod.ext ((serveCurrent_fst m).trans hHead) rfl, ?_⟩
  rw [Mlq.ready, waiting_serveCurrent, slots_serveCurrent]
  rfl

/-- Passing queues that cannot be served up to one that can. -/
private theorem searchLoop_find (fuel : Nat) (level : Fin maxPrio) (hFrom : m.currentPrio ≤ level)
    (hClosed : ∀ other, m.currentPrio ≤ other → other < level → ¬ m.Servable other)
    (hServable : m.Servable level) :
    ∃ proc t, searchLoop (fuel + 1 + (level - m.currentPrio)) m = some (some proc, t) ∧
      (m.waiting level).head? = some proc ∧ t.ready = m.ready.serve level m.slots := by
  obtain ⟨proc, hHead⟩ : ∃ proc, (m.waiting level).head? = some proc :=
    Option.ne_none_iff_exists'.mp (by simpa using hServable.1)
  obtain ⟨t, hServe, hReady⟩ := serveCurrent_ready (m := m.at level) hHead
  refine ⟨proc, t, ?_, hHead, hReady⟩
  rw [searchLoop_skip (fuel + 1) level hFrom hClosed,
    searchLoop_serve fuel (m := m.at level) hServable, hServe]

private theorem exists_first {property : Fin maxPrio → Prop} (h : ∃ level, property level) :
    ∃ level, property level ∧ ∀ other, property other → level ≤ other := by
  obtain ⟨level, hLevel, hMin⟩ := exists_minimal_of_wellFoundedLT property h
  exact ⟨level, hLevel, fun other hOther => (le_total level other).elim id (hMin hOther)⟩

/-- In any state with a process that waits, two laps are enough: the search takes
the first queue that can be served from here on, or the first one with a process
after the slots have been reset. -/
theorem searchLoop_finds (hBusy : ∃ level, m.waiting level ≠ []) :
    ∃ level proc t, searchLoop (2 * maxPrio) m = some (some proc, t) ∧
      (m.waiting level).head? = some proc ∧
      ((m.currentPrio ≤ level ∧ m.Servable level ∧
          (∀ other, m.currentPrio ≤ other → m.Servable other → level ≤ other) ∧
          t.ready = m.ready.serve level m.slots) ∨
        ((∀ other, m.currentPrio ≤ other → ¬ m.Servable other) ∧
          (∀ other, m.waiting other ≠ [] → level ≤ other) ∧
          t.ready = (resetSlots m).ready.serve level (resetSlots m).slots)) := by
  have hCurrent := m.currentPrio.isLt
  by_cases hAny : ∃ level, m.currentPrio ≤ level ∧ m.Servable level
  · obtain ⟨level, ⟨hFrom, hServable⟩, hLeast⟩ := exists_first hAny
    obtain ⟨proc, t, hSearch, hHead, hReady⟩ := searchLoop_find
      (2 * maxPrio - (level - m.currentPrio) - 1) level hFrom
      (fun other hOther hBelow hOpen => hBelow.not_ge (hLeast other ⟨hOther, hOpen⟩)) hServable
    have hFuel : 2 * maxPrio - (level - m.currentPrio) - 1 + 1 + (level - m.currentPrio) =
        2 * maxPrio := by
      have := level.isLt
      omega
    rw [hFuel] at hSearch
    exact ⟨level, proc, t, hSearch, hHead, Or.inl ⟨hFrom, hServable,
      fun other hOther hOpen => hLeast other ⟨hOther, hOpen⟩, hReady⟩⟩
  · have hClosed : ∀ other, m.currentPrio ≤ other → ¬ m.Servable other :=
      fun other hOther hOpen => hAny ⟨other, hOther, hOpen⟩
    obtain ⟨level, hLevel, hLeast⟩ := exists_first hBusy
    have hServable : (resetSlots m).Servable level := by
      have := level.isLt
      exact ⟨hLevel, show 0 ≠ maxPrio - (level : Nat) by omega⟩
    obtain ⟨proc, t, hSearch, hHead, hReady⟩ := searchLoop_find (m := resetSlots m)
      (maxPrio + m.currentPrio - level - 1) level (Fin.zero_le _)
      (fun other _ hBelow hOpen => hBelow.not_ge (hLeast other hOpen.1)) hServable
    have hFuel : maxPrio + m.currentPrio - level - 1 + 1 +
        (level - ((resetSlots m).currentPrio : Nat)) + (maxPrio - m.currentPrio) =
        2 * maxPrio := by
      have := level.isLt
      have hZero : ((resetSlots m).currentPrio : Nat) = 0 := rfl
      omega
    rw [← searchLoop_lap _ hClosed, hFuel] at hSearch
    exact ⟨level, proc, t, hSearch, hHead, Or.inr ⟨hClosed, hLeast, hReady⟩⟩

/-- Where the slots are within their bounds, this is what the policy says. -/
theorem searchLoop_policy (h : m.SlotsBounded) (hBusy : ∃ level, m.waiting level ≠ []) :
    ∃ result t, searchLoop (2 * maxPrio) m = some (result, t) ∧
      Get quota m.ready result t.ready := by
  obtain ⟨level, proc, t, hSearch, hHead, hFound⟩ := searchLoop_finds hBusy
  refine ⟨some proc, t, hSearch, ?_⟩
  rcases hFound with ⟨hFrom, hServable, hLeast, hReady⟩ | ⟨hClosed, hLeast, hReady⟩
  · rw [hReady]
    apply Get.go hFrom ((h.servable_iff level).mp hServable) _ hHead
    intro other hOther hOpen
    exact hLeast other hOther ((h.servable_iff other).mpr hOpen)
  · rw [hReady]
    apply Get.wrap _ hLeast hHead
    intro other hOther hOpen
    exact hClosed other hOther ((h.servable_iff other).mpr hOpen)

/-- A call of `get_proc` returns, and gives the next process by the policy. -/
theorem getProc_returns (h : m.SlotsBounded) :
    ∃ result t, (∀ fuel, 2 * maxPrio ≤ fuel → getProc fuel m = some (result, t)) ∧
      Get quota m.ready result t.ready := by
  by_cases hEmpty : queueEmpty m = 1
  · refine ⟨none, m, fun fuel _ => ?_, Get.idle (queueEmpty_eq_one.mp hEmpty)⟩
    rw [getProc, getMlqProc, if_pos hEmpty]
  · have hBusy : ∃ level, m.waiting level ≠ [] := by
      by_contra hNone
      exact hEmpty (queueEmpty_eq_one.mpr fun level => by_contra fun h => hNone ⟨level, h⟩)
    obtain ⟨result, t, hSearch, hGet⟩ := searchLoop_policy h hBusy
    refine ⟨result, t, fun fuel hFuel => ?_, hGet⟩
    rw [getProc, getMlqProc, if_neg hEmpty]
    exact searchLoop_mono hSearch hFuel

/-- Whatever a call of `get_proc` returns is the next process by the policy. -/
theorem getProc_get (h : m.SlotsBounded) {fuel : Nat} {result : Option Pcb}
    (hGet : getProc fuel m = some (result, t)) : Get quota m.ready result t.ready := by
  obtain ⟨result', t', hReturns, hPolicy⟩ := getProc_returns h
  have hMore := getProc_mono hGet (Nat.le_add_right fuel (2 * maxPrio))
  rw [hReturns _ (Nat.le_add_left _ _)] at hMore
  obtain ⟨rfl, rfl⟩ := Prod.mk.inj (Option.some.inj hMore)
  exact hPolicy

/-- In every reachable state `get_proc` returns, with NULL if and only if all
queues are empty, and it does the one thing that the policy allows. -/
theorem getProc_policy {calls : List (MlqCall Pcb)}
    (run : Runs (MlqStep prio) Mlq.initial calls m) :
    ∃ result t, (∀ fuel, 2 * maxPrio ≤ fuel → getProc fuel m = some (result, t)) ∧
      (result = none ↔ queueEmpty m = 1) ∧
      (queueEmpty m = 1 ↔ ∀ level, m.waiting level = []) ∧
      Get quota m.ready result t.ready ∧
      ∀ result' r, Get quota m.ready result' r → result' = result ∧ r = t.ready := by
  obtain ⟨result, t, hReturns, hGet⟩ := getProc_returns (slotsBounded_run run)
  refine ⟨result, t, hReturns, ?_, queueEmpty_eq_one, hGet, fun result' r hOther => ?_⟩
  · rw [queueEmpty_eq_one]
    exact hGet.eq_none_iff
  · exact hOther.unique hGet

/-- Two processes wait, at the priorities 3 and 7. -/
theorem getProc_policy_two : ∃ result t,
    (∀ fuel, 2 * maxPrio ≤ fuel →
      getProc fuel (addProc id (addProc id Mlq.initial 7) 3) = some (result, t)) ∧
      (result = none ↔ queueEmpty (addProc id (addProc id Mlq.initial 7) 3) = 1) ∧
      (queueEmpty (addProc id (addProc id Mlq.initial 7) 3) = 1 ↔
        ∀ level, (addProc id (addProc id Mlq.initial 7) 3).waiting level = []) ∧
      Get quota (addProc id (addProc id Mlq.initial 7) 3).ready result t.ready ∧
      ∀ result' r, Get quota (addProc id (addProc id Mlq.initial 7) 3).ready result' r →
        result' = result ∧ r = t.ready :=
  getProc_policy (Runs.snoc (Runs.one (.addProc Mlq.initial 7)) (.addProc _ 3))

end Btlos
