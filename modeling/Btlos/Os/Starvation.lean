import Btlos.Library.Waiting
import Btlos.Os.Ownership

/-! How often a process that waits in a ready queue can be passed over: a bound
on the processes that the CPUs take before it, whatever the CPUs, the loader and
the other processes do. -/
namespace Btlos

open Transition TimeShare

variable {CpuId Mem : Type*}

theorem quota_pos (level : Fin maxPrio) : 0 < quota level := Nat.sub_pos_of_lt level.isLt

/-- All the slots of a cycle, `140 + 139 + ... + 1`. -/
theorem cycleTurns_quota : cycleTurns quota = 9870 := by
  decide +kernel

/-- An upper bound on the processes that go before and with the one at `position`. -/
def Mlq.wait (m : Mlq ProcId) (level : Fin maxPrio) (position : Nat) : Nat :=
  m.ready.wait quota level position

theorem wait_le_bound (m : Mlq ProcId) (level : Fin maxPrio) (position : Nat) :
    m.wait level position ≤ 9870 * (2 + position / (maxPrio - level)) := by
  have hBound : m.ready.wait quota level position ≤
      cycleTurns quota * (1 + cyclesFor (quota level) (position + 1)) := wait_le
  have hCycles : cyclesFor (quota level) (position + 1) = position / (maxPrio - level) + 1 := by
    change (position + 1 + quota level - 1) / quota level = position / quota level + 1
    rw [← Nat.add_div_right _ (quota_pos level)]
    congr 1
    omega
  rw [cycleTurns_quota, hCycles] at hBound
  calc m.wait level position
      ≤ 9870 * (1 + (position / (maxPrio - level) + 1)) := hBound
    _ = 9870 * (2 + position / (maxPrio - level)) := by omega

section Queues

variable {m t : Mlq ProcId} {prio : ProcId → Nat} {level : Fin maxPrio} {position : Nat}
  {proc other : ProcId}

/-- A process that is handed in stands behind all others. -/
theorem waits_putMlqProc (hWaits : (m.waiting level)[position]? = some proc) :
    ((putMlqProc prio m other).waiting level)[position]? = some proc ∧
      (putMlqProc prio m other).wait level position = m.wait level position := by
  constructor
  · rw [waiting_putMlqProc]
    cases m.joins? prio other with
    | none => exact hWaits
    | some _ => exact waiting_insert (r := m.ready) hWaits
  · rw [Mlq.wait, Mlq.ready, slots_putMlqProc, currentPrio_putMlqProc]
    exact wait_waiting (r := m.ready) _

/-- Whichever process `get_proc` returns, the others come nearer to their turn. -/
theorem waits_getProc {fuel : Nat} (hSlots : m.SlotsBounded)
    (hGet : getProc fuel m = some (some other, t))
    (hWaits : (m.waiting level)[position]? = some proc) (hOther : other ≠ proc) :
    ∃ left, left ≤ position ∧ (t.waiting level)[left]? = some proc ∧
      t.wait level left < m.wait level position := by
  cases (getProc_get hSlots hGet).wait_lt quota_pos hWaits with
  | inl hServed => exact absurd hServed hOther
  | inr hNearer => exact hNearer

end Queues

/-- A CPU has been given a process. -/
def OsCall.isDispatch : OsCall CpuId → Bool
  | .getProc _ (some _) => true
  | _ => false

def dispatches (calls : List (OsCall CpuId)) : Nat := calls.countP OsCall.isDispatch

theorem dispatches_append (calls later : List (OsCall CpuId)) :
    dispatches (calls ++ later) = dispatches calls + dispatches later := List.countP_append

variable [DecidableEq CpuId] {cfg : Config} {execute : ProcId → Inst → Mem → Int → Mem → Prop}
  {s t : Os CpuId Mem} {call : OsCall CpuId} {level : Fin maxPrio} {position : Nat}
  {proc : ProcId}

/-- In one step of any party, a process that is not taken stays in its queue, and
is nearer to its turn if another one is taken. -/
theorem waits_step (hSlots : s.mlq.SlotsBounded) (step : OsStep cfg execute s call t)
    (hWaits : s.At (.queue level position) proc) (hNot : ∀ c, call ≠ .getProc c (some proc)) :
    ∃ left, left ≤ position ∧ t.At (.queue level left) proc ∧
      t.mlq.wait level left + dispatches [call] ≤ s.mlq.wait level position := by
  obtain ⟨-, move⟩ := step
  cases move with
  | @getProc m result _ fuel c hLoc hGet =>
      cases result with
      | none =>
          have hSame : m.ready = s.mlq.ready := (getProc_get hSlots hGet).none_eq
          refine ⟨position, le_rfl, ?_, ?_⟩
          · change (m.ready.waiting level)[position]? = some proc
            rw [hSame]
            exact hWaits
          · change m.ready.wait quota level position ≤ s.mlq.ready.wait quota level position
            rw [hSame]
      | some other =>
          have hOther : other ≠ proc := by
            rintro rfl
            exact hNot c rfl
          obtain ⟨left, hLeft, hAt, hWait⟩ := waits_getProc hSlots hGet hWaits hOther
          exact ⟨left, hLeft, hAt, hWait⟩
  | putProc c hLoc hProc =>
      obtain ⟨hAt, hWait⟩ := waits_putMlqProc hWaits
      exact ⟨position, le_rfl, hAt, hWait.le⟩
  | addProc hLoc =>
      obtain ⟨hAt, hWait⟩ := waits_putMlqProc hWaits
      exact ⟨position, le_rfl, hAt, hWait.le⟩
  | _ => exact ⟨position, le_rfl, hWaits, le_rfl⟩

/-- A process that has not been taken is still in its queue, and every process
that was taken instead has brought it nearer to its turn. -/
theorem waits_run {later : List (OsCall CpuId)} (hOwned : s.Owned cfg)
    (run : Runs (OsStep cfg execute) s later t) (hWaits : s.At (.queue level position) proc)
    (hNot : ∀ c, .getProc c (some proc) ∉ later) :
    t.Owned cfg ∧ ∃ left, left ≤ position ∧ t.At (.queue level left) proc ∧
      t.mlq.wait level left + dispatches later ≤ s.mlq.wait level position := by
  induction run with
  | nil => exact ⟨hOwned, position, le_rfl, hWaits, le_rfl⟩
  | snoc prior last ih =>
      obtain ⟨hMiddle, left, hLeft, hAt, hWait⟩ :=
        ih fun c hMem => hNot c (List.mem_append_left _ hMem)
      obtain ⟨left', hLeft', hAt', hWait'⟩ := waits_step hMiddle.slots last hAt fun c hCall =>
        hNot c (hCall ▸ List.mem_append_right _ (List.mem_singleton_self _))
      refine ⟨owned_step hMiddle last, left', hLeft'.trans hLeft, hAt', ?_⟩
      rw [dispatches_append]
      omega

/-- In every run, with any number of CPUs and in every order of the steps, of which a
call of the scheduler is one: as long as a process at `position` of a queue has not been
taken, it moves only forward, and at most `9870 * (2 + position / (MAX_PRIO - prio))`
other processes are taken. -/
theorem passedOver_run {mem : Mem} {before later : List (OsCall CpuId)}
    (run : Runs (OsStep cfg execute) (Os.initial mem) before s)
    (hWaits : s.At (.queue level position) proc)
    (more : Runs (OsStep cfg execute) s later t)
    (hNot : ∀ c, .getProc c (some proc) ∉ later) :
    dispatches later ≤ 9870 * (2 + position / (maxPrio - level)) ∧
      ∃ left, left ≤ position ∧ t.At (.queue level left) proc := by
  obtain ⟨-, left, hLeft, hAt, hWait⟩ := waits_run (owned_run_of run) more hWaits hNot
  have hBound := wait_le_bound s.mlq level position
  exact ⟨by omega, left, hLeft, hAt⟩

section Example

/-- Two processes of one calculation, with the priorities 0 and 1. -/
def twoCalculations : Config where
  numProcesses := 2
  program := fun _ => some [⟨.calc, 0, 0, 0⟩]
  prio := fun proc => proc
  timeSlot := 1

/-- The process of priority 1 waits while the other one is taken. -/
theorem passedOver_run_once : ∃ s t : Os Unit Nat,
    Runs (OsStep twoCalculations calcSucceeds) s [.compute (), .getProc () (some 0)] t ∧
      dispatches ([.compute (), .getProc () (some 0)] : List (OsCall Unit)) ≤
        9870 * (2 + 0 / (140 - 1)) ∧
      ∃ left, left ≤ 0 ∧ t.At (.queue 1 left) 1 := by
  have hRun : ∃ s : Os Unit Nat,
      Runs (OsStep twoCalculations calcSucceeds) (Os.initial 0)
          [.load 0, .addProc 0, .load 1, .addProc 1] s ∧
        s.At (.queue 1 0) 1 ∧ ∃ t, Runs (OsStep twoCalculations calcSucceeds) s
          [.compute (), .getProc () (some 0)] t :=
    ⟨_, Runs.cons ⟨rfl, .load rfl (by decide) rfl⟩ <|
      Runs.cons ⟨rfl, .addProc rfl⟩ <|
      Runs.cons ⟨rfl, .load rfl (by decide) rfl⟩ <|
      Runs.one ⟨rfl, .addProc rfl⟩, rfl, _,
      Runs.cons ⟨rfl, .check () rfl⟩ <| Runs.one ⟨rfl, .getProc 1 () rfl rfl⟩⟩
  obtain ⟨s, run, hWaits, t, more⟩ := hRun
  exact ⟨s, t, more, passedOver_run run hWaits more fun c => by simp⟩

end Example

end Btlos
