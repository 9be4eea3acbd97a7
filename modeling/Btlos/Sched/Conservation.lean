import Btlos.Sched.Policy
import Mathlib.Data.Fintype.Basic

/-! What becomes of the processes that are handed to the multi-level queue. A
tally records them next to the queues and has no effect on these. -/
namespace Btlos

open Transition TimeShare

variable {Pcb : Type*}

/-- The processes in the ready queues. -/
def Mlq.readyProcs (m : Mlq Pcb) : Multiset Pcb := everyone m.waiting

theorem mem_readyProcs {m : Mlq Pcb} {proc : Pcb} :
    proc ∈ m.readyProcs ↔ ∃ level, proc ∈ m.waiting level := by
  rw [Mlq.readyProcs, mem_everyone]

/-- What `get_proc` returns is taken from the ready queues. -/
theorem readyProcs_getProc {m t : Mlq Pcb} {fuel : Nat} {result : Option Pcb}
    (hSlots : m.SlotsBounded) (hGet : getProc fuel m = some (result, t)) :
    t.readyProcs + result.toList = m.readyProcs :=
  (getProc_get hSlots hGet).everyone

/-- Next to the queues: the processes handed in, those of them for which there
was a place, and those that were returned. -/
structure Tally (Pcb : Type*) where
  mlq : Mlq Pcb
  handedIn : Multiset Pcb
  accepted : Multiset Pcb
  returned : Multiset Pcb

def Tally.initial : Tally Pcb := ⟨Mlq.initial, 0, 0, 0⟩

def Tally.handIn (prio : Pcb → Nat) (s : Tally Pcb) (proc : Pcb) (t : Mlq Pcb) : Tally Pcb where
  mlq := t
  handedIn := proc ::ₘ s.handedIn
  accepted := if (s.mlq.joins? prio proc).isSome then proc ::ₘ s.accepted else s.accepted
  returned := s.returned

/-- The tally after a call that leaves the queues as `t`. -/
def Tally.record (prio : Pcb → Nat) (s : Tally Pcb) : MlqCall Pcb → Mlq Pcb → Tally Pcb
  | .addProc proc, t => s.handIn prio proc t
  | .putProc proc, t => s.handIn prio proc t
  | .getProc result, t => { s with mlq := t, returned := s.returned + result.toList }

/-- Every step of the queues, with its record. -/
def TallyStep (prio : Pcb → Nat) (s : Tally Pcb) (call : MlqCall Pcb) (s' : Tally Pcb) : Prop :=
  ∃ t, MlqStep prio s.mlq call t ∧ s' = s.record prio call t

/-- Processes are handed in for a priority that exists, and not while they wait. -/
def WellHanded (prio : Pcb → Nat) (s : Tally Pcb) : MlqCall Pcb → Prop
  | .addProc proc => prio proc < maxPrio ∧ proc ∉ s.mlq.readyProcs
  | .putProc proc => prio proc < maxPrio ∧ proc ∉ s.mlq.readyProcs
  | .getProc _ => True

/-- No process in the queues is lost or duplicated. -/
def Tally.Conserved (s : Tally Pcb) : Prop :=
  s.mlq.readyProcs + s.returned = s.accepted

section Step

variable {prio : Pcb → Nat} {s s' : Tally Pcb} {m : Mlq Pcb} {proc : Pcb}

theorem readyProcs_putMlqProc (m : Mlq Pcb) (proc : Pcb) :
    (putMlqProc prio m proc).readyProcs =
      if (m.joins? prio proc).isSome then proc ::ₘ m.readyProcs else m.readyProcs := by
  rw [Mlq.readyProcs, waiting_putMlqProc]
  cases hJoins : m.joins? prio proc with
  | none => simp [Mlq.readyProcs]
  | some level =>
      rw [Option.isSome_some, if_pos rfl, Mlq.readyProcs]
      exact everyone_concat m.waiting level proc

private theorem conserved_handIn (h : s.Conserved) (proc : Pcb) :
    (s.handIn prio proc (putMlqProc prio s.mlq proc)).Conserved := by
  have hAll : s.mlq.readyProcs + s.returned = s.accepted := h
  rw [Tally.Conserved, Tally.handIn]
  dsimp only
  rw [readyProcs_putMlqProc]
  split_ifs
  · rw [Multiset.cons_add, hAll]
  · exact hAll

theorem conserved_step {call : MlqCall Pcb} (hSlots : s.mlq.SlotsBounded) (h : s.Conserved)
    (step : TallyStep prio s call s') : s'.Conserved := by
  obtain ⟨t, hStep, rfl⟩ := step
  cases hStep with
  | addProc proc =>
      rw [addProc, addMlqProc_eq]
      exact conserved_handIn h proc
  | putProc proc => exact conserved_handIn h proc
  | getProc fuel hGet =>
      have hAll : s.mlq.readyProcs + s.returned = s.accepted := h
      change t.readyProcs + (s.returned + _) = s.accepted
      rw [← hAll, ← readyProcs_getProc hSlots hGet, ← add_assoc, add_right_comm]

end Step

@[simp] theorem mlq_record (prio : Pcb → Nat) (s : Tally Pcb) (call : MlqCall Pcb) (t : Mlq Pcb) :
    (s.record prio call t).mlq = t := by
  cases call <;> rfl

/-- After any calls, the processes in the ready queues are those that were handed
in while fewer than `MAX_QUEUE_SIZE - 1` waited at their priority, less those that
`get_proc` returned. -/
theorem conserved_run {prio : Pcb → Nat} {calls : List (MlqCall Pcb)} {s : Tally Pcb}
    (run : Runs (TallyStep prio) Tally.initial calls s) :
    s.mlq.readyProcs + s.returned = s.accepted := by
  refine (run.invariant (fun s => s.mlq.SlotsBounded ∧ s.Conserved)
    ⟨fun _ => Nat.zero_le _, ?_⟩ ?_).2
  · have hEmpty : everyone (Mlq.initial : Mlq Pcb).waiting = 0 := everyone_eq_zero waiting_initial
    change everyone (Mlq.initial : Mlq Pcb).waiting + 0 = 0
    rw [hEmpty, add_zero]
  · rintro s call s' ⟨hSlots, hConserved⟩ step
    refine ⟨?_, conserved_step hSlots hConserved step⟩
    obtain ⟨t, hStep, rfl⟩ := step
    rw [mlq_record]
    exact slotsBounded_step hSlots hStep

/-- Two processes go in and the first of them comes out. -/
theorem conserved_run_get : ∃ s : Tally Nat,
    Runs (TallyStep id) Tally.initial [.addProc 3, .putProc 5, .getProc (some 3)] s ∧
      s.mlq.readyProcs + s.returned = s.accepted := by
  have hRun : ∃ s : Tally Nat,
      Runs (TallyStep id) Tally.initial [.addProc 3, .putProc 5, .getProc (some 3)] s :=
    ⟨_, Runs.snoc (Runs.snoc (Runs.one ⟨_, .addProc _ 3, rfl⟩) ⟨_, .putProc _ 5, rfl⟩)
      ⟨_, .getProc 10 rfl, rfl⟩⟩
  obtain ⟨s, run⟩ := hRun
  exact ⟨s, run, conserved_run run⟩

section Full

/-- Waiting lists in which only the processes 0, ..., `n` - 1 wait, at one priority. -/
private def onlyAt (level : Fin maxPrio) (n : Nat) : Fin maxPrio → List Nat :=
  Function.update (fun _ => []) level (List.range n)

private theorem everyone_onlyAt (level : Fin maxPrio) (n : Nat) :
    everyone (onlyAt level n) = Multiset.range n := by
  have h := everyone_update (fun _ => ([] : List Nat)) level (List.range n)
  rw [everyone_eq_zero fun _ => rfl, zero_add, Multiset.coe_nil, add_zero] at h
  exact h

private theorem waiting_put_onlyAt {level : Fin maxPrio} {m : Mlq Nat} {n : Nat}
    (h : m.waiting = onlyAt level (min n (maxQueueSize - 1))) :
    (putMlqProc (fun _ => level) m n).waiting =
      onlyAt level (min (n + 1) (maxQueueSize - 1)) := by
  have hLevel : m.waiting level = List.range (min n (maxQueueSize - 1)) := by
    rw [h, onlyAt, Function.update_self]
  rw [waiting_putMlqProc]
  cases hJoins : m.joins? (fun _ => level) n with
  | none =>
      have hFull : ¬ min n (maxQueueSize - 1) < maxQueueSize - 1 := by
        intro hRoom
        have hSome : m.joins? (fun _ => level) n = some level :=
          joins?_eq_some.mpr ⟨rfl, by rw [hLevel, List.length_range]; exact hRoom⟩
        rw [hJoins] at hSome
        cases hSome
      have hMin : min (n + 1) (maxQueueSize - 1) = min n (maxQueueSize - 1) := by omega
      exact hMin ▸ h
  | some other =>
      obtain ⟨hOther, hRoom⟩ := joins?_eq_some.mp hJoins
      obtain rfl : level = other := Fin.ext hOther
      rw [hLevel, List.length_range] at hRoom
      have hMin : min n (maxQueueSize - 1) = n := by omega
      have hNext : min (n + 1) (maxQueueSize - 1) = n + 1 := by omega
      dsimp only
      rw [hLevel, hMin, hNext, h, onlyAt, onlyAt, Function.update_idem, List.range_succ]

/-- The processes 0, 1, ... are handed in at one priority. -/
private theorem fill (level : Fin maxPrio) (n : Nat) : ∃ s : Tally Nat,
    Runs (Guarded (TallyStep fun _ => level) (WellHanded fun _ => level)) Tally.initial
        ((List.range n).map .addProc) s ∧
      s.mlq.waiting = onlyAt level (min n (maxQueueSize - 1)) ∧
      s.handedIn = Multiset.range n ∧ s.returned = 0 := by
  induction n with
  | zero =>
      refine ⟨Tally.initial, Runs.nil, ?_, rfl, rfl⟩
      exact (Function.update_eq_self level (fun _ => ([] : List Nat))).symm
  | succ n ih =>
      obtain ⟨s, run, hWaiting, hHanded, hReturned⟩ := ih
      have hFresh : n ∉ s.mlq.readyProcs := by
        rw [Mlq.readyProcs, hWaiting, everyone_onlyAt, Multiset.mem_range]
        omega
      have hNext : TallyStep (fun _ => level) s (.addProc n)
          (s.handIn (fun _ => level) n (addProc (fun _ => level) s.mlq n)) :=
        ⟨_, .addProc s.mlq n, rfl⟩
      refine ⟨s.handIn (fun _ => level) n (addProc (fun _ => level) s.mlq n), ?_,
        waiting_put_onlyAt hWaiting, ?_, hReturned⟩
      · rw [List.range_succ, List.map_append]
        exact Runs.snoc run ⟨hNext, level.isLt, hFresh⟩
      · exact (congrArg (n ::ₘ ·) hHanded).trans (Multiset.range_succ n).symm

/-- Of ten processes that are handed in at one priority, one is in no queue. -/
theorem process_lost : ∃ s : Tally Nat,
    Runs (Guarded (TallyStep fun _ => 0) (WellHanded fun _ => 0)) Tally.initial
        ((List.range 10).map .addProc) s ∧
      s.mlq.readyProcs + s.returned ≠ s.handedIn := by
  obtain ⟨s, run, hWaiting, hHanded, hReturned⟩ := fill 0 10
  refine ⟨s, run, fun hAll => ?_⟩
  rw [Mlq.readyProcs, hWaiting, everyone_onlyAt, hHanded, hReturned] at hAll
  have hCard := congrArg Multiset.card hAll
  rw [add_zero, Multiset.card_range, Multiset.card_range] at hCard
  exact absurd hCard (by decide)

end Full

end Btlos
