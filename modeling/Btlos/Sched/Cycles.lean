import Btlos.Library.Cycle
import Btlos.Sched.Policy
import Mathlib.Data.Fintype.Basic
import Mathlib.Order.Interval.Finset.Fin

/-! How the multi-level queue shares the time between the priorities. The rounds
of the search are recorded as events. -/
namespace Btlos

open Transition TimeShare

variable {Pcb : Type*}

/-- The current queue is passed over, and at the last one the slots are reset. -/
def nextEvents (m : Mlq Pcb) : History (Fin maxPrio) Pcb :=
  .pass m.currentPrio (m.waiting m.currentPrio) ::
    if ((advance m).currentPrio : Nat) = 0 then [.reset] else []

/-- What the rounds of `searchLoop` do. -/
def searchEvents : Nat → Mlq Pcb → History (Fin maxPrio) Pcb
  | 0, _ => []
  | fuel + 1, m =>
      let designatedSlots := maxPrio - m.currentPrio
      let priorityQueue := m.mlqReadyQueue m.currentPrio
      if priorityQueue.size ≠ 0 then
        if priorityQueue.slots = designatedSlots then
          nextEvents m ++ searchEvents fuel (nextQueue m)
        else (serveCurrent m).1.toList.map (.serve m.currentPrio)
      else nextEvents m ++ searchEvents fuel (nextQueue m)

def getEvents (fuel : Nat) (m : Mlq Pcb) : History (Fin maxPrio) Pcb :=
  if queueEmpty m = 1 then [] else searchEvents fuel m

def putEvents (prio : Pcb → Nat) (m : Mlq Pcb) (proc : Pcb) : History (Fin maxPrio) Pcb :=
  (m.joins? prio proc).toList.map (.insert · proc)

/-- The queues and what has happened to them. -/
structure Traced (Pcb : Type*) where
  mlq : Mlq Pcb
  past : History (Fin maxPrio) Pcb

def Traced.initial : Traced Pcb := ⟨Mlq.initial, []⟩

/-- Every step of the queues, with its events. -/
inductive TracedStep (prio : Pcb → Nat) : Traced Pcb → MlqCall Pcb → Traced Pcb → Prop where
  | addProc (s : Traced Pcb) (proc : Pcb) :
      TracedStep prio s (.addProc proc)
        ⟨Btlos.addProc prio s.mlq proc, s.past ++ putEvents prio s.mlq proc⟩
  | putProc (s : Traced Pcb) (proc : Pcb) :
      TracedStep prio s (.putProc proc)
        ⟨Btlos.putProc prio s.mlq proc, s.past ++ putEvents prio s.mlq proc⟩
  | getProc {s : Traced Pcb} {t : Mlq Pcb} {result : Option Pcb} (fuel : Nat)
      (hGet : Btlos.getProc fuel s.mlq = some (result, t)) :
      TracedStep prio s (.getProc result) ⟨t, s.past ++ getEvents fuel s.mlq⟩

section Simulation

variable {m t : Mlq Pcb} {prio : Pcb → Nat} {s s' : Traced Pcb}

/-- The queues take the turns of the policy, with these events. -/
def Shares (m : Mlq Pcb) (events : History (Fin maxPrio) Pcb) (t : Mlq Pcb) : Prop :=
  ∃ turns, Runs (Turn quota) m.ready turns t.ready ∧ events = turns.flatten

private theorem Shares.one {events : History (Fin maxPrio) Pcb}
    (h : Turn quota m.ready events t.ready) : Shares m events t :=
  ⟨[events], Runs.one h, List.flatten_singleton.symm⟩

private theorem Shares.trans {u : Mlq Pcb} {events more : History (Fin maxPrio) Pcb}
    (h : Shares m events t) (h' : Shares t more u) : Shares m (events ++ more) u := by
  obtain ⟨turns, run, rfl⟩ := h
  obtain ⟨turns', run', rfl⟩ := h'
  exact ⟨turns ++ turns', run.trans run', List.flatten_append.symm⟩

theorem shares_put (m : Mlq Pcb) (proc : Pcb) :
    Shares m (putEvents prio m proc) (putMlqProc prio m proc) := by
  have hWaiting := waiting_putMlqProc prio m proc
  rw [putEvents]
  cases hJoins : m.joins? prio proc with
  | none =>
      refine ⟨[], ?_, rfl⟩
      rw [hJoins] at hWaiting
      have hReady : (putMlqProc prio m proc).ready = m.ready := by
        simp only [Mlq.ready, hWaiting, slots_putMlqProc, currentPrio_putMlqProc]
      rw [hReady]
      exact Runs.nil
  | some level =>
      rw [hJoins] at hWaiting
      have hReady : (putMlqProc prio m proc).ready =
          { m.ready with
            waiting := Function.update m.waiting level (m.waiting level ++ [proc]) } := by
        simp only [Mlq.ready, hWaiting, slots_putMlqProc, currentPrio_putMlqProc]
      apply Shares.one
      rw [hReady]
      exact Turn.insert m.ready level proc

theorem shares_next (hSlots : m.SlotsBounded) (h : ¬ m.Servable m.currentPrio) :
    Shares m (nextEvents m) (nextQueue m) := by
  have hClosed : ¬ m.ready.Open quota m.ready.current := by
    rwa [hSlots.servable_iff] at h
  apply Shares.one
  rw [nextEvents]
  by_cases hLt : (m.currentPrio : Nat) + 1 < maxPrio
  · obtain ⟨hZero, hNext⟩ := nextQueue_of_lt hLt
    rw [if_neg hZero, hNext]
    refine Turn.pass hClosed ⟨Fin.lt_def.mpr (Nat.lt_succ_self _), fun level hLow hHigh => ?_⟩
    have hLow : (m.currentPrio : Nat) < level := hLow
    have hHigh : (level : Nat) < m.currentPrio + 1 := hHigh
    omega
  · obtain ⟨hZero, hNext⟩ := nextQueue_last (m := m) (by have := m.currentPrio.isLt; omega)
    rw [if_pos hZero, hNext]
    refine Turn.lap hClosed (fun level => ?_) (fun level => Fin.zero_le level)
    exact Fin.le_def.mpr (by have := level.isLt; change (level : Nat) ≤ m.currentPrio; omega)

theorem shares_serve (hSlots : m.SlotsBounded) (h : m.Servable m.currentPrio) :
    Shares m ((serveCurrent m).1.toList.map (.serve m.currentPrio)) (serveCurrent m).2 := by
  have hOpen : m.ready.Open quota m.ready.current := (hSlots.servable_iff _).mp h
  obtain ⟨proc, hHead⟩ : ∃ proc, (m.waiting m.currentPrio).head? = some proc :=
    Option.ne_none_iff_exists'.mp (by simpa using h.1)
  obtain ⟨t, hServe, hReady⟩ := serveCurrent_ready hHead
  rw [hServe]
  apply Shares.one
  rw [hReady]
  exact Turn.serve hOpen hHead

theorem searchEvents_serve (fuel : Nat) (h : m.Servable m.currentPrio) :
    searchEvents (fuel + 1) m = (serveCurrent m).1.toList.map (.serve m.currentPrio) :=
  round_of_servable _ _ h

theorem searchEvents_next (fuel : Nat) (h : ¬ m.Servable m.currentPrio) :
    searchEvents (fuel + 1) m = nextEvents m ++ searchEvents fuel (nextQueue m) :=
  round_of_not_servable _ _ h

/-- The rounds of a search are turns of the policy. -/
theorem shares_search {fuel : Nat} {result : Option Pcb} (hSlots : m.SlotsBounded)
    (hSearch : searchLoop fuel m = some (result, t)) : Shares m (searchEvents fuel m) t := by
  induction fuel generalizing m with
  | zero => simp [searchLoop] at hSearch
  | succ fuel ih =>
      by_cases h : m.Servable m.currentPrio
      · rw [searchLoop_serve _ h] at hSearch
        rw [searchEvents_serve _ h]
        have hServe := shares_serve hSlots h
        rwa [Option.some.inj hSearch] at hServe ⊢
      · rw [searchLoop_next _ h] at hSearch
        rw [searchEvents_next _ h]
        exact (shares_next hSlots h).trans (ih hSlots.next hSearch)

theorem shares_get {fuel : Nat} {result : Option Pcb} (hSlots : m.SlotsBounded)
    (hGet : getProc fuel m = some (result, t)) : Shares m (getEvents fuel m) t := by
  rw [getProc, getMlqProc] at hGet
  rw [getEvents]
  split_ifs at hGet ⊢ with hEmpty
  · obtain ⟨rfl, rfl⟩ := Prod.mk.inj (Option.some.inj hGet)
    exact ⟨[], Runs.nil, rfl⟩
  · exact shares_search hSlots hGet

/-- The queues of a traced run have come about by turns of the policy. -/
theorem shares_run {calls : List (MlqCall Pcb)}
    (run : Runs (TracedStep prio) Traced.initial calls s) :
    s.mlq.SlotsBounded ∧ Shares Mlq.initial s.past s.mlq := by
  refine run.invariant (fun s => s.mlq.SlotsBounded ∧ Shares Mlq.initial s.past s.mlq)
    ⟨fun _ => Nat.zero_le _, [], Runs.nil, rfl⟩ ?_
  rintro s call s' ⟨hSlots, hShares⟩ step
  cases step with
  | addProc proc =>
      exact ⟨hSlots.put prio proc,
        hShares.trans (shares_put s.mlq proc)⟩
  | putProc proc =>
      exact ⟨hSlots.put prio proc,
        hShares.trans (shares_put s.mlq proc)⟩
  | getProc fuel hGet =>
      exact ⟨hSlots.get hGet,
        hShares.trans (shares_get hSlots hGet)⟩

/-- Every run of the queues can be traced. -/
theorem exists_traced_run {calls : List (MlqCall Pcb)}
    (run : Runs (MlqStep prio) Mlq.initial calls m) :
    ∃ past, Runs (TracedStep prio) Traced.initial calls ⟨m, past⟩ := by
  have hTraced : ∃ s : Traced Pcb, Runs (TracedStep prio) Traced.initial calls s ∧ m = s.mlq := by
    apply run.simulate (fun m (s : Traced Pcb) => m = s.mlq) rfl
    rintro _ call t s rfl step
    cases step with
    | addProc proc => exact ⟨_, .addProc s proc, rfl⟩
    | putProc proc => exact ⟨_, .putProc s proc, rfl⟩
    | getProc fuel hGet => exact ⟨⟨t, _⟩, .getProc fuel hGet, rfl⟩
  obtain ⟨⟨_, past⟩, traced, rfl⟩ := hTraced
  exact ⟨past, traced⟩

end Simulation

/-- What the queues owe to each priority. `lawful` is about every moment of every
cycle: whom it has served and in which order, and that a queue that it has passed
was empty or had been served `MAX_PRIO - p` times. -/
structure SharesTime (s : Traced Pcb) : Prop where
  slots : ∀ level, s.mlq.slots level = (served (cycle s.past)).count level
  within : ∀ level, s.mlq.slots level ≤ maxPrio - level
  fifo : ∀ level, insertedAt level s.past = servedAt level s.past ++ s.mlq.waiting level
  pending : ∀ level, pending level s.past = s.mlq.waiting level
  passed : ∀ level, level < s.mlq.currentPrio → ∃ waiting, .pass level waiting ∈ cycle s.past
  lawful : Lawful quota s.past
  full : ∀ (now : History (Fin maxPrio) Pcb) level, now ++ [.reset] <+: s.past →
    NeverEmpty level now → (served (cycle now)).count level = maxPrio - level
  bounded : ∀ now, now <+: s.past →
    (served (cycle now)).length ≤ ∑ level : Fin maxPrio, (maxPrio - level)

/-- Every run shares the time between the priorities. -/
theorem sharesTime_run {prio : Pcb → Nat} {calls : List (MlqCall Pcb)} {s : Traced Pcb}
    (run : Runs (TracedStep prio) Traced.initial calls s) : SharesTime s := by
  obtain ⟨-, turns, hTurns, hPast⟩ := shares_run run
  have hFirst : IsBot (0 : Fin maxPrio) := fun level => Fin.zero_le level
  obtain ⟨hTracks, hLawful⟩ := lawful_run hFirst hTurns
  rw [← hPast] at hTracks hLawful
  exact
    { slots := hTracks.slots
      within := hTracks.within
      fifo := hTracks.fifo
      pending := hTracks.pending_eq
      passed := hTracks.passed
      lawful := hLawful
      full := fun now level hCycle hBusy => hLawful.count_eq hCycle hBusy
      bounded := fun now hNow => (hLawful now hNow).length_le }

set_option maxRecDepth 8000 in
/-- The process is served, put back and served again in the next cycle. -/
theorem sharesTime_run_reset : ∃ s : Traced Nat,
    Runs (TracedStep id) Traced.initial
        [.addProc 139, .getProc (some 139), .putProc 139, .getProc (some 139)] s ∧
      SharesTime s := by
  have hRun : ∃ s : Traced Nat, Runs (TracedStep id) Traced.initial
      [.addProc 139, .getProc (some 139), .putProc 139, .getProc (some 139)] s :=
    ⟨_, Runs.snoc (Runs.snoc (Runs.snoc (Runs.one (.addProc _ 139)) (.getProc 280 rfl))
      (.putProc _ 139)) (.getProc 280 rfl)⟩
  obtain ⟨s, run⟩ := hRun
  exact ⟨s, run, sharesTime_run run⟩

end Btlos
