import Btlos.Sched.Concurrent

/-! Calls of `get_mlq_proc` that do not overlap. If nobody else takes a step while a CPU is
in one, as with the lock held for the whole call, then its tests and its section under the
lock amount to a single step. -/
namespace Btlos

open Transition

variable {CpuId Pcb : Type*}

/-- The call that a step brings to its end. -/
def ConcurrentCall.whole? : ConcurrentCall CpuId Pcb → Option (MlqCall Pcb)
  | .getProc _ result => result.map .getProc
  | .putProc _ proc => some (.putProc proc)
  | .addProc proc => some (.addProc proc)

namespace Concurrent

/-- While a CPU is in a call, only that CPU takes steps. -/
def Serial (s : Concurrent CpuId Pcb) (call : ConcurrentCall CpuId Pcb) : Prop :=
  ∀ c, s.loc c ≠ .idle → ∃ result, call = .getProc c result

/-- Nobody but this CPU is in a call. -/
def Alone (s : Concurrent CpuId Pcb) (c : CpuId) : Prop := ∀ other, other ≠ c → s.loc other = .idle

/-- The queues between calls are `m`, or the only call has begun with these and has so far
done some rounds of its search. -/
inductive Within (m : Mlq Pcb) (s : Concurrent CpuId Pcb) : Prop where
  | between (hIdle : ∀ c, s.loc c = .idle) (hQueues : s.mlq = m)
  | search (c : CpuId) (rounds : Nat) (hLoc : s.loc c = .search) (hAlone : s.Alone c)
      (hSome : queueEmpty m ≠ 1)
      (hRounds : ∀ fuel, searchLoop (fuel + rounds) m = searchLoop fuel s.mlq)
  | take (c : CpuId) (rounds : Nat) (hLoc : s.loc c = .take s.mlq.currentPrio)
      (hAlone : s.Alone c) (hSome : queueEmpty m ≠ 1)
      (hRounds : ∀ fuel, searchLoop (fuel + rounds) m = searchLoop fuel s.mlq)
      (hServable : s.mlq.Servable s.mlq.currentPrio)

variable {s t : Concurrent CpuId Pcb} {m m' : Mlq Pcb} {c : CpuId} {prio : Pcb → Nat}

/-- A CPU that is in a call is the one that takes the step. -/
private theorem Serial.caller {result : Option (Option Pcb)} {other : CpuId}
    (h : s.Serial (.getProc c result)) (hBusy : s.loc other ≠ .idle) : c = other := by
  obtain ⟨_, hCall⟩ := h other hBusy
  cases hCall
  rfl

variable [DecidableEq CpuId]

private theorem Alone.serial (h : s.Alone c) (result : Option (Option Pcb)) :
    s.Serial (.getProc c result) := by
  intro other hBusy
  obtain rfl : other = c := by
    by_contra hNe
    exact hBusy (h other hNe)
  exact ⟨result, rfl⟩

private theorem Alone.getProc (h : s.Alone c) : (s.getProc c).1.Alone c := by
  intro other hNe
  rw [loc_getProc, Function.update_of_ne hNe]
  exact h other hNe

private theorem all_idle (hAlone : s.Alone c) (hIdle : s.loc c = .idle) (other : CpuId) :
    s.loc other = .idle := by
  by_cases hSame : other = c
  · rw [hSame, hIdle]
  · exact hAlone other hSame

/-- A step of the only call. -/
private theorem Within.getProc (h : s.Within m) (serial : s.Serial (.getProc c (s.getProc c).2)) :
    ∃ m', Runs (MlqStep prio) m
        (ConcurrentCall.getProc c (s.getProc c).2 : ConcurrentCall CpuId Pcb).whole?.toList m' ∧
      (s.getProc c).1.Within m' := by
  cases h with
  | between hIdle hQueues =>
      have hAlone : s.Alone c := fun other _ => hIdle other
      by_cases hEmpty : queueEmpty s.mlq = 1
      · have hNull : MlqStep prio m (.getProc none) m := by
          refine .getProc 0 ?_
          rw [Btlos.getProc, getMlqProc, ← hQueues, if_pos hEmpty]
        obtain ⟨hSame, hNext, hResult⟩ := getProc_empty (hIdle c) hEmpty
        refine ⟨m, ?_, .between (all_idle hAlone.getProc hNext) (hSame.trans hQueues)⟩
        rw [hResult]
        exact Runs.one hNull
      · obtain ⟨hSame, hNext, hResult⟩ := getProc_begin (hIdle c) hEmpty
        refine ⟨m, ?_, .search c 0 hNext hAlone.getProc (hQueues ▸ hEmpty) fun fuel => ?_⟩
        · rw [hResult]
          exact Runs.nil
        · rw [hSame, hQueues]
          rfl
  | search other rounds hLoc hAlone hSome hRounds =>
      obtain rfl : c = other := serial.caller (by simp [hLoc])
      obtain ⟨hQueues, hNext, hResult⟩ := getProc_search hLoc
      refine ⟨m, ?_, ?_⟩
      · rw [hResult]
        exact Runs.nil
      · by_cases hServable : s.mlq.Servable s.mlq.currentPrio
        · rw [getRound_take hServable] at hQueues hNext
          refine .take c rounds ?_ hAlone.getProc hSome ?_ ?_ <;> rw [hQueues]
          · exact hNext
          · exact hRounds
          · exact hServable
        · rw [getRound_next hServable] at hQueues hNext
          refine .search c (rounds + 1) hNext hAlone.getProc hSome fun fuel => ?_
          rw [hQueues, ← searchLoop_next fuel hServable, ← hRounds, Nat.add_right_comm,
            Nat.add_assoc]
  | take other rounds hLoc hAlone hSome hRounds hServable =>
      obtain rfl : c = other := serial.caller (by simp [hLoc])
      obtain ⟨hQueues, hNext, hResult⟩ := getProc_take hLoc
      refine ⟨(serveCurrent s.mlq).2, ?_, .between (all_idle hAlone.getProc hNext) hQueues⟩
      rw [hResult]
      refine Runs.one (.getProc (1 + rounds) ?_)
      rw [Btlos.getProc, getMlqProc, if_neg hSome, hRounds, searchLoop_serve 0 hServable]
      rfl

/-- A step of a run in which calls do not overlap. -/
theorem Within.step {call : ConcurrentCall CpuId Pcb} (h : s.Within m)
    (step : Guarded (ConcurrentStep prio) Serial s call t) :
    ∃ m', Runs (MlqStep prio) m call.whole?.toList m' ∧ t.Within m' := by
  obtain ⟨step, serial⟩ := step
  have hQuiet : (∀ c result, call ≠ .getProc c result) → (∀ c, s.loc c = .idle) ∧ s.mlq = m := by
    intro hCall
    have hIdle : ∀ c, s.loc c = .idle := by
      intro c
      by_contra hBusy
      obtain ⟨result, hSame⟩ := serial c hBusy
      exact hCall c result hSame
    cases h with
    | between _ hQueues => exact ⟨hIdle, hQueues⟩
    | search c _ hLoc | take c _ hLoc => cases (hIdle c).symm.trans hLoc
  cases step with
  | getProc c => exact h.getProc serial
  | putProc c proc =>
      obtain ⟨hIdle, rfl⟩ := hQuiet (by simp)
      exact ⟨_, Runs.one (.putProc s.mlq proc), .between hIdle rfl⟩
  | addProc proc =>
      obtain ⟨hIdle, rfl⟩ := hQuiet (by simp)
      exact ⟨_, Runs.one (.addProc s.mlq proc), .between hIdle rfl⟩

/-- The states between calls. -/
structure Rests (s : Concurrent CpuId Pcb) (m : Mlq Pcb) : Prop where
  idle : ∀ c, s.loc c = .idle
  mlq : s.mlq = m

/-- The search of a CPU that is left alone. -/
private theorem exists_search {fuel : Nat} {result : Option Pcb} (hLoc : s.loc c = .search)
    (hAlone : s.Alone c) (hSearch : searchLoop fuel s.mlq = some (result, m)) :
    ∃ calls t, Runs (Guarded (ConcurrentStep prio) Serial) s calls t ∧
      calls.filterMap ConcurrentCall.whole? = [.getProc result] ∧ t.Rests m := by
  induction fuel generalizing s with
  | zero => simp [searchLoop] at hSearch
  | succ fuel ih =>
      obtain ⟨hQueues, hNext, hResult⟩ := getProc_search hLoc
      have first : Guarded (ConcurrentStep prio) Serial s (.getProc c none) (s.getProc c).1 := by
        rw [← hResult]
        exact ⟨.getProc s c, hAlone.serial _⟩
      by_cases hServable : s.mlq.Servable s.mlq.currentPrio
      · rw [searchLoop_serve fuel hServable] at hSearch
        rw [getRound_take hServable] at hQueues hNext
        obtain ⟨hTaken, hIdle, hReturned⟩ := getProc_take hNext
        rw [hQueues] at hTaken hReturned
        have hServed : serveCurrent s.mlq = (result, m) := Option.some.inj hSearch
        have hReturned : ((s.getProc c).1.getProc c).2 = some result :=
          hReturned.trans (congrArg (fun served => some served.1) hServed)
        have second : Guarded (ConcurrentStep prio) Serial (s.getProc c).1
            (.getProc c (some result)) ((s.getProc c).1.getProc c).1 := by
          rw [← hReturned]
          exact ⟨.getProc _ c, hAlone.getProc.serial _⟩
        refine ⟨_, _, Runs.cons first (Runs.one second), rfl,
          all_idle hAlone.getProc.getProc hIdle, ?_⟩
        exact hTaken.trans (congrArg Prod.snd hServed)
      · rw [searchLoop_next fuel hServable] at hSearch
        rw [getRound_next hServable] at hQueues hNext
        obtain ⟨calls, t, rest, hCalls, hRests⟩ := ih hNext hAlone.getProc (hQueues ▸ hSearch)
        exact ⟨_, t, Runs.cons first rest, hCalls, hRests⟩

/-- A step of the model can be made in steps of a single CPU. -/
private theorem exists_calls (c : CpuId) {call : MlqCall Pcb} (h : s.Rests m)
    (step : MlqStep prio m call m') :
    ∃ calls t, Runs (Guarded (ConcurrentStep prio) Serial) s calls t ∧
      calls.filterMap ConcurrentCall.whole? = [call] ∧ t.Rests m' := by
  obtain ⟨hIdle, rfl⟩ := h
  have hSerial : ∀ call, s.Serial call := fun _ c hBusy => absurd (hIdle c) hBusy
  cases step with
  | addProc proc => exact ⟨_, _, Runs.one ⟨.addProc s proc, hSerial _⟩, rfl, hIdle, rfl⟩
  | putProc proc =>
      exact ⟨_, _, Runs.one ⟨.putProc s c proc (hIdle c), hSerial _⟩, rfl, hIdle, rfl⟩
  | @getProc _ result fuel hGet =>
      have hAlone : s.Alone c := fun other _ => hIdle other
      rw [Btlos.getProc, getMlqProc] at hGet
      by_cases hEmpty : queueEmpty s.mlq = 1
      · rw [if_pos hEmpty] at hGet
        obtain ⟨rfl, rfl⟩ := Prod.mk.inj (Option.some.inj hGet)
        obtain ⟨hSame, hNext, hResult⟩ := getProc_empty (hIdle c) hEmpty
        refine ⟨_, _, Runs.one ⟨.getProc s c, hSerial _⟩, ?_, all_idle hAlone.getProc hNext, hSame⟩
        rw [hResult]
        rfl
      · rw [if_neg hEmpty] at hGet
        obtain ⟨hSame, hNext, hResult⟩ := getProc_begin (hIdle c) hEmpty
        obtain ⟨calls, t, rest, hCalls, hRests⟩ :=
          exists_search hNext hAlone.getProc (hSame ▸ hGet)
        refine ⟨_, t, Runs.cons ⟨.getProc s c, hSerial _⟩ rest, ?_, hRests⟩
        rw [hResult]
        exact hCalls

/-- Between calls, the runs in which no two calls overlap have led to the same queues by the
same calls as the runs of the model in which each call is one step. -/
theorem serial_iff (c : CpuId) {calls : List (MlqCall Pcb)} :
    (∃ steps s, Runs (Guarded (ConcurrentStep prio) Serial)
        (Concurrent.initial : Concurrent CpuId Pcb) steps s ∧
      steps.filterMap ConcurrentCall.whole? = calls ∧ s.Rests m) ↔
      Runs (MlqStep prio) Mlq.initial calls m := by
  have hStart : (Concurrent.initial : Concurrent CpuId Pcb).Rests Mlq.initial :=
    ⟨fun _ => rfl, rfl⟩
  constructor
  · rintro ⟨steps, s, run, rfl, hIdle, rfl⟩
    obtain ⟨m, whole, hWithin⟩ := run.simulate_shown ConcurrentCall.whole?
      (fun (s : Concurrent CpuId Pcb) m => s.Within m) (.between hStart.idle hStart.mlq)
      fun s call t m hWithin step => hWithin.step step
    cases hWithin with
    | between _ hQueues => exact hQueues ▸ whole
    | search c _ hLoc | take c _ hLoc => cases (hIdle c).symm.trans hLoc
  · intro run
    induction run with
    | nil => exact ⟨[], _, Runs.nil, rfl, hStart⟩
    | snoc prior last ih =>
        obtain ⟨steps, s, serial, rfl, hRests⟩ := ih
        obtain ⟨more, t, rest, hLast, hRests⟩ := exists_calls c hRests last
        refine ⟨steps ++ more, t, serial.trans rest, ?_, hRests⟩
        rw [List.filterMap_append, hLast]

end Concurrent

end Btlos
