import Btlos.Os.Lockstep

/-! Who waits and who looks for work, and what one step of a CPU changes of it. -/
namespace Btlos

open TimeShare

variable {n : Nat} {Mem : Type*} {cfg : Config}
  {execute : ProcId → Inst → Mem → Int → Mem → Prop}

def Cpu.fetches (cpu : Cpu) : Bool :=
  match cpu.loc with
  | .fetch _ => true
  | _ => false

/-- The CPUs that are about to call `get_proc`. -/
def Os.fetching (s : Os (Fin n) Mem) : Finset (Fin n) :=
  Finset.univ.filter fun c => (s.cpu c).fetches = true

/-- No more processes wait than CPUs are about to take one. -/
def Os.Attended (s : Os (Fin n) Mem) : Prop := s.mlq.readyProcs.card ≤ s.fetching.card

section Os

variable {s t : Os (Fin n) Mem} {call : OsCall (Fin n)} {c : Fin n} {vars : Cpu}

private theorem attended_of_empty (h : s.mlq.readyProcs = 0) : s.Attended := by
  rw [Os.Attended, h, Multiset.card_zero]
  exact Nat.zero_le _

/-- A `get_proc` that finds nothing leaves empty queues. -/
private theorem readyProcs_none {m m' : Mlq ProcId} {fuel : Nat} (hSlots : m.SlotsBounded)
    (hGet : getProc fuel m = some (none, m')) : m'.readyProcs = 0 := by
  have hPolicy := getProc_get hSlots hGet
  have hSame : m'.waiting = m.waiting := congrArg Ready.waiting hPolicy.none_eq
  rw [Mlq.readyProcs, hSame]
  exact everyone_eq_zero (hPolicy.eq_none_iff.mp rfl)

private theorem fetching_update (hCpu : t.cpu = Function.update s.cpu c vars) :
    t.fetching = if vars.fetches then insert c s.fetching else s.fetching.erase c := by
  ext other
  by_cases hOther : other = c
  · subst hOther
    split_ifs with hVars <;> simp [Os.fetching, hCpu, hVars]
  · split_ifs <;> simp [Os.fetching, hCpu, hOther]

/-- A CPU that is not about to call `get_proc` does a step of its own. -/
private theorem card_fetching_step (hCpu : t.cpu = Function.update s.cpu c vars)
    (hBefore : (s.cpu c).fetches = false) :
    t.fetching.card = s.fetching.card + if vars.fetches then 1 else 0 := by
  have hOut : c ∉ s.fetching := by simp [Os.fetching, hBefore]
  rw [fetching_update hCpu]
  split_ifs
  · exact Finset.card_insert_of_notMem hOut
  · rw [Finset.erase_eq_of_notMem hOut]
    rfl

/-- A CPU has called `get_proc`. -/
private theorem card_fetching_fetched (hCpu : t.cpu = Function.update s.cpu c vars)
    (hBefore : (s.cpu c).fetches = true) (hVars : vars.fetches = false) :
    t.fetching.card + 1 = s.fetching.card := by
  have hIn : c ∈ s.fetching := by simp [Os.fetching, hBefore]
  rw [fetching_update hCpu, hVars]
  exact Finset.card_erase_add_one hIn

private theorem fetches_fetched (cpu : Cpu) (why : Fetch) (result : Option ProcId) :
    (cpu.fetched why result).fetches = false := by
  cases why <;> cases result <;> rfl

/-- A process that comes to a queue comes from a CPU that takes one at once. -/
theorem Os.Attended.move (hSlots : s.mlq.SlotsBounded) (h : s.Attended)
    (move : OsMove cfg execute s call t) (hCall : ∀ proc, call ≠ .addProc proc) : t.Attended := by
  have hStays : t.mlq = s.mlq → t.cpu = s.cpu → t.Attended := by
    intro hMlq hCpu
    rw [Os.Attended, hMlq, Os.fetching, hCpu]
    exact h
  -- A CPU that was not about to call `get_proc`, and leaves the queues alone.
  have hLocal : ∀ (c : Fin n) (vars : Cpu), t.mlq = s.mlq → t.cpu = Function.update s.cpu c vars →
      (s.cpu c).fetches = false → t.Attended := by
    intro c vars hMlq hCpu hBefore
    rw [Os.Attended, hMlq, card_fetching_step hCpu hBefore]
    exact Nat.le_add_right_of_le h
  cases move with
  | check c hLoc => exact hLocal c _ rfl rfl (by simp [Cpu.fetches, hLoc])
  | recheck c hLoc => exact hLocal c _ rfl rfl (by simp [Cpu.fetches, hLoc])
  | free c hLoc hProc => exact hLocal c _ rfl rfl (by simp [Cpu.fetches, hLoc])
  | run c hLoc hProc hStep hExecute => exact hLocal c _ rfl rfl (by simp [Cpu.fetches, hLoc])
  | runNothing c hLoc hProc hStep => exact hLocal c _ rfl rfl (by simp [Cpu.fetches, hLoc])
  | @putProc proc c hLoc hProc =>
      have hCard := card_fetching_step
        (t := { s with mlq := Btlos.putProc s.prio s.mlq proc }.setCpu c
          { s.cpu c with loc := .fetch .overdue }) rfl (by simp [Cpu.fetches, hLoc])
      have hReady : (putMlqProc s.prio s.mlq proc).readyProcs.card ≤ s.mlq.readyProcs.card + 1 := by
        rw [readyProcs_putMlqProc]
        split_ifs
        · rw [Multiset.card_cons]
        · exact Nat.le_succ _
      rw [Os.Attended, hCard]
      exact hReady.trans (Nat.succ_le_succ h)
  | @getProc m result why fuel c hLoc hGet =>
      have hTaken := congrArg Multiset.card (readyProcs_getProc hSlots hGet)
      have hCard := card_fetching_fetched (t := { s with mlq := m }.setCpu c
        ((s.cpu c).fetched why result)) rfl (by simp [Cpu.fetches, hLoc]) (fetches_fetched _ _ _)
      cases result with
      | none => exact attended_of_empty (readyProcs_none hSlots hGet)
      | some proc =>
          have hOne : m.readyProcs.card + 1 = s.mlq.readyProcs.card := by
            rw [← hTaken, Multiset.card_add]
            rfl
          exact Nat.le_of_succ_le_succ (hOne.le.trans (h.trans hCard.ge))
  | load hLoc hMore hProgram | loadFails hLoc hMore hProgram | finish hLoc hMore =>
      exact hStays rfl rfl
  | addProc hLoc => exact absurd rfl (hCall s.index)

/-- The other CPUs stay where they are. -/
theorem OsMove.others (move : OsMove cfg execute s call t) (hOther : call.event ≠ cpuEvent c) :
    t.cpu c = s.cpu c := by
  cases move with
  | check other | recheck other | free other | putProc other | getProc _ other | run other
  | runNothing other =>
      apply Function.update_of_ne
      rintro rfl
      exact hOther rfl
  | load | loadFails | addProc | finish => rfl

/-- A CPU that comes back to the head of its loop with a process has run it. -/
theorem OsMove.ends {proc : ProcId} (move : OsMove cfg execute s call t)
    (hCall : call.event = cpuEvent c) (hLoc : (t.cpu c).loc = .check)
    (hProc : (t.cpu c).proc = some proc) : call = .run c proc := by
  cases move with
  | check other hAt =>
      obtain rfl := cpuEvent_injective hCall
      simp only [Os.setCpu, Function.update_self, Cpu.check] at hLoc
      split at hLoc
      · cases hLoc
      · split_ifs at hLoc
  | recheck other hAt =>
      obtain rfl := cpuEvent_injective hCall
      simp only [Os.setCpu, Function.update_self] at hLoc hProc
      rw [Cpu.recheck] at hLoc hProc
      split_ifs at hLoc hProc with hStop hNone hTime
      rw [hNone] at hProc
      cases hProc
  | free other | putProc other =>
      obtain rfl := cpuEvent_injective hCall
      simp [Os.setCpu] at hLoc
  | @getProc m result why fuel other hAt hGet =>
      obtain rfl := cpuEvent_injective hCall
      simp only [Os.setCpu, Function.update_self] at hLoc hProc
      cases why <;> cases result <;> simp [Cpu.fetched] at hLoc hProc
  | @run running ins next stat mem other hAt hRunning =>
      obtain rfl := cpuEvent_injective hCall
      simp only [Os.setCpu, Function.update_self, Cpu.ran, hRunning] at hProc
      rw [Option.some.inj hProc]
  | @runNothing running other hAt hRunning =>
      obtain rfl := cpuEvent_injective hCall
      simp only [Os.setCpu, Function.update_self, Cpu.ran, hRunning] at hProc
      rw [Option.some.inj hProc]
  | load | loadFails | addProc | finish => exact absurd hCall.symm (cpuEvent_ne_ldEvent c)

/-- A CPU without a process has just found the queues empty, or had none before. -/
theorem OsMove.idles (hSlots : s.mlq.SlotsBounded) (move : OsMove cfg execute s call t)
    (hCall : call.event = cpuEvent c) (hProc : (t.cpu c).proc = none)
    (hLoc : (t.cpu c).fetches = false) :
    ((s.cpu c).proc = none ∧ (s.cpu c).loc = .recheck) ∨ t.Attended := by
  cases move with
  | check other hAt =>
      obtain rfl := cpuEvent_injective hCall
      simp only [Os.setCpu, Function.update_self, Cpu.check] at hLoc hProc
      split at hLoc
      · cases hLoc
      · rename_i hSome
        rw [hSome] at hProc
        dsimp only at hProc
        split_ifs at hProc
  | recheck other hAt =>
      obtain rfl := cpuEvent_injective hCall
      simp only [Os.setCpu, Function.update_self] at hProc
      rw [Cpu.recheck] at hProc
      left
      split_ifs at hProc with hStop hNone hTime
      · exact ⟨hStop.1, hAt⟩
      · exact ⟨hNone, hAt⟩
      · exact ⟨hProc, hAt⟩
      · exact ⟨hProc, hAt⟩
  | free other | putProc other =>
      obtain rfl := cpuEvent_injective hCall
      simp [Os.setCpu, Cpu.fetches] at hLoc
  | @getProc m result why fuel other hAt hGet =>
      obtain rfl := cpuEvent_injective hCall
      cases result with
      | none => exact Or.inr (attended_of_empty (readyProcs_none hSlots hGet))
      | some proc =>
          simp only [Os.setCpu, Function.update_self] at hProc
          cases why <;> cases hProc
  | @run running ins next stat mem other hAt hRunning =>
      obtain rfl := cpuEvent_injective hCall
      simp only [Os.setCpu, Function.update_self, Cpu.ran, hRunning] at hProc
      cases hProc
  | @runNothing running other hAt hRunning =>
      obtain rfl := cpuEvent_injective hCall
      simp only [Os.setCpu, Function.update_self, Cpu.ran, hRunning] at hProc
      cases hProc
  | load | loadFails | addProc | finish => exact absurd hCall.symm (cpuEvent_ne_ldEvent c)

/-- A CPU stops when the loader is done and it has found no process. -/
theorem OsMove.stops (move : OsMove cfg execute s call t) (hCall : call.event = cpuEvent c)
    (hLoc : (t.cpu c).loc = .stopped) :
    (s.cpu c).proc = none ∧ (s.cpu c).loc = .recheck ∧ s.done = true ∧ (t.cpu c).proc = none := by
  cases move with
  | check other hAt =>
      obtain rfl := cpuEvent_injective hCall
      simp only [Os.setCpu, Function.update_self, Cpu.check] at hLoc
      split at hLoc
      · cases hLoc
      · split_ifs at hLoc
  | recheck other hAt =>
      obtain rfl := cpuEvent_injective hCall
      simp only [Os.setCpu, Function.update_self] at hLoc ⊢
      rw [Cpu.recheck] at hLoc ⊢
      split_ifs at hLoc ⊢ with hStop hNone hTime
      exact ⟨hStop.1, hAt, hStop.2, hStop.1⟩
  | free other | putProc other =>
      obtain rfl := cpuEvent_injective hCall
      simp [Os.setCpu] at hLoc
  | @getProc m result why fuel other hAt hGet =>
      obtain rfl := cpuEvent_injective hCall
      simp only [Os.setCpu, Function.update_self] at hLoc
      cases why <;> cases result <;> simp [Cpu.fetched] at hLoc
  | run other | runNothing other =>
      obtain rfl := cpuEvent_injective hCall
      simp [Os.setCpu, Cpu.ran] at hLoc
  | load | loadFails | addProc | finish => exact absurd hCall.symm (cpuEvent_ne_ldEvent c)

/-- Where a process is handed in. -/
theorem OsMove.adds (move : OsMove cfg execute s call t) :
    (∃ proc, call = .addProc proc) ∧ s.loader = .add ∧ t.index = s.index + 1 ∨
      (∀ proc, call ≠ .addProc proc) ∧ t.index = s.index := by
  cases move with
  | addProc hLoc => exact Or.inl ⟨⟨_, rfl⟩, hLoc, rfl⟩
  | check | recheck | free | putProc | getProc | run | runNothing | load | loadFails | finish =>
      exact Or.inr ⟨(fun _ hCall => by cases hCall), rfl⟩

theorem OsMove.done_mono (move : OsMove cfg execute s call t) (hDone : s.done = true) :
    t.done = true := by
  cases move with
  | finish => rfl
  | check | recheck | free | putProc | getProc | run | runNothing | load | loadFails | addProc =>
      exact hDone

/-- Only the loader sets `done`, when it has no process left. -/
theorem OsMove.done_eq (move : OsMove cfg execute s call t) (hDone : t.done = true) :
    s.done = true ∨ call.event = ldEvent ∧ ∀ proc, call ≠ .addProc proc := by
  cases move with
  | finish hLoc hMore => exact Or.inr ⟨rfl, fun _ hCall => by cases hCall⟩
  | check | recheck | free | putProc | getProc | run | runNothing | load | loadFails | addProc =>
      exact Or.inl hDone

end Os

end Btlos
