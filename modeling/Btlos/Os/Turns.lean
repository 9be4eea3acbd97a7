import Btlos.Os.Lockstep
import Btlos.Os.Shutdown

/-! The turns of the processes: the calls of `run`. A process gets one for each of its
instructions, and while it has some left it waits or is with a CPU. -/
namespace Btlos

open Transition Custody TimeShare

variable {CpuId Mem : Type*}

/-- The turns that a process needs. One without instructions is dispatched all the same. -/
def Config.work (cfg : Config) (proc : ProcId) : Nat :=
  max 1 ((cfg.program proc).getD []).length

/-- The priorities exist, and no more processes have the same one than a queue takes. -/
structure Config.QueuesFit (cfg : Config) : Prop where
  prio : ∀ proc < cfg.numProcesses, cfg.prio proc < maxPrio
  room : ∀ level, ((Finset.range cfg.numProcesses).filter fun proc => cfg.prio proc = level).card <
    maxQueueSize

/-- The turns after a step. -/
def OsCall.turnsAfter : OsCall CpuId → (ProcId → Nat) → ProcId → Nat
  | .run _ proc, turns => Function.update turns proc (turns proc + 1)
  | _, turns => turns

/-- What the place of a CPU says of the turns of its process. -/
def Cpu.Counts (cpu : Cpu) (turns work : Nat) : Prop :=
  match cpu.loc with
  | .check => 1 ≤ turns ∧ turns ≤ work
  | .recheck | .run | .put => turns < work
  | .free => turns = work
  | .fetch _ | .stopped => True

/-- The turns that the processes have had, by the places where they are. -/
structure Os.CountsTurns (cfg : Config) (s : Os CpuId Mem) (turns : ProcId → Nat) : Prop where
  counted : ∀ proc, turns proc = (s.pcb proc).pc ∨ (s.pcb proc).text = [] ∧ turns proc = 1
  fresh : ∀ proc, s.index ≤ proc → turns proc = 0
  queued : ∀ proc ∈ s.mlq.readyProcs, turns proc < cfg.work proc
  cpu : ∀ c proc, s.holds c = some proc → (s.cpu c).Counts (turns proc) (cfg.work proc)
  freed : ∀ proc ∈ s.freed, turns proc = cfg.work proc

theorem countsTurns_initial (cfg : Config) (mem : Mem) :
    (Os.initial mem : Os CpuId Mem).CountsTurns cfg fun _ => 0 where
  counted := fun _ => Or.inl rfl
  fresh := fun _ _ => rfl
  queued := by
    intro proc hQueued
    have hPool : (Os.initial mem : Os CpuId Mem).mlq.readyProcs = 0 :=
      everyone_eq_zero waiting_initial
    rw [hPool] at hQueued
    exact absurd hQueued (Multiset.notMem_zero proc)
  cpu := fun _ _ hHolds => by cases hHolds
  freed := fun _ hFreed => by cases hFreed

section Turns

variable {cfg : Config} {execute : ProcId → Inst → Mem → Int → Mem → Prop} {s t : Os CpuId Mem}
  {call : OsCall CpuId} {turns : ProcId → Nat} {proc : ProcId}

theorem Config.work_of_program {text : List Inst} (h : cfg.program proc = some text) :
    cfg.work proc = max 1 text.length := by
  rw [Config.work, h, Option.getD_some]

/-- A process that is not finished after its first turn has had one for each instruction. -/
private theorem Os.CountsTurns.lt_work (h : s.CountsTurns cfg turns) (hOwned : s.Owned cfg)
    (hLoaded : s.Loaded proc) (hFinished : ¬ (s.pcb proc).Finished) :
    turns proc < cfg.work proc := by
  have hLe := (hOwned.executed proc).1
  rw [Config.work_of_program (hOwned.program proc hLoaded)]
  rcases h.counted proc with hPc | ⟨hText, -⟩
  · rw [Pcb.Finished] at hFinished
    omega
  · rw [Pcb.Finished, hText] at hFinished
    rw [hText] at hLe
    exact absurd (Nat.le_zero.mp hLe) hFinished

private theorem Os.CountsTurns.eq_work (h : s.CountsTurns cfg turns) (hOwned : s.Owned cfg)
    (hLoaded : s.Loaded proc) (hTurns : 1 ≤ turns proc) (hFinished : (s.pcb proc).Finished) :
    turns proc = cfg.work proc := by
  rw [Config.work_of_program (hOwned.program proc hLoaded)]
  rcases h.counted proc with hPc | ⟨hText, hOne⟩
  · rw [Pcb.Finished] at hFinished
    omega
  · rw [hText, hOne]
    rfl

/-- A process that has had its turns has executed its program. -/
theorem Os.CountsTurns.executed (h : s.CountsTurns cfg turns) (hOwned : s.Owned cfg)
    (hLoaded : s.Loaded proc) (hTurns : cfg.work proc ≤ turns proc) :
    cfg.program proc = some (s.executed proc) := by
  have hProgram := hOwned.program proc hLoaded
  obtain ⟨hLe, hExecuted⟩ := hOwned.executed proc
  rw [hProgram, hExecuted]
  rw [Config.work_of_program hProgram] at hTurns
  rcases h.counted proc with hPc | ⟨hText, -⟩
  · have hAll : (s.pcb proc).text.length ≤ (s.pcb proc).pc := by omega
    rw [List.take_of_length_le hAll]
  · rw [hText, List.take_nil]

theorem Os.CountsTurns.le_work (h : s.CountsTurns cfg turns) (hOwned : s.Owned cfg)
    (hLoaded : s.Loaded proc) : turns proc ≤ cfg.work proc := by
  have hLe := (hOwned.executed proc).1
  rw [Config.work_of_program (hOwned.program proc hLoaded)]
  rcases h.counted proc with hPc | ⟨-, hOne⟩
  · omega
  · omega

/-- One CPU changes, and the turns only of a process that no other CPU has. -/
private theorem counts_cpu [DecidableEq CpuId] {c : CpuId} {vars : Cpu} {turns' : ProcId → Nat}
    (h : s.CountsTurns cfg turns) (hCpu : t.cpu = Function.update s.cpu c vars)
    (hVars : ∀ proc, vars.holds = some proc → vars.Counts (turns' proc) (cfg.work proc))
    (hTurns : ∀ other, other ≠ c → ∀ proc, s.holds other = some proc → turns' proc = turns proc) :
    ∀ other proc, t.holds other = some proc →
      (t.cpu other).Counts (turns' proc) (cfg.work proc) := by
  intro other proc hHolds
  rw [Os.holds, hCpu] at hHolds
  rw [hCpu]
  by_cases hOther : other = c
  · rw [hOther, Function.update_self] at hHolds ⊢
    exact hVars proc hHolds
  · rw [Function.update_of_ne hOther] at hHolds ⊢
    rw [hTurns other hOther proc hHolds]
    exact h.cpu other proc hHolds

private theorem counts_check {c : CpuId} (hOwned : s.Owned cfg) (h : s.CountsTurns cfg turns)
    (hLoc : (s.cpu c).loc = .check)
    (hHolds : ((s.cpu c).check fun proc => decide (s.pcb proc).Finished).holds = some proc) :
    ((s.cpu c).check fun proc => decide (s.pcb proc).Finished).Counts (turns proc)
      (cfg.work proc) := by
  rw [Cpu.holds_check hLoc] at hHolds
  have hLoaded : s.Loaded proc := Or.inl (hOwned.exclusive.held_alive c proc hHolds).1
  have hCounts := h.cpu c proc hHolds
  rw [Cpu.Counts, hLoc] at hCounts
  have hProc : (s.cpu c).proc = some proc := by
    rwa [Cpu.holds_of_loc (by simp [hLoc])] at hHolds
  simp only [Cpu.check, hProc, decide_eq_true_eq]
  split_ifs with hFinished hTime
  · exact h.eq_work hOwned hLoaded hCounts.1 hFinished
  · exact h.lt_work hOwned hLoaded hFinished
  · exact h.lt_work hOwned hLoaded hFinished

private theorem counts_recheck {c : CpuId} (h : s.CountsTurns cfg turns)
    (hLoc : (s.cpu c).loc = .recheck) {timeSlot : Int} {done : Bool}
    (hHolds : ((s.cpu c).recheck timeSlot done).holds = some proc) :
    ((s.cpu c).recheck timeSlot done).Counts (turns proc) (cfg.work proc) := by
  rw [Cpu.holds_recheck hLoc] at hHolds
  have hCounts := h.cpu c proc hHolds
  rw [Cpu.Counts, hLoc] at hCounts
  rw [Cpu.holds_of_loc (by simp [hLoc])] at hHolds
  rw [Cpu.Counts, (Cpu.recheck_some hHolds timeSlot done).1]
  exact hCounts

private theorem counts_fetched {cpu : Cpu} {why : Fetch} {result : Option ProcId} {done work : Nat}
    (hHolds : (cpu.fetched why result).holds = some proc) (hTurns : done < work) :
    (cpu.fetched why result).Counts done work := by
  rw [Cpu.holds_fetched] at hHolds
  subst hHolds
  cases why with
  | idle | finished | overdue => exact hTurns

/-- A turn, with an instruction or without. -/
private theorem counts_turn {c : CpuId} (h : s.CountsTurns cfg turns)
    (hLoc : (s.cpu c).loc = .run) (hProc : (s.cpu c).proc = some proc) :
    s.holds c = some proc ∧ turns proc < cfg.work proc ∧
      (s.cpu c).ran.Counts (turns proc + 1) (cfg.work proc) := by
  have hHolds : s.holds c = some proc := (Cpu.holds_of_loc (by simp [hLoc])).trans hProc
  have hCounts := h.cpu c proc hHolds
  rw [Cpu.Counts, hLoc] at hCounts
  exact ⟨hHolds, hCounts, Nat.le_add_left 1 _, hCounts⟩

private theorem countsTurns_turn [DecidableEq CpuId] {c : CpuId} (hOwned : s.Owned cfg)
    (h : s.CountsTurns cfg turns) (hLoc : (s.cpu c).loc = .run) (hProc : (s.cpu c).proc = some proc)
    (hCpu : t.cpu = Function.update s.cpu c (s.cpu c).ran) (hMlq : t.mlq = s.mlq)
    (hIndex : t.index = s.index) (hFreed : t.freed = s.freed)
    (hPcb : ∀ other, other ≠ proc → t.pcb other = s.pcb other)
    (hCounted : turns proc + 1 = (t.pcb proc).pc ∨ (t.pcb proc).text = [] ∧ turns proc = 0) :
    t.CountsTurns cfg (Function.update turns proc (turns proc + 1)) := by
  obtain ⟨hHolds, hTurns, hCounts⟩ := counts_turn h hLoc hProc
  obtain ⟨hAlive, hNotFreed⟩ := hOwned.exclusive.held_alive c proc hHolds
  have hOthers : ∀ other, other ≠ proc →
      Function.update turns proc (turns proc + 1) other = turns other :=
    fun other hOther => Function.update_of_ne hOther _ _
  constructor
  · intro other
    by_cases hSame : other = proc
    · subst hSame
      rw [Function.update_self]
      exact hCounted.imp id fun hNone => ⟨hNone.1, congrArg Nat.succ hNone.2⟩
    · rw [hOthers other hSame, hPcb other hSame]
      exact h.counted other
  · intro other hNew
    rw [hIndex] at hNew
    rw [hOthers other (Nat.ne_of_gt (hAlive.trans_le hNew))]
    exact h.fresh other hNew
  · intro other hQueued
    rw [hMlq] at hQueued
    rw [hOthers other]
    · exact h.queued other hQueued
    · rintro rfl
      exact hOwned.exclusive.outside c other hHolds hQueued
  · apply counts_cpu h hCpu
    · intro other hOther
      rw [Cpu.holds_ran hLoc] at hOther
      obtain rfl : proc = other := Option.some.inj (hHolds.symm.trans hOther)
      rw [Function.update_self]
      exact hCounts
    · intro other hOther held hHeld
      apply hOthers
      rintro rfl
      exact hOther (hOwned.exclusive.unique other c held hHeld hHolds)
  · intro other hGone
    rw [hFreed] at hGone
    rw [hOthers other]
    · exact h.freed other hGone
    · rintro rfl
      exact hNotFreed hGone

/-- Every step keeps the count. -/
theorem countsTurns_step [DecidableEq CpuId] (hOwned : s.Owned cfg)
    (h : s.CountsTurns cfg turns) (step : OsStep cfg execute s call t) :
    t.CountsTurns cfg (call.turnsAfter turns) := by
  obtain ⟨-, move⟩ := step
  cases move with
  | check c hLoc =>
      exact { h with
        cpu := counts_cpu h rfl (fun _ hHolds => counts_check hOwned h hLoc hHolds)
          fun _ _ _ _ => rfl }
  | recheck c hLoc =>
      exact { h with
        cpu := counts_cpu h rfl (fun _ hHolds => counts_recheck h hLoc hHolds) fun _ _ _ _ => rfl }
  | @free proc c hLoc hProc =>
      have hHolds : s.holds c = some proc := (Cpu.holds_of_loc (by simp [hLoc])).trans hProc
      have hCounts := h.cpu c proc hHolds
      rw [Cpu.Counts, hLoc] at hCounts
      refine { h with
        cpu := counts_cpu h rfl (fun _ hNone => by cases hNone) fun _ _ _ _ => rfl
        freed := ?_ }
      intro other hFreed
      rcases List.mem_cons.mp hFreed with rfl | hFreed
      · exact hCounts
      · exact h.freed other hFreed
  | @putProc proc c hLoc hProc =>
      have hHolds : s.holds c = some proc := (Cpu.holds_of_loc (by simp [hLoc])).trans hProc
      have hCounts := h.cpu c proc hHolds
      rw [Cpu.Counts, hLoc] at hCounts
      refine { h with
        queued := ?_
        cpu := counts_cpu h rfl (fun _ hNone => by cases hNone) fun _ _ _ _ => rfl }
      intro other hQueued
      rcases mem_putMlqProc hQueued with hOld | rfl
      · exact h.queued other hOld
      · exact hCounts
  | @getProc m result why fuel c hLoc hGet =>
      have hTaken := readyProcs_getProc hOwned.slots hGet
      refine { h with
        queued := ?_
        cpu := counts_cpu h rfl (fun proc hHolds => counts_fetched hHolds ?_) fun _ _ _ _ => rfl }
      · intro proc hQueued
        apply h.queued proc
        rw [← hTaken]
        exact Multiset.mem_add.mpr (Or.inl hQueued)
      · rw [Cpu.holds_fetched] at hHolds
        apply h.queued proc
        rw [← hTaken, hHolds]
        exact Multiset.mem_add.mpr (Or.inr (by simp))
  | @run proc ins next stat mem c hLoc hProc hStep hExecute =>
      obtain ⟨hLt, -, rfl⟩ := Pcb.step?_eq_some hStep
      refine countsTurns_turn hOwned h hLoc hProc rfl rfl rfl rfl ?_ ?_
      · intro other hOther
        exact Function.update_of_ne hOther _ _
      · left
        rcases h.counted proc with hPc | ⟨hText, -⟩
        · simp [Os.setCpu, hPc]
        · rw [hText] at hLt
          exact absurd hLt (Nat.not_lt_zero _)
  | @runNothing proc c hLoc hProc hStep =>
      refine countsTurns_turn hOwned h hLoc hProc rfl rfl rfl rfl (fun _ _ => rfl) ?_
      -- A process that has a turn left and no instruction had none from the start.
      right
      obtain ⟨hHolds, hTurns, -⟩ := counts_turn h hLoc hProc
      have hLoaded : s.Loaded proc := Or.inl (hOwned.exclusive.held_alive c proc hHolds).1
      rw [Config.work_of_program (hOwned.program proc hLoaded)] at hTurns
      have hEnd : ¬ (s.pcb proc).pc < (s.pcb proc).text.length := by
        intro hLt
        rw [Pcb.step?, dif_pos hLt] at hStep
        cases hStep
      have hNone : (s.pcb proc).text.length = 0 ∧ turns proc = 0 := by
        rcases h.counted proc with hPc | ⟨hText, hOne⟩
        · omega
        · rw [hText, List.length_nil] at hTurns
          omega
      exact ⟨List.length_eq_zero_iff.mp hNone.1, hNone.2⟩
  | @load text hLoc hMore hProgram =>
      refine { h with counted := ?_ }
      intro other
      by_cases hSame : other = s.index
      · subst hSame
        left
        simpa [OsCall.turnsAfter] using h.fresh s.index le_rfl
      · simpa [OsCall.turnsAfter, hSame] using h.counted other
  | loadFails hLoc hMore hProgram => exact { h with }
  | addProc hLoc =>
      refine { h with
        fresh := fun other hNew => h.fresh other (Nat.le_of_succ_le hNew)
        queued := ?_ }
      intro other hQueued
      rcases mem_putMlqProc hQueued with hOld | rfl
      · exact h.queued other hOld
      · exact (h.fresh s.index le_rfl).trans_lt (Nat.le_max_left 1 _)
  | finish hLoc hMore => exact { h with }

end Turns

/-! Where the queues are large enough, no process gets lost -/

/-- Everything that has been handed in is in a queue, with a CPU, or freed. -/
structure Os.KeepsAll (cfg : Config) (s : Os CpuId Mem) : Prop where
  index : s.index ≤ cfg.numProcesses
  adding : s.loader = .add → s.index < cfg.numProcesses
  stopped : s.loader = .stopped → s.index = cfg.numProcesses
  prio : ∀ proc, s.Loaded proc → s.prio proc = cfg.prio proc
  level : ∀ level proc, proc ∈ s.mlq.waiting level → cfg.prio proc = level
  place : ∀ proc < s.index, proc ∈ s.freed ∨ proc ∈ s.mlq.readyProcs ∨ ∃ c, s.holds c = some proc

theorem keepsAll_initial (cfg : Config) (mem : Mem) :
    (Os.initial mem : Os CpuId Mem).KeepsAll cfg where
  index := Nat.zero_le _
  adding := fun h => by cases h
  stopped := fun h => by cases h
  prio := by
    rintro proc (hProc | ⟨-, hLoc⟩)
    · exact absurd hProc (Nat.not_lt_zero _)
    · cases hLoc
  level := fun _ _ hWaiting => by cases hWaiting
  place := fun _ hProc => absurd hProc (Nat.not_lt_zero _)

section Keeps

variable {cfg : Config} {execute : ProcId → Inst → Mem → Int → Mem → Prop} {s t : Os CpuId Mem}
  {call : OsCall CpuId} {proc other : ProcId} {level : Fin maxPrio}

private theorem mem_waiting_put {prio : ProcId → Nat} {m : Mlq ProcId}
    (h : other ∈ (putMlqProc prio m proc).waiting level) :
    other ∈ m.waiting level ∨ other = proc ∧ prio proc = level := by
  rw [waiting_putMlqProc] at h
  cases hJoins : m.joins? prio proc with
  | none =>
      rw [hJoins] at h
      exact Or.inl h
  | some joined =>
      rw [hJoins] at h
      dsimp only at h
      by_cases hLevel : level = joined
      · subst hLevel
        rw [Function.update_self] at h
        rcases List.mem_append.mp h with hOld | hNew
        · exact Or.inl hOld
        · exact Or.inr ⟨List.mem_singleton.mp hNew, (joins?_eq_some.mp hJoins).1⟩
      · rw [Function.update_of_ne hLevel] at h
        exact Or.inl h

private theorem mem_waiting_get {m t : Mlq ProcId} {fuel : Nat} {result : Option ProcId}
    (hSlots : m.SlotsBounded) (hGet : getProc fuel m = some (result, t))
    (h : other ∈ t.waiting level) : other ∈ m.waiting level := by
  have hPolicy := getProc_get hSlots hGet
  cases result with
  | none =>
      have hSame : t.waiting = m.waiting := congrArg Ready.waiting hPolicy.none_eq
      rwa [hSame] at h
  | some proc =>
      obtain ⟨served, rest, hServed, hRest⟩ := hPolicy.some_waiting
      change m.waiting served = proc :: rest at hServed
      change t.waiting = Function.update m.waiting served rest at hRest
      rw [hRest] at h
      by_cases hLevel : level = served
      · subst hLevel
        rw [Function.update_self] at h
        rw [hServed]
        exact List.mem_cons_of_mem _ h
      · rwa [Function.update_of_ne hLevel] at h

/-- There is room for a process that does not wait. -/
private theorem Os.KeepsAll.joins (h : s.KeepsAll cfg) (hFits : cfg.QueuesFit)
    (hOwned : s.Owned cfg) (hLoaded : s.Loaded proc) (hProc : proc < cfg.numProcesses)
    (hOutside : proc ∉ s.mlq.readyProcs) : (s.mlq.joins? s.prio proc).isSome := by
  have hPrio := h.prio proc hLoaded
  obtain ⟨level, hLevel⟩ : ∃ level : Fin maxPrio, cfg.prio proc = level :=
    ⟨⟨cfg.prio proc, hFits.prio proc hProc⟩, rfl⟩
  have hPart : (s.mlq.waiting level : Multiset ProcId) ≤ s.mlq.readyProcs := le_everyone _ level
  have hNodup : (proc ::ₘ (s.mlq.waiting level : Multiset ProcId)).Nodup := by
    rw [Multiset.nodup_cons]
    exact ⟨fun hMem => hOutside (Multiset.mem_of_le hPart hMem),
      Multiset.nodup_of_le hPart hOwned.exclusive.nodup⟩
  have hSame : (proc ::ₘ (s.mlq.waiting level : Multiset ProcId)).toFinset ⊆
      (Finset.range cfg.numProcesses).filter fun proc => cfg.prio proc = level := by
    intro other hOther
    rw [Finset.mem_filter, Finset.mem_range]
    rcases Multiset.mem_cons.mp (Multiset.mem_toFinset.mp hOther) with rfl | hWaits
    · exact ⟨hProc, hLevel⟩
    · have hAlive := hOwned.exclusive.pool_alive other (Multiset.mem_of_le hPart hWaits)
      exact ⟨hAlive.1.trans_le h.index, h.level level other hWaits⟩
  have hCard := (Finset.card_le_card hSame).trans_lt (hFits.room level)
  rw [Multiset.toFinset_card_of_nodup hNodup, Multiset.card_cons, Multiset.coe_card] at hCard
  have hJoins : s.mlq.joins? s.prio proc = some level :=
    joins?_eq_some.mpr ⟨hPrio.trans hLevel, Nat.lt_sub_of_add_lt hCard⟩
  rw [hJoins]
  rfl

private theorem level_put (h : s.KeepsAll cfg) (hLoaded : s.Loaded proc)
    (hWaiting : other ∈ (putMlqProc s.prio s.mlq proc).waiting level) : cfg.prio other = level := by
  rcases mem_waiting_put hWaiting with hOld | ⟨rfl, hLevel⟩
  · exact h.level level other hOld
  · exact (h.prio other hLoaded).symm.trans hLevel

/-- The places of the other processes when one is handed in. -/
private theorem mem_readyProcs_put {m : Mlq ProcId} {prio : ProcId → Nat}
    (hJoins : (m.joins? prio proc).isSome) (h : other = proc ∨ other ∈ m.readyProcs) :
    other ∈ (putMlqProc prio m proc).readyProcs := by
  rw [readyProcs_putMlqProc, if_pos hJoins, Multiset.mem_cons]
  exact h

variable [DecidableEq CpuId]

/-- A CPU keeps its process. -/
private theorem place_keep {c : CpuId} {vars : Cpu} (h : s.KeepsAll cfg)
    (hVars : vars.holds = s.holds c) (hProc : proc < s.index) :
    proc ∈ s.freed ∨ proc ∈ s.mlq.readyProcs ∨ ∃ c', (s.setCpu c vars).holds c' = some proc := by
  have hSame : (s.setCpu c vars).holds = s.holds := by
    rw [holds_setCpu, hVars]
    exact Function.update_eq_self c s.holds
  rw [hSame]
  exact h.place proc hProc

/-- The process of another CPU. -/
private theorem holds_other {c : CpuId} {vars : Cpu} (hGone : s.holds c ≠ some proc)
    (h : ∃ c', s.holds c' = some proc) : ∃ c', (s.setCpu c vars).holds c' = some proc := by
  obtain ⟨c', hHolds⟩ := h
  refine ⟨c', ?_⟩
  rw [holds_setCpu, Function.update_of_ne]
  · exact hHolds
  · rintro rfl
    exact hGone hHolds

theorem keepsAll_step (hFits : cfg.QueuesFit) (hOwned : s.Owned cfg) (h : s.KeepsAll cfg)
    (step : OsStep cfg execute s call t) : t.KeepsAll cfg := by
  obtain ⟨-, move⟩ := step
  cases move with
  | check c hLoc => exact { h with place := fun _ => place_keep h (Cpu.holds_check hLoc _) }
  | recheck c hLoc => exact { h with place := fun _ => place_keep h (Cpu.holds_recheck hLoc _ _) }
  | @free proc c hLoc hProc =>
      have hHolds : s.holds c = some proc := (Cpu.holds_of_loc (by simp [hLoc])).trans hProc
      refine { h with place := ?_ }
      intro other hOther
      by_cases hSame : other = proc
      · exact Or.inl (hSame ▸ List.mem_cons_self)
      · have hGone : s.holds c ≠ some other := by
          rw [hHolds]
          exact fun hEq => hSame (Option.some.inj hEq).symm
        exact (h.place other hOther).imp (List.mem_cons_of_mem proc) (Or.imp id (holds_other hGone))
  | @putProc proc c hLoc hProc =>
      have hHolds : s.holds c = some proc := (Cpu.holds_of_loc (by simp [hLoc])).trans hProc
      have hLoaded := (hOwned.exclusive.held_alive c proc hHolds).1
      have hJoins := h.joins hFits hOwned (Or.inl hLoaded) (hLoaded.trans_le h.index)
        (hOwned.exclusive.outside c proc hHolds)
      refine { h with
        level := fun _ _ hWaiting => level_put h (Or.inl hLoaded) hWaiting
        place := ?_ }
      intro other hOther
      by_cases hSame : other = proc
      · exact Or.inr (Or.inl (mem_readyProcs_put hJoins (Or.inl hSame)))
      · have hGone : s.holds c ≠ some other := by
          rw [hHolds]
          exact fun hEq => hSame (Option.some.inj hEq).symm
        exact (h.place other hOther).imp id (Or.imp
          (fun hQueued => mem_readyProcs_put hJoins (Or.inr hQueued)) (holds_other hGone))
  | @getProc m result why fuel c hLoc hGet =>
      have hNone : s.holds c = none := by rw [Os.holds, Cpu.holds, hLoc]
      have hTaken := readyProcs_getProc hOwned.slots hGet
      refine { h with
        level := fun _ _ hWaiting => h.level _ _ (mem_waiting_get hOwned.slots hGet hWaiting)
        place := ?_ }
      intro other hOther
      rcases h.place other hOther with hFreed | hQueued | hHeld
      · exact Or.inl hFreed
      · rw [← hTaken] at hQueued
        rcases Multiset.mem_add.mp hQueued with hStays | hGoes
        · exact Or.inr (Or.inl hStays)
        · refine Or.inr (Or.inr ⟨c, ?_⟩)
          rw [holds_setCpu, Function.update_self, Cpu.holds_fetched]
          simpa using hGoes
      · have hGone : s.holds c ≠ some other := by simp [hNone]
        exact Or.inr (Or.inr (holds_other hGone hHeld))
  | @run proc ins next stat mem c hLoc hProc hStep hExecute =>
      obtain ⟨-, -, rfl⟩ := Pcb.step?_eq_some hStep
      refine { h with prio := ?_, place := fun _ => place_keep h (Cpu.holds_ran hLoc) }
      intro other hLoaded
      rw [← h.prio other hLoaded]
      by_cases hSame : other = proc
      · subst hSame
        simp [Os.prio, Os.setCpu]
      · simp [Os.prio, Os.setCpu, hSame]
  | runNothing c hLoc hProc hStep =>
      exact { h with place := fun _ => place_keep h (Cpu.holds_ran hLoc) }
  | @load text hLoc hMore hProgram =>
      refine { h with adding := fun _ => hMore, stopped := (fun hNot => by cases hNot), prio := ?_ }
      rintro other (hOther | ⟨rfl, -⟩)
      · rw [← h.prio other (Or.inl hOther)]
        simp [Os.prio, Nat.ne_of_lt hOther]
      · simp [Os.prio]
  | loadFails hLoc hMore hProgram => exact { h with }
  | addProc hLoc =>
      have hLoaded : s.Loaded s.index := Or.inr ⟨rfl, hLoc⟩
      have hOutside : s.index ∉ s.mlq.readyProcs := fun hQueued =>
        (hOwned.exclusive.pool_alive s.index hQueued).1.false
      have hJoins := h.joins hFits hOwned hLoaded (h.adding hLoc) hOutside
      refine
        { index := h.adding hLoc
          adding := fun hNot => by cases hNot
          stopped := fun hNot => by cases hNot
          prio := ?_
          level := fun _ _ hWaiting => level_put h hLoaded hWaiting
          place := ?_ }
      · rintro other (hOther | ⟨-, hNot⟩)
        · rcases Nat.lt_succ_iff_lt_or_eq.mp hOther with hOther | rfl
          · exact h.prio other (Or.inl hOther)
          · exact h.prio _ hLoaded
        · cases hNot
      · intro other hOther
        rcases Nat.lt_succ_iff_lt_or_eq.mp hOther with hOther | hSame
        · exact (h.place other hOther).imp id (Or.imp
            (fun hQueued => mem_readyProcs_put hJoins (Or.inr hQueued)) id)
        · exact Or.inr (Or.inl (mem_readyProcs_put hJoins (Or.inl hSame)))
  | finish hLoc hMore =>
      refine { h with
        adding := fun hNot => by cases hNot
        stopped := fun _ => Nat.le_antisymm h.index (Nat.le_of_not_lt hMore)
        prio := ?_ }
      rintro other (hOther | ⟨-, hNot⟩)
      · exact h.prio other (Or.inl hOther)
      · cases hNot

end Keeps

end Btlos
