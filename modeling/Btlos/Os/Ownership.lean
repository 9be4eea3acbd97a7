import Btlos.Library.Custody
import Btlos.Os.System

/-! Who owns a process. A CPU owns the process of its variable `proc` from the
`get_proc` that set the variable up to the `put_proc` or `free` that gives the
process up; the pointer that stays behind until the next `get_proc` is not used. -/
namespace Btlos

open Transition TimeShare Custody

variable {CpuId Mem : Type*}

/-! What the local steps leave to the CPU -/

theorem Cpu.holds_check {cpu : Cpu} (h : cpu.loc = .check) (finished : ProcId → Bool) :
    (cpu.check finished).holds = cpu.holds := by
  rcases cpu with ⟨loc, proc, timeLeft⟩
  subst h
  cases proc with
  | none => rfl
  | some proc =>
      rw [Cpu.check]
      dsimp only
      split_ifs <;> rfl

theorem Cpu.holds_recheck {cpu : Cpu} (h : cpu.loc = .recheck) (timeSlot : Int) (done : Bool) :
    (cpu.recheck timeSlot done).holds = cpu.holds := by
  rcases cpu with ⟨loc, proc, timeLeft⟩
  subst h
  rw [Cpu.recheck]
  split_ifs <;> rfl

theorem Cpu.holds_ran {cpu : Cpu} (h : cpu.loc = .run) : cpu.ran.holds = cpu.holds := by
  rcases cpu with ⟨loc, proc, timeLeft⟩
  subst h
  rfl

theorem Cpu.holds_fetched (cpu : Cpu) (why : Fetch) (result : Option ProcId) :
    (cpu.fetched why result).holds = result := by
  cases why <;> cases result <;> rfl

theorem Cpu.holds_of_loc {cpu : Cpu} (h : ∀ why, cpu.loc ≠ .fetch why) : cpu.holds = cpu.proc := by
  rcases cpu with ⟨loc, proc, timeLeft⟩
  cases loc with
  | fetch why => exact absurd rfl (h why)
  | _ => rfl

/-! What `run` does to a process -/

theorem Pcb.step?_eq_some {proc next : Pcb} {ins : Inst} (h : proc.step? = some (ins, next)) :
    ∃ hLt : proc.pc < proc.text.length,
      ins = proc.text[proc.pc] ∧ next = { proc with pc := proc.pc + 1 } := by
  rw [Pcb.step?] at h
  split_ifs at h with hLt
  cases h
  exact ⟨hLt, rfl, rfl⟩

/-- The instructions up to `pc` have been executed, each once and in order. -/
def Executed (proc : Pcb) (executed : List Inst) : Prop :=
  proc.pc ≤ proc.text.length ∧ executed = proc.text.take proc.pc

theorem Executed.step {proc next : Pcb} {ins : Inst} {executed : List Inst}
    (h : Executed proc executed) (hStep : proc.step? = some (ins, next)) :
    Executed next (executed ++ [ins]) := by
  obtain ⟨hLt, rfl, rfl⟩ := Pcb.step?_eq_some hStep
  refine ⟨hLt, ?_⟩
  rw [h.2]
  exact List.take_append_getElem hLt

/-! The invariant -/

/-- The loader has made the PCB. -/
def Os.Loaded (s : Os CpuId Mem) (proc : ProcId) : Prop :=
  proc < s.index ∨ (proc = s.index ∧ s.loader = .add)

structure Os.Owned (cfg : Config) (s : Os CpuId Mem) : Prop where
  slots : s.mlq.SlotsBounded
  exclusive : Exclusive s.Alive s.mlq.readyProcs s.holds
  freed_lt : ∀ proc ∈ s.freed, proc < s.index
  executed : ∀ proc, Executed (s.pcb proc) (s.executed proc)
  program : ∀ proc, s.Loaded proc → cfg.program proc = some (s.pcb proc).text
  fresh : ∀ proc, s.index ≤ proc → s.executed proc = []

theorem owned_initial (cfg : Config) (mem : Mem) : (Os.initial mem : Os CpuId Mem).Owned cfg where
  slots _ := Nat.zero_le _
  exclusive := by
    have hPool : (Os.initial mem : Os CpuId Mem).mlq.readyProcs = 0 :=
      everyone_eq_zero waiting_initial
    rw [hPool]
    exact exclusive_initial
  freed_lt := nofun
  executed _ := ⟨Nat.zero_le _, rfl⟩
  program proc hLoaded := by
    rcases hLoaded with h | ⟨-, h⟩
    · exact absurd h (Nat.not_lt_zero _)
    · cases h
  fresh _ _ := rfl

section Step

variable {cfg : Config} {execute : ProcId → Inst → Mem → Int → Mem → Prop} {s t : Os CpuId Mem}
  {call : OsCall CpuId}

/-- What is in a queue is among the ready processes. -/
private theorem mem_readyProcs_of_at {level : Fin maxPrio} {position : Nat} {proc : ProcId}
    (h : s.At (.queue level position) proc) : proc ∈ s.mlq.readyProcs := by
  have hQueue : (s.mlq.waiting level)[position]? = some proc := h
  exact mem_readyProcs.mpr ⟨level, List.mem_of_getElem? hQueue⟩

theorem Os.Owned.place_unique (h : s.Owned cfg) {proc : ProcId} {first second : Place CpuId}
    (hFirst : s.At first proc) (hSecond : s.At second proc) : first = second := by
  cases first with
  | queue level position =>
      cases second with
      | queue level' position' =>
          have hNodup : (everyone s.mlq.waiting).Nodup := h.exclusive.nodup
          obtain ⟨rfl, rfl⟩ := position_unique hNodup hFirst hSecond
          rfl
      | cpu c => exact absurd (mem_readyProcs_of_at hFirst) (h.exclusive.outside c proc hSecond)
  | cpu c =>
      cases second with
      | queue level position =>
          exact absurd (mem_readyProcs_of_at hSecond) (h.exclusive.outside c proc hFirst)
      | cpu c' => rw [h.exclusive.unique c c' proc hFirst hSecond]

theorem Os.Owned.alive_of_at (h : s.Owned cfg) {proc : ProcId} {place : Place CpuId}
    (hAt : s.At place proc) : s.Alive proc := by
  cases place with
  | queue level position =>
      exact h.exclusive.pool_alive proc (mem_readyProcs_of_at hAt)
  | cpu c => exact h.exclusive.held_alive c proc hAt

private theorem owned_load {text : List Inst} (h : s.Owned cfg)
    (hProgram : cfg.program s.index = some text) :
    ({ s with
        pcb := Function.update s.pcb s.index ⟨text, 0, cfg.prio s.index⟩
        loader := .add } : Os CpuId Mem).Owned cfg := by
  refine { h with executed := ?_, program := ?_ }
  · intro p
    by_cases hp : p = s.index
    · subst hp
      simpa [Executed] using h.fresh s.index le_rfl
    · simpa [hp] using h.executed p
  · rintro p (hp | ⟨rfl, -⟩)
    · have hOld : p ≠ s.index := hp.ne
      simpa [hOld] using h.program p (Or.inl hp)
    · simpa using hProgram

private theorem owned_addProc (h : s.Owned cfg) (hLoc : s.loader = .add) :
    ({ s with
        mlq := Btlos.addProc s.prio s.mlq s.index
        index := s.index + 1
        loader := .load } : Os CpuId Mem).Owned cfg := by
  have hGrow : ∀ p, s.Alive p → p < s.index + 1 ∧ p ∉ s.freed :=
    fun p hp => ⟨Nat.lt_succ_of_lt hp.1, hp.2⟩
  refine ⟨?_, ?_, fun p hp => Nat.lt_succ_of_lt (h.freed_lt p hp), h.executed, ?_,
    fun p hNew => h.fresh p (Nat.le_of_succ_le hNew)⟩
  · exact h.slots.put s.prio s.index
  · change Exclusive (fun p => p < s.index + 1 ∧ p ∉ s.freed)
      (putMlqProc s.prio s.mlq s.index).readyProcs s.holds
    rw [readyProcs_putMlqProc]
    split_ifs
    · have hFresh : s.index ∉ s.freed := fun hFreed => (h.freed_lt _ hFreed).false
      exact h.exclusive.add (fun hAlive => hAlive.1.false) hGrow ⟨Nat.lt_succ_self _, hFresh⟩
    · exact h.exclusive.mono hGrow
  · rintro p (hp | ⟨-, hp⟩)
    · rcases Nat.lt_succ_iff_lt_or_eq.mp hp with hp | rfl
      · exact h.program p (Or.inl hp)
      · exact h.program _ (Or.inr ⟨rfl, hLoc⟩)
    · cases hp

private theorem owned_finish (h : s.Owned cfg) :
    ({ s with done := true, loader := .stopped } : Os CpuId Mem).Owned cfg := by
  refine { h with program := ?_ }
  rintro p (hp | ⟨-, hp⟩)
  · exact h.program p (Or.inl hp)
  · cases hp

variable [DecidableEq CpuId]

theorem holds_setCpu (s : Os CpuId Mem) (c : CpuId) (vars : Cpu) :
    (s.setCpu c vars).holds = Function.update s.holds c vars.holds := by
  funext other
  by_cases h : other = c
  · subst h
    simp [Os.holds, Os.setCpu]
  · simp [Os.holds, Os.setCpu, h]

/-- A step that keeps the CPU's process. -/
private theorem exclusive_keep {alive : ProcId → Prop} {pool : Multiset ProcId} {c : CpuId}
    {vars : Cpu} (h : Exclusive alive pool s.holds) (hVars : vars.holds = (s.cpu c).holds) :
    Exclusive alive pool (s.setCpu c vars).holds := by
  rw [holds_setCpu, hVars]
  exact (Function.update_eq_self c s.holds).symm ▸ h

private theorem Os.Owned.keep {c : CpuId} {vars : Cpu} (h : s.Owned cfg)
    (hVars : vars.holds = (s.cpu c).holds) : (s.setCpu c vars).Owned cfg :=
  { h with exclusive := exclusive_keep h.exclusive hVars }

private theorem owned_free {c : CpuId} {proc : ProcId} {vars : Cpu} (h : s.Owned cfg)
    (hHolds : s.holds c = some proc) (hVars : vars.holds = none) :
    ({ s with freed := proc :: s.freed }.setCpu c vars).Owned cfg := by
  refine { h with exclusive := ?_, freed_lt := ?_ }
  · have hDestroyed := (h.exclusive.destroy hHolds).mono fun p hp =>
      (⟨hp.1.1, List.not_mem_cons_of_ne_of_not_mem hp.2 hp.1.2⟩ : p < s.index ∧ p ∉ proc :: s.freed)
    rw [holds_setCpu, hVars]
    exact hDestroyed
  · intro p hp
    rcases List.mem_cons.mp hp with rfl | hp
    · exact (h.exclusive.held_alive c p hHolds).1
    · exact h.freed_lt p hp

private theorem owned_putProc {c : CpuId} {proc : ProcId} {vars : Cpu} (h : s.Owned cfg)
    (hHolds : s.holds c = some proc) (hVars : vars.holds = none) :
    ({ s with mlq := Btlos.putProc s.prio s.mlq proc }.setCpu c vars).Owned cfg := by
  refine { h with slots := ?_, exclusive := ?_ }
  · exact h.slots.put s.prio proc
  · rw [holds_setCpu, hVars]
    change Exclusive s.Alive (putMlqProc s.prio s.mlq proc).readyProcs
      (Function.update s.holds c none)
    rw [readyProcs_putMlqProc]
    split_ifs
    · exact h.exclusive.giveBack hHolds
    · exact h.exclusive.release c

private theorem owned_getProc {c : CpuId} {m : Mlq ProcId} {result : Option ProcId} {vars : Cpu}
    {fuel : Nat} (h : s.Owned cfg) (hGet : Btlos.getProc fuel s.mlq = some (result, m))
    (hVars : vars.holds = result) : ({ s with mlq := m }.setCpu c vars).Owned cfg := by
  refine { h with slots := ?_, exclusive := ?_ }
  · exact h.slots.get hGet
  · rw [holds_setCpu, hVars]
    have hTaken := readyProcs_getProc h.slots hGet
    change Exclusive s.Alive m.readyProcs (Function.update s.holds c result)
    cases result with
    | none =>
        have hSame : m.readyProcs = s.mlq.readyProcs := (add_zero _).symm.trans hTaken
        rw [hSame]
        exact h.exclusive.release c
    | some proc =>
        have hCons : proc ::ₘ m.readyProcs = s.mlq.readyProcs := by
          rw [← Multiset.singleton_add, add_comm]
          exact hTaken
        exact (hCons ▸ h.exclusive).take c

private theorem owned_run {c : CpuId} {proc : ProcId} {ins : Inst} {next : Pcb} {mem : Mem}
    {exited : Bool} {vars : Cpu} (h : s.Owned cfg) (hHolds : s.holds c = some proc)
    (hStep : (s.pcb proc).step? = some (ins, next)) (hVars : vars.holds = (s.cpu c).holds) :
    ({ s with
        pcb := Function.update s.pcb proc next
        executed := Function.update s.executed proc (s.executed proc ++ [ins])
        mem := mem
        exited := exited }.setCpu c vars).Owned cfg := by
  have hAlive := h.exclusive.held_alive c proc hHolds
  refine { h with exclusive := ?_, executed := ?_, program := ?_, fresh := ?_ }
  · rw [holds_setCpu, hVars]
    exact (Function.update_eq_self c s.holds).symm ▸ h.exclusive
  · intro p
    by_cases hp : p = proc
    · subst hp
      simpa [Os.setCpu] using (h.executed p).step hStep
    · simpa [Os.setCpu, hp] using h.executed p
  · intro p hLoaded
    by_cases hp : p = proc
    · subst hp
      obtain ⟨-, -, rfl⟩ := Pcb.step?_eq_some hStep
      simpa [Os.setCpu] using h.program p hLoaded
    · simpa [Os.setCpu, hp] using h.program p hLoaded
  · intro p hNew
    have hp : p ≠ proc := fun hEq => (hEq ▸ hAlive.1).not_ge hNew
    simpa [Os.setCpu, hp] using h.fresh p hNew

/-- Every step of every party keeps the processes in one place. -/
theorem owned_step (h : s.Owned cfg) (step : OsStep cfg execute s call t) : t.Owned cfg := by
  obtain ⟨-, move⟩ := step
  cases move with
  | check c hLoc => exact h.keep (Cpu.holds_check hLoc _)
  | recheck c hLoc => exact h.keep (Cpu.holds_recheck hLoc _ _)
  | free c hLoc hProc =>
      exact owned_free h ((Cpu.holds_of_loc (by simp [hLoc])).trans hProc) rfl
  | putProc c hLoc hProc =>
      exact owned_putProc h ((Cpu.holds_of_loc (by simp [hLoc])).trans hProc) rfl
  | getProc fuel c hLoc hGet => exact owned_getProc h hGet (Cpu.holds_fetched _ _ _)
  | run c hLoc hProc hStep hExecute =>
      exact owned_run h ((Cpu.holds_of_loc (by simp [hLoc])).trans hProc) hStep
        (Cpu.holds_ran hLoc)
  | runNothing c hLoc hProc hStep => exact h.keep (Cpu.holds_ran hLoc)
  | load hLoc hMore hProgram => exact owned_load h hProgram
  | loadFails hLoc hMore hProgram => exact { h with }
  | addProc hLoc => exact owned_addProc h hLoc
  | finish hLoc hMore => exact owned_finish h

theorem owned_run_of {mem : Mem} {calls : List (OsCall CpuId)}
    (run : Runs (OsStep cfg execute) (Os.initial mem) calls s) : s.Owned cfg :=
  run.invariant (Os.Owned cfg) (owned_initial cfg mem) fun _ _ _ h step => owned_step h step

/-- What `get_proc` returns and what is run was in a place, and so is not freed. -/
theorem Os.Owned.alive_of_step (h : s.Owned cfg) {proc : ProcId} {c : CpuId}
    (step : OsStep cfg execute s call t)
    (hCall : call = .getProc c (some proc) ∨ call = .run c proc) : s.Alive proc := by
  obtain ⟨-, move⟩ := step
  rcases hCall with rfl | rfl
  · cases move with
    | getProc fuel c hLoc hGet =>
        apply h.exclusive.pool_alive proc
        rw [← readyProcs_getProc h.slots hGet]
        exact Multiset.mem_add.mpr (Or.inr (by simp))
  · cases move with
    | run c hLoc hProc hStep hExecute =>
        exact h.exclusive.held_alive c proc ((Cpu.holds_of_loc (by simp [hLoc])).trans hProc)
    | runNothing c hLoc hProc hStep =>
        exact h.exclusive.held_alive c proc ((Cpu.holds_of_loc (by simp [hLoc])).trans hProc)

end Step

/-- No process is in two places, a freed one is in none and is not used again, and
the instructions that were executed for a process are the first `pc` of its text. -/
structure Os.OneOwner [DecidableEq CpuId] (cfg : Config)
    (execute : ProcId → Inst → Mem → Int → Mem → Prop) (s : Os CpuId Mem) : Prop where
  place_unique : ∀ proc first second, s.At first proc → s.At second proc → first = second
  freed_nowhere : ∀ proc ∈ s.freed, ∀ place, ¬ s.At place proc
  freed_unused : ∀ proc ∈ s.freed, ∀ c t,
    ¬ OsStep cfg execute s (.getProc c (some proc)) t ∧ ¬ OsStep cfg execute s (.run c proc) t
  pc_le : ∀ proc, (s.pcb proc).pc ≤ (s.pcb proc).text.length
  executed : ∀ proc, s.executed proc = (s.pcb proc).text.take (s.pcb proc).pc
  program : ∀ proc, s.Loaded proc → cfg.program proc = some (s.pcb proc).text

/-- With any number of CPUs and in every order of the steps, every process has
one owner and is executed once. -/
theorem oneOwner_run [DecidableEq CpuId] {cfg : Config}
    {execute : ProcId → Inst → Mem → Int → Mem → Prop} {mem : Mem} {s : Os CpuId Mem}
    {calls : List (OsCall CpuId)}
    (run : Runs (OsStep cfg execute) (Os.initial mem) calls s) : s.OneOwner cfg execute := by
  have hOwned := owned_run_of run
  exact
    { place_unique := fun proc first second => hOwned.place_unique
      freed_nowhere := fun proc hFreed place hAt => (hOwned.alive_of_at hAt).2 hFreed
      freed_unused := fun proc hFreed c t =>
        ⟨fun step => (hOwned.alive_of_step step (Or.inl rfl)).2 hFreed,
          fun step => (hOwned.alive_of_step step (Or.inr rfl)).2 hFreed⟩
      pc_le := fun proc => (hOwned.executed proc).1
      executed := fun proc => (hOwned.executed proc).2
      program := hOwned.program }

section Example

/-- One process of `length` calculations, which gets one slot of time at once. -/
def calculations (length : Nat) : Config where
  numProcesses := 1
  program := fun _ => some (List.replicate length ⟨.calc, 0, 0, 0⟩)
  prio := fun _ => 0
  timeSlot := 1

/-- A calculation succeeds and leaves the memory as it is. -/
def calcSucceeds (_ : ProcId) (_ : Inst) (mem : Nat) (stat : Int) (mem' : Nat) : Prop :=
  stat = 0 ∧ mem' = mem

/-- Two CPUs, one of which runs the process to its end and frees it. -/
theorem oneOwner_run_freed : ∃ s : Os Bool Nat,
    Runs (OsStep (calculations 1) calcSucceeds) (Os.initial 0)
        [.load 0, .addProc 0, .compute true, .getProc true (some 0), .compute false, .compute true,
          .run true 0, .compute true, .free true 0] s ∧
      s.freed = [0] ∧ s.OneOwner (calculations 1) calcSucceeds := by
  have hRun : ∃ s : Os Bool Nat,
      Runs (OsStep (calculations 1) calcSucceeds) (Os.initial 0)
          [.load 0, .addProc 0, .compute true, .getProc true (some 0), .compute false,
            .compute true, .run true 0, .compute true, .free true 0] s ∧
        s.freed = [0] :=
    ⟨_, Runs.cons ⟨rfl, .load rfl (by decide) rfl⟩ <|
      Runs.cons ⟨rfl, .addProc rfl⟩ <|
      Runs.cons ⟨rfl, .check true rfl⟩ <|
      Runs.cons ⟨rfl, .getProc 1 true rfl rfl⟩ <|
      Runs.cons ⟨rfl, .check false rfl⟩ <|
      Runs.cons ⟨rfl, .recheck true rfl⟩ <|
      Runs.cons ⟨rfl, .run true rfl rfl rfl ⟨rfl, rfl⟩⟩ <|
      Runs.cons ⟨rfl, .check true rfl⟩ <|
      Runs.one ⟨rfl, .free true rfl rfl⟩, rfl⟩
  obtain ⟨s, run, hFreed⟩ := hRun
  exact ⟨s, run, hFreed, oneOwner_run run⟩

/-- Right after `put_proc` the process is in its queue, and still in the variable
`proc` of the CPU. -/
theorem proc_after_put : ∃ s : Os Unit Nat,
    Runs (OsStep (calculations 2) calcSucceeds) (Os.initial 0)
        [.load 0, .addProc 0, .compute (), .getProc () (some 0), .compute (), .run () 0,
          .compute (), .putProc () 0] s ∧
      (s.mlq.waiting 0)[0]? = some 0 ∧ (s.cpu ()).proc = some 0 :=
  ⟨_, Runs.cons ⟨rfl, .load rfl (by decide) rfl⟩ <|
    Runs.cons ⟨rfl, .addProc rfl⟩ <|
    Runs.cons ⟨rfl, .check () rfl⟩ <|
    Runs.cons ⟨rfl, .getProc 1 () rfl rfl⟩ <|
    Runs.cons ⟨rfl, .recheck () rfl⟩ <|
    Runs.cons ⟨rfl, .run () rfl rfl rfl ⟨rfl, rfl⟩⟩ <|
    Runs.cons ⟨rfl, .check () rfl⟩ <|
    Runs.one ⟨rfl, .putProc () rfl rfl⟩, rfl, rfl⟩

end Example

end Btlos
