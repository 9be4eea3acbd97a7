import Mathlib.Order.Interval.Finset.Nat
import Btlos.Library.Greedy
import Btlos.Os.Arrivals
import Btlos.Os.WorkConserving

/-! When the processes are done, from the configuration alone: the slot in which a process
is handed in, its own turns, and the turns that the others may take before it. -/
namespace Btlos

open Transition

variable {n : Nat} {Mem : Type*} {cfg : Config} {startTime : ProcId → UInt64}
  {execute : ProcId → Inst → Mem → Int → Mem → Prop} {s : Clocked n Mem} {round : Nat}
  {start : ProcId → Nat} {proc : ProcId}

/-- The last slot in which a process has turns left, with that many CPUs. -/
def Config.deadline (cfg : Config) (cpus : Nat) (start : ProcId → Nat) (proc : ProcId) : Nat :=
  arrivalSlot start proc + cfg.work proc +
    (∑ other ∈ (Finset.range cfg.numProcesses).erase proc, cfg.work other) / cpus +
    (cfg.numProcesses - 1 - proc)

theorem Config.arrivalSlot_lt_deadline (cfg : Config) (cpus : Nat) (start : ProcId → Nat)
    (proc : ProcId) : arrivalSlot start proc < cfg.deadline cpus start proc := by
  have hWork : 0 < cfg.work proc := Nat.le_max_left _ _
  exact (Nat.lt_add_of_pos_right hWork).trans_le
    ((Nat.le_add_right _ _).trans (Nat.le_add_right _ _))

theorem arrivalSlot_strictMono (start : ProcId → Nat) : StrictMono (arrivalSlot start) := by
  apply strictMono_nat_of_lt_succ
  intro i
  exact (Nat.lt_succ_self _).trans_le (Nat.le_max_right _ _)

/-! The slots in which a process is run -/

def Clocked.slotsOf (s : Clocked n Mem) (proc : ProcId) : Finset Nat :=
  ((s.ran.filter fun r => r.proc == proc).map Ran.slot).toFinset

private theorem mem_slotsOf {slot : Nat} :
    slot ∈ s.slotsOf proc ↔ ∃ r ∈ s.ran, r.proc = proc ∧ r.slot = slot := by
  simp [Clocked.slotsOf, and_assoc]

private theorem card_slotsOf (h : s.Timed cfg round) (proc : ProcId) :
    (s.slotsOf proc).card = s.turns proc := by
  have hNodup : ((s.ran.filter fun r => r.proc == proc).map Ran.slot).Nodup := by
    rw [List.Nodup, List.pairwise_map]
    apply (h.ordered.filter _).imp_of_mem
    intro first second hFirst hSecond hPair
    have hOne := beq_iff_eq.mp (List.mem_filter.mp hFirst).2
    have hTwo := beq_iff_eq.mp (List.mem_filter.mp hSecond).2
    exact (hPair.2 (Or.inr (hOne.trans hTwo.symm))).ne
  rw [Clocked.slotsOf, List.toFinset_card_of_nodup hNodup, List.length_map, Clocked.turns,
    List.countP_eq_length_filter]

/-- In one slot a process is run by one CPU. -/
private theorem cpu_unique (h : s.Timed cfg round) {first second : Ran n} (hFirst : first ∈ s.ran)
    (hSecond : second ∈ s.ran) (hProc : first.proc = second.proc)
    (hSlot : first.slot = second.slot) : first.cpu = second.cpu := by
  have hNe : s.ran.Pairwise fun first second =>
      first.proc = second.proc → first.slot ≠ second.slot :=
    h.ordered.imp fun hPair hSame => (hPair.2 (Or.inr hSame)).ne
  apply List.Pairwise.forall_of_forall_of_flip
    (R := fun first second : Ran n => first.proc = second.proc → first.slot = second.slot →
      first.cpu = second.cpu) ?_ ?_ ?_ hFirst hSecond hProc hSlot
  · intro r _ _ _
    rfl
  · exact hNe.imp fun hPair hSame hHere => absurd hHere (hPair hSame)
  · exact hNe.imp fun hPair hSame hHere => absurd hHere.symm (hPair hSame.symm)

/-- When all CPUs run something, they run as many processes as there are CPUs. -/
private theorem le_card_ran (h : s.Timed cfg round) (hIndex : s.os.index ≤ cfg.numProcesses)
    {slot : Nat} (hAll : ∀ c, ∃ r ∈ s.ran, r.cpu = c ∧ r.slot = slot) :
    n ≤ ((Finset.range cfg.numProcesses).filter fun other => slot ∈ s.slotsOf other).card := by
  choose record hRan hCpu hSlot using hAll
  calc n = (Finset.univ : Finset (Fin n)).card := (Finset.card_fin n).symm
    _ ≤ _ := by
        apply Finset.card_le_card_of_injOn fun c => (record c).proc
        · intro c _
          have hLoaded := (h.loaded _ (hRan c)).trans_le hIndex
          exact Finset.mem_filter.mpr ⟨Finset.mem_range.mpr hLoaded,
            mem_slotsOf.mpr ⟨record c, hRan c, rfl, hSlot c⟩⟩
        · intro c _ c' _ hSame
          have hUnique := cpu_unique h (hRan c) (hRan c') hSame ((hSlot c).trans (hSlot c').symm)
          rwa [hCpu, hCpu] at hUnique

/-! The loader is in time -/

/-- The loader has not come past the slot of the process that is next. -/
private theorem Clocked.Loads.slot_le (h : s.Loads start) (hLoader : s.os.loader ≠ .stopped)
    (hHere : (s.timer.device ldEvent).phase ≠ .detached) :
    s.slot ldEvent ≤ arrivalSlot start s.os.index := by
  have hSoonest : soonestSlot start s.os.index ≤ arrivalSlot start s.os.index := by
    rw [arrivalSlot_eq]
    exact Nat.le_max_right _ _
  cases hPhase : (s.timer.device ldEvent).phase with
  | detached => exact absurd hPhase hHere
  | waiting => exact (Nat.le_succ _).trans (h.waiting hLoader hPhase).2
  | working =>
      cases hDue : s.due ldEvent with
      | true => exact (Nat.le_succ _).trans ((h.due hDue).le.trans hSoonest)
      | false => exact (h.working hLoader ⟨hPhase, hDue⟩).2

private theorem Clocked.Conserving.lt_index (h : s.Conserving cfg round) (hLoads : s.Loads start)
    (hProc : proc < cfg.numProcesses) (hRound : arrivalSlot start proc + 1 < round) :
    proc < s.os.index := by
  by_contra hNotYet
  have hLoader : s.os.loader ≠ .stopped := by
    intro hStopped
    rw [h.keeps.stopped hStopped] at hNotYet
    exact hNotYet hProc
  have hHere : (s.timer.device ldEvent).phase ≠ .detached := fun hGone => hLoader (h.left hGone)
  have hRound' : round ≤ s.slot ldEvent + 1 := (h.inRound.returned_le hHere).2
  have hSlot := hLoads.slot_le hLoader hHere
  have hOrder := (arrivalSlot_strictMono start).monotone (Nat.le_of_not_lt hNotYet)
  omega

/-! All processes get done -/

/-- A process that has been handed in and is not done is served, but for the slots in which
others are handed in. -/
private theorem Clocked.Conserving.serves (h : s.Conserving cfg round) {round' : Nat}
    (hTimed : s.Timed cfg round') (hLoads : s.Loads start) (hProc : proc < s.os.index)
    (hUnfinished : s.turns proc < cfg.work proc) {last : Nat} (hLast : last ≤ round) :
    Greedy.Serves (Finset.range cfg.numProcesses) s.slotsOf n
      ((Finset.Ioo proc cfg.numProcesses).image (arrivalSlot start))
      (Finset.Ioo (arrivalSlot start proc) last) proc := by
  intro slot hSlot
  obtain ⟨hAfter, hBefore⟩ := Finset.mem_Ioo.mp hSlot
  have hArrival : s.arrivals[proc]? = some (arrivalSlot start proc) := by
    rw [hLoads.arrivals, List.getElem?_map, List.getElem?_range hProc, Option.map_some]
  rcases h.wellUsed slot (hBefore.trans_le hLast) with hAll | hNew | hServed
  · exact Or.inr (Or.inr (le_card_ran hTimed h.keeps.index hAll))
  · rw [hLoads.arrivals] at hNew
    obtain ⟨other, hOther, rfl⟩ := List.mem_map.mp hNew
    have hIndex := (List.mem_range.mp hOther).trans_le h.keeps.index
    have hLater := (arrivalSlot_strictMono start).lt_iff_lt.mp hAfter
    exact Or.inl (Finset.mem_image_of_mem _ (Finset.mem_Ioo.mpr ⟨hLater, hIndex⟩))
  · have hTurns : s.turnsBefore slot proc ≤ s.turns proc := by
      apply List.countP_mono_left
      intro r _ hCounted
      exact (Bool.and_eq_true_iff.mp hCounted).1
    exact Or.inr (Or.inl (mem_slotsOf.mpr
      (hServed proc _ hArrival hAfter (hTurns.trans_lt hUnfinished))))

private theorem Clocked.Conserving.turns_le_work (h : s.Conserving cfg round) (proc : ProcId) :
    s.turns proc ≤ cfg.work proc := by
  by_cases hIndex : proc < s.os.index
  · exact h.counts.le_work h.owned (Or.inl hIndex)
  · rw [h.counts.fresh proc (Nat.le_of_not_lt hIndex)]
    exact Nat.zero_le _

/-- A slot after its deadline a process has executed its whole program. -/
theorem Clocked.Conserving.executed (h : s.Conserving cfg round) {round' : Nat}
    (hTimed : s.Timed cfg round') (hLoads : s.Loads start) (hCpus : 0 < n)
    (hProc : proc < cfg.numProcesses) {party : Fin (n + 1)}
    (hOver : cfg.deadline n start proc < s.slot party) :
    cfg.program proc = some (s.os.executed proc) := by
  have hParty := h.slots party
  have hArrival := cfg.arrivalSlot_lt_deadline n start proc
  have hIndex : proc < s.os.index := h.lt_index hLoads hProc (by omega)
  apply h.counts.executed h.owned (Or.inl hIndex)
  rw [← card_slotsOf hTimed]
  apply Greedy.finished hCpus
  · intro other _
    rw [card_slotsOf hTimed]
    exact h.turns_le_work other
  · intro hUnfinished
    rw [card_slotsOf hTimed] at hUnfinished
    exact h.serves hTimed hLoads hIndex hUnfinished hParty
  · have hNew : ((Finset.Ioo proc cfg.numProcesses).image (arrivalSlot start)).card ≤
        cfg.numProcesses - 1 - proc := by
      apply Finset.card_image_le.trans
      rw [Nat.card_Ioo]
      omega
    have hRest : cfg.numProcesses - 1 - proc + cfg.work proc +
        (∑ other ∈ (Finset.range cfg.numProcesses).erase proc, cfg.work other) / n ≤
          s.slot party - arrivalSlot start proc - 1 := by
      rw [Config.deadline] at hOver hArrival
      omega
    rw [Nat.card_Ioo]
    exact (Nat.add_le_add_right (Nat.add_le_add_right hNew _) _).trans hRest

/-- Each process is done by its deadline, whatever the order of the steps, of which a call of
the scheduler is one. -/
theorem finished_run {mem : Mem} {labels : List (ClockedCall n)}
    (run : Runs (ClockedStep cfg startTime execute) (Clocked.initial mem) labels s)
    (hFits : cfg.QueuesFit) (hCpus : 0 < n) (hSlots : s.slot ldEvent < 2 ^ 64)
    (hProc : proc < cfg.numProcesses) {party : Fin (n + 1)}
    (hOver : cfg.deadline n (fun i => (startTime i).toNat) proc < s.slot party) :
    cfg.program proc = some (s.os.executed proc) := by
  obtain ⟨round, h⟩ := conserving_run hFits run
  obtain ⟨round', hTimed⟩ := timed_run run
  exact h.executed hTimed (loads_run run hSlots) hCpus hProc hOver

/-- One process of one calculation, which the only CPU runs in slot 0. -/
def firstSlot : List (ClockedCall 1) :=
  [.os (.load 0), .os (.addProc 0), .timer (.nextSlot ldEvent), .os (.compute onlyCpu),
    .os (.getProc onlyCpu (some 0)), .os (.compute onlyCpu), .os (.run onlyCpu 0),
    .timer (.nextSlot (cpuEvent onlyCpu)),
    .timer .timer, .timer .timer, .timer .timer, .timer .timer, .timer .timer, .timer .timer,
    .timer .timer, .timer (.slotReturns ldEvent), .timer (.slotReturns (cpuEvent onlyCpu))]

theorem idleSlot_run : ∃ s : Clocked 1 Nat,
    Runs (ClockedStep (calculations 1) (fun _ => 0) calcSucceeds) (Clocked.initial 0)
        (firstSlot ++ [.os (.compute onlyCpu), .os (.free onlyCpu 0), .os (.getProc onlyCpu none),
          .os (.compute onlyCpu), .timer (.nextSlot (cpuEvent onlyCpu)), .os .finish,
          .timer (.detachEvent ldEvent),
          .timer .timer, .timer .timer, .timer .timer, .timer .timer, .timer .timer, .timer .timer,
          .timer .timer, .timer (.slotReturns (cpuEvent onlyCpu))]) s ∧
      s.slot ldEvent = 1 ∧ s.slot (cpuEvent onlyCpu) = 2 :=
  ⟨_, Runs.cons ⟨rfl, .os ⟨rfl, rfl⟩ (fun _ hCall => by cases hCall) (.load rfl (by decide) rfl)⟩ <|
    Runs.cons ⟨rfl, .os ⟨rfl, rfl⟩ (fun _ _ hAwaits => absurd hAwaits.2 (by decide))
      (.addProc rfl)⟩ <|
    Runs.cons ⟨rfl, .nextSlot ldEvent (Or.inl rfl) (.nextSlot ldEvent rfl)⟩ <|
    Runs.cons ⟨rfl, .os ⟨rfl, rfl⟩ (fun _ hCall => by cases hCall) (.check 0 rfl)⟩ <|
    Runs.cons ⟨rfl, .os ⟨rfl, rfl⟩ (fun _ hCall => by cases hCall) (.getProc 1 0 rfl rfl)⟩ <|
    Runs.cons ⟨rfl, .os ⟨rfl, rfl⟩ (fun _ hCall => by cases hCall) (.recheck 0 rfl)⟩ <|
    Runs.cons ⟨rfl, .os ⟨rfl, rfl⟩ (fun _ hCall => by cases hCall)
      (.run 0 rfl rfl rfl ⟨rfl, rfl⟩)⟩ <|
    Runs.cons ⟨rfl, .nextSlot (cpuEvent onlyCpu) (Or.inl rfl) (.nextSlot (cpuEvent onlyCpu) rfl)⟩ <|
    Runs.cons ⟨rfl, .timer (.enter rfl rfl)⟩ <|
    Runs.cons ⟨rfl, .timer (.collect 0 rfl (Or.inl rfl))⟩ <|
    Runs.cons ⟨rfl, .timer (.collect 1 rfl (Or.inl rfl))⟩ <|
    Runs.cons ⟨rfl, .timer (.advance rfl)⟩ <|
    Runs.cons ⟨rfl, .timer (.release 0 rfl)⟩ <|
    Runs.cons ⟨rfl, .timer (.release 1 rfl)⟩ <|
    Runs.cons ⟨rfl, .timer (.finish rfl)⟩ <|
    Runs.cons ⟨rfl, .slotReturns ldEvent (.slotReturns ldEvent rfl rfl)⟩ <|
    Runs.cons ⟨rfl, .slotReturns (cpuEvent onlyCpu) (.slotReturns (cpuEvent onlyCpu) rfl rfl)⟩ <|
    Runs.cons ⟨rfl, .os ⟨rfl, rfl⟩ (fun _ hCall => by cases hCall) (.check 0 rfl)⟩ <|
    Runs.cons ⟨rfl, .os ⟨rfl, rfl⟩ (fun _ hCall => by cases hCall) (.free 0 rfl rfl)⟩ <|
    Runs.cons ⟨rfl, .os ⟨rfl, rfl⟩ (fun _ hCall => by cases hCall) (.getProc 1 0 rfl rfl)⟩ <|
    Runs.cons ⟨rfl, .os ⟨rfl, rfl⟩ (fun _ hCall => by cases hCall) (.recheck 0 rfl)⟩ <|
    Runs.cons ⟨rfl, .nextSlot (cpuEvent onlyCpu) (Or.inl rfl) (.nextSlot (cpuEvent onlyCpu) rfl)⟩ <|
    Runs.cons ⟨rfl, .os ⟨rfl, rfl⟩ (fun _ hCall => by cases hCall) (.finish rfl (by decide))⟩ <|
    Runs.cons ⟨rfl, .detachEvent ldEvent (Or.inl ⟨rfl, rfl⟩) (.detachEvent ldEvent rfl)⟩ <|
    Runs.cons ⟨rfl, .timer (.enter rfl rfl)⟩ <|
    Runs.cons ⟨rfl, .timer (.collect 0 rfl (Or.inr rfl))⟩ <|
    Runs.cons ⟨rfl, .timer (.collect 1 rfl (Or.inl rfl))⟩ <|
    Runs.cons ⟨rfl, .timer (.advance rfl)⟩ <|
    Runs.cons ⟨rfl, .timer (.release 0 rfl)⟩ <|
    Runs.cons ⟨rfl, .timer (.release 1 rfl)⟩ <|
    Runs.cons ⟨rfl, .timer (.finish rfl)⟩ <|
    Runs.one ⟨rfl, .slotReturns (cpuEvent onlyCpu) (.slotReturns (cpuEvent onlyCpu) rfl rfl)⟩,
    rfl, rfl⟩

theorem queuesFit_calculations (length : Nat) : (calculations length).QueuesFit where
  prio := fun _ _ => Nat.zero_lt_succ 139
  room := by
    intro level
    apply (Finset.card_filter_le _ _).trans_lt
    rw [Finset.card_range]
    exact Nat.one_lt_succ_succ 8

/-- The process is done in slot 1. -/
theorem finished_run_one : ∃ s : Clocked 1 Nat,
    (calculations 1).deadline 1 (fun _ => 0) 0 = 1 ∧ s.slot (cpuEvent onlyCpu) = 2 ∧
      (calculations 1).program 0 = some (s.os.executed 0) := by
  obtain ⟨s, run, hLoader, hCpu⟩ := idleSlot_run
  have hDeadline : (calculations 1).deadline 1 (fun _ => 0) 0 = 1 := rfl
  have hOver : (calculations 1).deadline 1 (fun _ => 0) 0 < s.slot (cpuEvent onlyCpu) := by
    rw [hCpu]
    exact hDeadline.trans_lt Nat.one_lt_two
  have hSlots : s.slot ldEvent < 2 ^ 64 := by
    rw [hLoader]
    exact Nat.one_lt_two_pow (by decide)
  exact ⟨s, hDeadline, hCpu,
    finished_run run (queuesFit_calculations 1) Nat.one_pos hSlots Nat.one_pos hOver⟩

/-- When all CPUs have stopped, each process has been freed and has executed its program. -/
theorem Clocked.Conserving.noneLeft (h : s.Conserving cfg round) (hCpus : 0 < n)
    (hStopped : ∀ c, (s.os.cpu c).loc = .stopped) (hProc : proc < cfg.numProcesses) :
    proc ∈ s.os.freed ∧ cfg.program proc = some (s.os.executed proc) := by
  obtain ⟨-, -, hDone, hAttended⟩ := h.stopped ⟨0, hCpus⟩ (hStopped _)
  have hEmpty := hAttended.empty fun c => Or.inl (hStopped c)
  have hIndex : proc < s.os.index := by
    rw [h.keeps.stopped (h.consistent.loader hDone)]
    exact hProc
  have hFreed : proc ∈ s.os.freed := by
    rcases h.keeps.place proc hIndex with hFreed | hQueued | ⟨c, hHolds⟩
    · exact hFreed
    · rw [hEmpty] at hQueued
      exact absurd hQueued (Multiset.notMem_zero proc)
    · rw [Os.holds, Cpu.holds_of_loc (by simp [hStopped c]), (h.stopped c (hStopped c)).1] at hHolds
      cases hHolds
  exact ⟨hFreed, h.counts.executed h.owned (Or.inl hIndex) (h.counts.freed proc hFreed).ge⟩

/-- The CPUs do not stop before all processes are done, where a call of the scheduler is one
step. -/
theorem noneLeft_run {mem : Mem} {labels : List (ClockedCall n)}
    (run : Runs (ClockedStep cfg startTime execute) (Clocked.initial mem) labels s)
    (hFits : cfg.QueuesFit) (hCpus : 0 < n) (hStopped : ∀ c, (s.os.cpu c).loc = .stopped) :
    ∀ proc < cfg.numProcesses,
      proc ∈ s.os.freed ∧ cfg.program proc = some (s.os.executed proc) := by
  obtain ⟨round, h⟩ := conserving_run hFits run
  intro proc hProc
  exact h.noneLeft hCpus hStopped hProc

theorem stopped_run : ∃ s : Clocked 1 Nat,
    Runs (ClockedStep (calculations 1) (fun _ => 0) calcSucceeds) (Clocked.initial 0)
        (firstSlot ++ [.os .finish, .os (.compute onlyCpu), .os (.free onlyCpu 0),
          .os (.getProc onlyCpu none), .os (.compute onlyCpu)]) s ∧
      ∀ c, (s.os.cpu c).loc = .stopped :=
  ⟨_, Runs.cons ⟨rfl, .os ⟨rfl, rfl⟩ (fun _ hCall => by cases hCall) (.load rfl (by decide) rfl)⟩ <|
    Runs.cons ⟨rfl, .os ⟨rfl, rfl⟩ (fun _ _ hAwaits => absurd hAwaits.2 (by decide))
      (.addProc rfl)⟩ <|
    Runs.cons ⟨rfl, .nextSlot ldEvent (Or.inl rfl) (.nextSlot ldEvent rfl)⟩ <|
    Runs.cons ⟨rfl, .os ⟨rfl, rfl⟩ (fun _ hCall => by cases hCall) (.check 0 rfl)⟩ <|
    Runs.cons ⟨rfl, .os ⟨rfl, rfl⟩ (fun _ hCall => by cases hCall) (.getProc 1 0 rfl rfl)⟩ <|
    Runs.cons ⟨rfl, .os ⟨rfl, rfl⟩ (fun _ hCall => by cases hCall) (.recheck 0 rfl)⟩ <|
    Runs.cons ⟨rfl, .os ⟨rfl, rfl⟩ (fun _ hCall => by cases hCall)
      (.run 0 rfl rfl rfl ⟨rfl, rfl⟩)⟩ <|
    Runs.cons ⟨rfl, .nextSlot (cpuEvent onlyCpu) (Or.inl rfl) (.nextSlot (cpuEvent onlyCpu) rfl)⟩ <|
    Runs.cons ⟨rfl, .timer (.enter rfl rfl)⟩ <|
    Runs.cons ⟨rfl, .timer (.collect 0 rfl (Or.inl rfl))⟩ <|
    Runs.cons ⟨rfl, .timer (.collect 1 rfl (Or.inl rfl))⟩ <|
    Runs.cons ⟨rfl, .timer (.advance rfl)⟩ <|
    Runs.cons ⟨rfl, .timer (.release 0 rfl)⟩ <|
    Runs.cons ⟨rfl, .timer (.release 1 rfl)⟩ <|
    Runs.cons ⟨rfl, .timer (.finish rfl)⟩ <|
    Runs.cons ⟨rfl, .slotReturns ldEvent (.slotReturns ldEvent rfl rfl)⟩ <|
    Runs.cons ⟨rfl, .slotReturns (cpuEvent onlyCpu) (.slotReturns (cpuEvent onlyCpu) rfl rfl)⟩ <|
    Runs.cons ⟨rfl, .os ⟨rfl, rfl⟩ (fun _ hCall => by cases hCall) (.finish rfl (by decide))⟩ <|
    Runs.cons ⟨rfl, .os ⟨rfl, rfl⟩ (fun _ hCall => by cases hCall) (.check 0 rfl)⟩ <|
    Runs.cons ⟨rfl, .os ⟨rfl, rfl⟩ (fun _ hCall => by cases hCall) (.free 0 rfl rfl)⟩ <|
    Runs.cons ⟨rfl, .os ⟨rfl, rfl⟩ (fun _ hCall => by cases hCall) (.getProc 1 0 rfl rfl)⟩ <|
    Runs.one ⟨rfl, .os ⟨rfl, rfl⟩ (fun _ hCall => by cases hCall) (.recheck 0 rfl)⟩,
    fun c => by
      rw [Subsingleton.elim c 0]
      rfl⟩

theorem noneLeft_run_one : ∃ s : Clocked 1 Nat, (∀ c, (s.os.cpu c).loc = .stopped) ∧
    ∀ proc < (calculations 1).numProcesses,
      proc ∈ s.os.freed ∧ (calculations 1).program proc = some (s.os.executed proc) := by
  obtain ⟨s, run, hStopped⟩ := stopped_run
  exact ⟨s, hStopped, noneLeft_run run (queuesFit_calculations 1) Nat.one_pos hStopped⟩

end Btlos
