import Mathlib.Algebra.BigOperators.Group.Finset.Basic
import Mathlib.Algebra.Order.BigOperators.Group.Finset
import Btlos.Os.Instructions
import Btlos.Paging.Lifetime
import Btlos.Vm.Demand

/-! How many frames of RAM the programs need. Almost every access takes one, and where
there are enough of them a program that uses its symbols as it should is never aborted. -/
namespace Btlos

open Transition

namespace Inst

/-- The requests for a page that an access makes. -/
def accesses (ins : Inst) : Nat :=
  match ins.opcode with
  | .read => 2
  | .write => 1
  | _ => 0

/-- The pages that an allocation maps at most. -/
def allocPages (ins : Inst) : Nat :=
  match ins.opcode with
  | .alloc => pagesFor ins.arg0
  | _ => 0

def pages (ins : Inst) : Nat := ins.allocPages + ins.accesses

/-- The instruction uses indices of the symbol table, and only live symbols, inside their
region. -/
def Fits (sizes : Nat → Nat) (ins : Inst) : Prop :=
  match ins.opcode with
  | .calc => True
  | .alloc => 0 < ins.arg0 ∧ ins.arg1 < 30
  | .free => ins.arg0 < 30 ∧ 0 < sizes ins.arg0
  | .read => ins.arg0 < 30 ∧ ins.arg1 < sizes ins.arg0 ∧ ins.arg2 < 30 ∧ 0 < sizes ins.arg2
  | .write => ins.arg1 < 30 ∧ ins.arg2 < sizes ins.arg1

instance (sizes : Nat → Nat) : (ins : Inst) → Decidable (ins.Fits sizes)
  | ⟨.calc, _, _, _⟩ => isTrue trivial
  | ⟨.alloc, _, _, _⟩ | ⟨.free, _, _, _⟩ | ⟨.write, _, _, _⟩ =>
      inferInstanceAs (Decidable (_ ∧ _))
  | ⟨.read, _, _, _⟩ => inferInstanceAs (Decidable (_ ∧ _ ∧ _ ∧ _))

/-- The sizes of the symbols after the instruction, 0 for those that are not live. -/
def sizesAfter (sizes : Nat → Nat) (ins : Inst) : Nat → Nat :=
  match ins.opcode with
  | .alloc => Function.update sizes ins.arg1 ins.arg0
  | .free => Function.update sizes ins.arg0 0
  | _ => sizes

end Inst

/-- The check of a whole program. -/
def Orderly : (Nat → Nat) → List Inst → Prop
  | _, [] => True
  | sizes, ins :: rest => ins.Fits sizes ∧ Orderly (ins.sizesAfter sizes) rest

instance Orderly.decidable : (sizes : Nat → Nat) → (text : List Inst) →
    Decidable (Orderly sizes text)
  | _, [] => isTrue trivial
  | sizes, ins :: rest =>
      have := Orderly.decidable (ins.sizesAfter sizes) rest
      inferInstanceAs (Decidable (_ ∧ _))

/-- The sizes of the symbols after some instructions. -/
def sizesOf (executed : List Inst) : Nat → Nat := executed.foldl Inst.sizesAfter fun _ => 0

def allocPagesOf (executed : List Inst) : Nat := (executed.map Inst.allocPages).sum

def pagesOf (executed : List Inst) : Nat := (executed.map Inst.pages).sum

theorem Orderly.fits {before after : List Inst} {ins : Inst} {sizes : Nat → Nat}
    (h : Orderly sizes (before ++ ins :: after)) :
    ins.Fits (before.foldl Inst.sizesAfter sizes) := by
  induction before generalizing sizes with
  | nil => exact h.1
  | cons first before ih => exact ih h.2

/-! One instruction -/

section Call

variable {s : Caller} {sizes : Nat → Nat} {pages frames : Nat} {ins : Inst} {call : MemCall}

/-- What a memory call that is served leaves. -/
structure Caller.After (s : Caller) (ins : Inst) (sizes : Nat → Nat) (pages frames : Nat)
    (t : Caller) : Prop where
  stocked : t.Stocked frames
  holds : t.mm.Holds (ins.sizesAfter sizes) (pages + ins.allocPages)

theorem memCall_served (h : s.mm.Holds sizes pages) (hPages : pages + ins.allocPages ≤ maxPages)
    (hStock : s.Stocked (ins.pages + frames)) (hFits : ins.Fits sizes)
    (hCall : ins.memCall? = some call) :
    (∃ u t, call.run u s = .ok () t) ∧ ∀ u, call.run u s = .undefined ∨
      ∃ t, call.run u s = .ok () t ∧ s.After ins sizes pages frames t := by
  obtain ⟨opcode, arg0, arg1, arg2⟩ := ins
  have hSymbol : ∀ reg : Nat, reg < 30 → (reg : Int) ∈ symbols := by
    intro reg hReg
    have hSize : pagingMaxSymtblSz = 30 := rfl
    exact mem_symbols.mpr ⟨by omega, by omega⟩
  cases opcode with
  | «calc» => cases hCall
  | alloc =>
      obtain rfl := Option.some.inj hCall
      obtain ⟨hSize, hReg⟩ := hFits
      have hFrames : s.Stocked (pagesFor arg0 + frames) := hStock
      obtain ⟨⟨fuel, hReturns⟩, hServed⟩ :=
        pgalloc_served h hPages hFrames (hSymbol _ hReg) hSize
      have hRun : ∀ u, (MemCall.pgalloc arg0 arg1).run u s = .undefined ∨
          ∃ t, (MemCall.pgalloc arg0 arg1).run u s = .ok () t ∧
            s.After ⟨.alloc, arg0, arg1, arg2⟩ sizes pages frames t := by
        intro u
        rcases hServed u.fuel u.junk u.addr with hNone | ⟨value, t, hOk, hStocked, hHolds⟩
        · exact Or.inl (by rw [MemCall.run, hNone, Outcome.bind_undefined])
        · exact Or.inr ⟨t, by rw [MemCall.run, hOk, Outcome.bind_ok], hStocked, hHolds⟩
      refine ⟨⟨⟨fuel, 0, 0, 0⟩, ?_⟩, hRun⟩
      rcases hServed fuel 0 0 with hNone | ⟨value, t, hOk, -⟩
      · exact absurd hNone (hReturns 0 0)
      · exact ⟨t, by rw [MemCall.run, hOk, Outcome.bind_ok]⟩
  | free =>
      obtain rfl := Option.some.inj hCall
      obtain ⟨hReg, hLive⟩ := hFits
      obtain ⟨t, hFree, hStocked, hHolds⟩ := pgfree_served h hStock (hSymbol _ hReg) hLive
      have hAfter : s.After ⟨.free, arg0, arg1, arg2⟩ sizes pages frames t :=
        ⟨hStocked.mono (Nat.le_add_left _ _), hHolds⟩
      exact ⟨⟨⟨0, 0, 0, 0⟩, t, hFree⟩, fun _ => Or.inr ⟨t, hFree, hAfter⟩⟩
  | read =>
      obtain rfl := Option.some.inj hCall
      obtain ⟨hSource, hInside, hDestination, hLive⟩ := hFits
      have hFrames : s.Stocked (frames + 2) := hStock.mono (Nat.add_comm frames 2).le
      have hServed : ∀ u, ∃ t, (MemCall.pgread arg0 arg1 arg2).run u s = .ok () t ∧
          s.After ⟨.read, arg0, arg1, arg2⟩ sizes pages frames t := by
        intro u
        obtain ⟨t, hRead, hStocked, hHolds⟩ := pgread_served h (by omega) hFrames
          (hSymbol _ hSource) hInside (hSymbol _ hDestination) hLive u.junk u.data
        exact ⟨t, hRead, hStocked, hHolds⟩
      obtain ⟨t, hRead, -⟩ := hServed ⟨0, 0, 0, 0⟩
      exact ⟨⟨_, t, hRead⟩, fun u => Or.inr (hServed u)⟩
  | write =>
      obtain rfl := Option.some.inj hCall
      obtain ⟨hReg, hInside⟩ := hFits
      have hFrames : s.Stocked (frames + 1) := hStock.mono (Nat.add_comm frames 1).le
      have hServed : ∀ u, ∃ t,
          (MemCall.pgwrite (BitVec.ofNat 8 arg0) arg1 arg2).run u s = .ok () t ∧
            s.After ⟨.write, arg0, arg1, arg2⟩ sizes pages frames t := by
        intro u
        obtain ⟨t, hWrite, hStocked, hHolds⟩ := pgwrite_served h (by omega) hFrames
          (hSymbol _ hReg) hInside u.junk (BitVec.ofNat 8 arg0)
        exact ⟨t, hWrite, hStocked, hHolds⟩
      obtain ⟨t, hWrite, -⟩ := hServed ⟨0, 0, 0, 0⟩
      exact ⟨⟨_, t, hWrite⟩, fun u => Or.inr (hServed u)⟩

theorem runInst_served {sys : System ProcId} {proc : ProcId} (h : (sys.mm proc).Holds sizes pages)
    (hPages : pages + ins.allocPages ≤ maxPages)
    (hStock : (sys.caller proc).Stocked (ins.pages + frames)) (hFits : ins.Fits sizes) :
    (∃ sys', runInst proc ins sys 0 sys') ∧ ∀ stat sys', runInst proc ins sys stat sys' →
      stat = 0 ∧ ∃ t, sys' = sys.put proc t ∧ Follows (sys.caller proc) t ∧
        (sys.caller proc).After ins sizes pages frames t := by
  cases hCall : ins.memCall? with
  | none =>
      refine ⟨⟨sys, by simp [runInst, hCall]⟩, fun stat sys' hRun => ?_⟩
      simp only [runInst, hCall] at hRun
      obtain ⟨rfl, rfl⟩ := hRun
      obtain ⟨opcode, arg0, arg1, arg2⟩ := ins
      cases opcode with
      | «calc» =>
          exact ⟨rfl, sys'.caller proc, (sys'.put_caller proc).symm, .refl hStock.ready,
            hStock.mono (Nat.le_add_left _ _), h⟩
      | _ => cases hCall
  | some call =>
      simp only [runInst, hCall]
      obtain ⟨⟨u, t, hOk⟩, hServed⟩ :=
        memCall_served (s := sys.caller proc) h hPages hStock hFits hCall
      refine ⟨⟨sys.put proc t, u, true, t, by rw [hOk]; rfl, rfl, rfl⟩, ?_⟩
      rintro stat sys' ⟨u, ok, t, hCode, rfl, rfl⟩
      have hFollows := Follows.memCall hStock.ready (Outcome.state?_of_code? hCode)
      rcases hServed u with hNone | ⟨t', hOk, hAfter⟩
      · rw [hNone] at hCode
        cases hCode
      · rw [hOk] at hCode
        obtain ⟨rfl, rfl⟩ := Prod.mk.inj (Option.some.inj hCode)
        exact ⟨rfl, t', rfl, hFollows, hAfter⟩

end Call

/-! The memory of all processes -/

section Memory

variable {count needed : Nat} {sys sys' : System ProcId} {executed : ProcId → List Inst}

theorem pagesOf_concat (before : List Inst) (ins : Inst) :
    pagesOf (before ++ [ins]) = pagesOf before + ins.pages := by
  simp [pagesOf]

theorem allocPagesOf_concat (before : List Inst) (ins : Inst) :
    allocPagesOf (before ++ [ins]) = allocPagesOf before + ins.allocPages := by
  simp [allocPagesOf]

theorem sizesOf_concat (before : List Inst) (ins : Inst) :
    sizesOf (before ++ [ins]) = ins.sizesAfter (sizesOf before) := by
  rw [sizesOf, List.foldl_append]
  rfl

/-- What the first `count` processes have asked for. -/
def usedPages (count : Nat) (executed : ProcId → List Inst) : Nat :=
  ∑ proc ∈ Finset.range count, pagesOf (executed proc)

theorem usedPages_update {proc : ProcId} (hProc : proc < count) (ins : Inst) :
    usedPages count (Function.update executed proc (executed proc ++ [ins])) =
      usedPages count executed + ins.pages := by
  have hEach : ∀ other, pagesOf (Function.update executed proc (executed proc ++ [ins]) other) =
      pagesOf (executed other) + if other = proc then ins.pages else 0 := by
    intro other
    rw [Function.update_apply]
    split_ifs with hSame
    · rw [hSame, pagesOf_concat]
    · rfl
  rw [usedPages, Finset.sum_congr rfl fun other _ => hEach other, Finset.sum_add_distrib,
    Finset.sum_ite_eq', if_pos (Finset.mem_range.mpr hProc)]
  rfl

/-- What the memory has for the processes: all frames that they have not asked for yet. -/
structure System.Provided (needed count : Nat) (sys : System ProcId)
    (executed : ProcId → List Inst) : Prop where
  ready : ∀ proc, (sys.caller proc).Ready
  listed : ∀ proc, ∃ pages, (sys.mm proc).lruPgn = .nodes pages
  holds : ∀ proc, (sys.mm proc).Holds (sizesOf (executed proc)) (allocPagesOf (executed proc))
  frames : needed ≤ sys.mram.freeFpList.length + usedPages count executed

/-- The next instruction of a process can be run, and succeeds. -/
theorem System.Provided.run (h : sys.Provided needed count executed) {proc : ProcId} {ins : Inst}
    (hProc : proc < count) (hFits : ins.Fits (sizesOf (executed proc)))
    (hPages : allocPagesOf (executed proc) + ins.allocPages ≤ maxPages)
    (hNeeded : usedPages count executed + ins.pages ≤ needed) :
    (∃ sys', runInst proc ins sys 0 sys') ∧ ∀ stat sys', runInst proc ins sys stat sys' →
      stat = 0 ∧ sys'.Provided needed count
        (Function.update executed proc (executed proc ++ [ins])) := by
  have hFrames := h.frames
  have hStock : (sys.caller proc).Stocked
      (ins.pages + (sys.mram.freeFpList.length - ins.pages)) :=
    ⟨h.ready proc, h.listed proc, by rw [System.caller_mram]; omega⟩
  obtain ⟨hRuns, hServed⟩ := runInst_served (h.holds proc) hPages hStock hFits
  refine ⟨hRuns, fun stat sys' hRun => ?_⟩
  obtain ⟨hStat, t, rfl, hFollows, hStocked, hHolds⟩ := hServed stat sys' hRun
  have hOther : ∀ other, other ≠ proc → (sys.put proc t).mm other = sys.mm other := by
    intro other hNe
    rw [System.put_mm, if_neg hNe]
  refine ⟨hStat, fun other => ?_, fun other => ?_, fun other => ?_, ?_⟩
  · by_cases hSame : other = proc
    · rw [hSame, System.caller_put]
      exact hStocked.ready
    · have hCaller : (sys.put proc t).caller other = ⟨sys.mm other, t.mram, t.activeMswp⟩ := by
        rw [System.caller, hOther other hSame, System.put_mram, System.put_activeMswp]
      rw [hCaller]
      exact (h.ready other).follows hFollows rfl
  · by_cases hSame : other = proc
    · rw [hSame, System.put_mm_self]
      exact hStocked.listed
    · rw [hOther other hSame]
      exact h.listed other
  · by_cases hSame : other = proc
    · rw [hSame, System.put_mm_self, Function.update_self, sizesOf_concat, allocPagesOf_concat]
      exact hHolds
    · rw [hOther other hSame, Function.update_of_ne hSame]
      exact h.holds other
  · have hStock' := hStocked.stock
    rw [usedPages_update hProc, System.put_mram]
    omega

theorem pagesOf_mono {before text : List Inst} (h : before <+: text) :
    pagesOf before ≤ pagesOf text := by
  obtain ⟨after, rfl⟩ := h
  simp [pagesOf]

theorem allocPagesOf_mono {before text : List Inst} (h : before <+: text) :
    allocPagesOf before ≤ allocPagesOf text := by
  obtain ⟨after, rfl⟩ := h
  simp [allocPagesOf]

theorem System.provided_initial (memramsz memswpsz : Int) (count : Nat) :
    (System.initial memramsz memswpsz : System ProcId).Provided (System.frameCount memramsz) count
      fun _ => [] where
  ready proc := by
    have hReady : ((Processes.initial memramsz memswpsz : Processes ProcId).caller proc).Ready :=
      Processes.ready_initial proc
    exact hReady
  listed _ := ⟨[], rfl⟩
  holds _ := ⟨inOrder_initMm, fun _ _ => rfl, (Int.mul_zero _).ge, rfl⟩
  frames := by
    have hUsed : (initial memramsz memswpsz : System ProcId).Used _ _ 0 :=
      used_initial memramsz memswpsz
    rw [hUsed.ramFrames, Nat.sub_zero]
    exact Nat.le_add_right _ _

end Memory

/-! The whole program -/

variable {CpuId : Type*}

/-- Every program can be read and passes the check, and there are frames for all of them. -/
structure Config.OrderlyOn (cfg : Config) (memramsz : Int) : Prop where
  programs : ∀ proc < cfg.numProcesses, ∃ text, cfg.program proc = some text ∧
    Orderly (fun _ => 0) text ∧ allocPagesOf text ≤ maxPages
  demand : usedPages cfg.numProcesses (fun proc => (cfg.program proc).getD []) ≤
    System.frameCount memramsz

/-- What a run of such programs keeps. -/
structure Os.Served (cfg : Config) (memramsz : Int) (s : Os CpuId (System ProcId)) : Prop where
  owned : s.Owned cfg
  index_le : s.index ≤ cfg.numProcesses
  adding : s.loader = .add → s.index < cfg.numProcesses
  running : s.exited = false
  provided : s.mem.Provided (System.frameCount memramsz) cfg.numProcesses s.executed

section Run

variable {cfg : Config} {memramsz memswpsz : Int} {s t : Os CpuId (System ProcId)}

theorem Os.Owned.executed_start (h : s.Owned cfg) (proc : ProcId) :
    s.executed proc <+: (cfg.program proc).getD [] := by
  by_cases hLoaded : proc < s.index
  · rw [h.program proc (Or.inl hLoaded), (h.executed proc).2]
    exact List.take_prefix _ _
  · rw [h.fresh proc (not_lt.mp hLoaded)]
    exact List.nil_prefix

/-- The instruction that a process has come to. -/
theorem Os.Served.next (hOrderly : cfg.OrderlyOn memramsz) (h : s.Served cfg memramsz)
    {proc : ProcId} {ins : Inst} {next : Pcb} (hProc : proc < s.index)
    (hStep : (s.pcb proc).step? = some (ins, next)) :
    (∃ sys', runInst proc ins s.mem 0 sys') ∧ ∀ stat sys', runInst proc ins s.mem stat sys' →
      stat = 0 ∧ sys'.Provided (System.frameCount memramsz) cfg.numProcesses
        (Function.update s.executed proc (s.executed proc ++ [ins])) := by
  have hCount := hProc.trans_le h.index_le
  obtain ⟨text, hText, hOrder, hPages⟩ := hOrderly.programs proc hCount
  obtain ⟨hLt, rfl, rfl⟩ := Pcb.step?_eq_some hStep
  have hProgram := h.owned.program proc (Or.inl hProc)
  obtain rfl : text = (s.pcb proc).text := Option.some.inj (hText.symm.trans hProgram)
  have hExecuted := (h.owned.executed proc).2
  have hTaken : s.executed proc ++ [(s.pcb proc).text[(s.pcb proc).pc]] <+: (s.pcb proc).text := by
    rw [hExecuted, List.take_append_getElem hLt]
    exact List.take_prefix _ _
  apply h.provided.run hCount
  · have hSplit := List.take_append_drop (s.pcb proc).pc (s.pcb proc).text
    rw [List.drop_eq_getElem_cons hLt, ← hExecuted] at hSplit
    rw [← hSplit] at hOrder
    exact hOrder.fits
  · rw [← allocPagesOf_concat]
    exact (allocPagesOf_mono hTaken).trans hPages
  · rw [← usedPages_update hCount]
    refine le_trans (Finset.sum_le_sum fun other _ => ?_) hOrderly.demand
    rcases eq_or_ne other proc with rfl | hSame
    · simp only [Function.update_self, hProgram, Option.getD_some]
      exact pagesOf_mono hTaken
    · rw [Function.update_of_ne hSame]
      exact pagesOf_mono (h.owned.executed_start other)

variable [DecidableEq CpuId] {call : OsCall CpuId}

theorem Os.Served.step (hOrderly : cfg.OrderlyOn memramsz) (h : s.Served cfg memramsz)
    (step : OsStep cfg runInst s call t) : t.Served cfg memramsz := by
  have hOwned := owned_step h.owned step
  obtain ⟨hRuns, move⟩ := step
  cases move with
  | @run proc ins next stat mem c hLoc hProc hStep hExecute =>
      have hHolds : s.holds c = some proc := (Cpu.holds_of_loc (by simp [hLoc])).trans hProc
      have hAlive := h.owned.exclusive.held_alive c proc hHolds
      obtain ⟨rfl, hProvided⟩ := (h.next hOrderly hAlive.1 hStep).2 stat mem hExecute
      exact ⟨hOwned, h.index_le, h.adding, rfl, hProvided⟩
  | load hLoc hMore hProgram => exact ⟨hOwned, h.index_le, fun _ => hMore, hRuns, h.provided⟩
  | loadFails hLoc hMore hProgram =>
      obtain ⟨text, hText, -⟩ := hOrderly.programs _ hMore
      cases hProgram.symm.trans hText
  | addProc hLoc =>
      exact ⟨hOwned, h.adding hLoc, (fun hAdd => by cases hAdd), hRuns, h.provided⟩
  | finish hLoc hMore =>
      exact ⟨hOwned, h.index_le, (fun hAdd => by cases hAdd), hRuns, h.provided⟩
  | _ => exact ⟨hOwned, h.index_le, h.adding, hRuns, h.provided⟩

/-- Programs that pass the check, on a RAM with a frame for each page that they ask for,
are never aborted, with any number of CPUs and in every order of the steps; and a CPU
that is about to run an instruction can run it. -/
theorem orderly_run (hOrderly : cfg.OrderlyOn memramsz) {steps : List (OsCall CpuId)}
    (run : Runs (OsStep cfg runInst) (Os.initial (System.initial memramsz memswpsz)) steps s) :
    s.exited = false ∧ ∀ c proc, (s.cpu c).loc = .run → (s.cpu c).proc = some proc →
      ∃ t, OsStep cfg runInst s (.run c proc) t ∧ t.exited = false := by
  have hServed : s.Served cfg memramsz := by
    refine run.invariant (Os.Served cfg memramsz) ?_ fun _ _ _ h step => h.step hOrderly step
    exact ⟨owned_initial cfg _, Nat.zero_le _, (fun hAdd => by cases hAdd), rfl,
      System.provided_initial memramsz memswpsz cfg.numProcesses⟩
  refine ⟨hServed.running, fun c proc hLoc hProc => ?_⟩
  have hHolds : s.holds c = some proc := (Cpu.holds_of_loc (by simp [hLoc])).trans hProc
  have hAlive := hServed.owned.exclusive.held_alive c proc hHolds
  cases hStep : (s.pcb proc).step? with
  | none => exact ⟨_, ⟨hServed.running, .runNothing c hLoc hProc hStep⟩, hServed.running⟩
  | some result =>
      obtain ⟨ins, next⟩ := result
      obtain ⟨⟨mem, hExecute⟩, -⟩ := hServed.next hOrderly hAlive.1 hStep
      exact ⟨_, ⟨hServed.running, .run c hLoc hProc hStep hExecute⟩, rfl⟩

end Run

section Example

theorem oneAlloc_orderly : oneAlloc.OrderlyOn 1024 where
  programs _ _ := ⟨_, rfl, by decide, by decide⟩
  demand := by decide

/-- The first allocation of a process, which needs one frame of four. -/
theorem orderly_run_alloc : ∃ s : Os Unit (System ProcId),
    s.executed 0 = [⟨.alloc, 100, 0, 0⟩] ∧ s.exited = false ∧
      ∀ c proc, (s.cpu c).loc = .run → (s.cpu c).proc = some proc →
        ∃ t, OsStep oneAlloc runInst s (.run c proc) t ∧ t.exited = false := by
  obtain ⟨s, run, -, hExecuted⟩ := oneAlloc_run
  exact ⟨s, hExecuted, orderly_run oneAlloc_orderly run⟩

end Example

end Btlos
