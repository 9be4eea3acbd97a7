import Btlos.Vm.Discipline
import Btlos.Vm.FirstFitLaw
import Btlos.Vm.FrameAccounting

/-! The three ways in which `__alloc` succeeds: with a free region, with the gap
below `vm_end`, and with new pages. -/
namespace Btlos

open Transition

/-- The three ways, by the value of `*alloc_addr` and the state that is left. -/
inductive AllocPath (s : Caller) (rgid size allocAddr : Int) : Int → Caller → Prop where
  | region (rgs : List VmRg) (newrg : VmRg) (t : Caller) (hRegion : s.HasRegion size)
      (hWithin : newrg.Within s.mm.mmap.sbrk) (hSize : newrg.rgEnd = newrg.rgStart + size)
      (hMmap : t.mm.mmap = { s.mm.mmap with vmFreergList := rgs })
      (hTbl : t.mm.symrgtbl = Function.update s.mm.symrgtbl rgid newrg) :
      AllocPath s rgid size allocAddr newrg.rgStart t
  | gap (t : Caller) (hNone : ¬ s.HasRegion size)
      (hGap : size ≤ s.mm.mmap.vmEnd - s.mm.mmap.sbrk)
      (hSbrk : t.mm.mmap.sbrk = s.mm.mmap.sbrk + size) (hRoom : t.mm.mmap.sbrk ≤ t.mm.mmap.vmEnd)
      (hTbl : t.mm.symrgtbl = Function.update s.mm.symrgtbl rgid
        ⟨s.mm.mmap.sbrk, s.mm.mmap.sbrk + size⟩) : AllocPath s rgid size allocAddr allocAddr t
  | grown (t : Caller) (hNone : ¬ s.HasRegion size)
      (hGap : s.mm.mmap.vmEnd - s.mm.mmap.sbrk < size)
      (hSbrk : t.mm.mmap.sbrk = s.mm.mmap.sbrk + size) (hRoom : t.mm.mmap.sbrk ≤ t.mm.mmap.vmEnd)
      (hTbl : t.mm.symrgtbl = Function.update s.mm.symrgtbl rgid
        ⟨s.mm.mmap.sbrk, s.mm.mmap.sbrk + size⟩) :
      AllocPath s rgid size allocAddr s.mm.mmap.sbrk t

section Paths

variable {fuel : Nat} {junk : Byte} {rgid size allocAddr addr : Int} {s t : Caller}

/-- A successful allocation of a process in order took one of the three ways. -/
theorem alloc_path (h : s.mm.InOrder) (hBus : s.BelowBus) (hSize : 1 ≤ size ∧ size < 2147483648)
    (hOk : alloc fuel junk 0 rgid size allocAddr s = .ok addr t) (hBus' : t.BelowBus) :
    AllocPath s rgid size allocAddr addr t := by
  have hLimit := busLimit_eq
  have hLow := h.sbrk_nonneg
  have hLe := h.sbrk_le
  have hVmEnd : s.mm.mmap.vmEnd ≤ busLimit := hBus
  have hGap : brkGap s = s.mm.mmap.vmEnd - s.mm.mmap.sbrk := cint_of_range (by omega) (by omega)
  have hCode : (alloc fuel junk 0 rgid size allocAddr s).code? = some (true, t) := by rw [hOk]; rfl
  have hTo := alloc_cases h.toBounded hBus hSize hCode hBus'
  have hEnd := alloc_ends fuel junk rgid size allocAddr s
  rw [hOk] at hEnd
  generalize hCall : Outcome.ok addr t = call at hEnd
  cases hEnd with
  | undefined => simp at hCall
  | found newrg rgs hSearch hStart hRgid =>
      obtain ⟨rfl, rfl⟩ := Outcome.ok.inj hCall
      obtain ⟨taken, hCarves, -, hLast⟩ := hSearch.carved h.toBounded hSize.1 (by omega)
      have hMem := List.mem_of_getLast? (hLast hStart)
      have hRegion := (Caller.hasRegion_iff hSize.1 hCarves).mpr (List.ne_nil_of_mem hMem)
      have hWithin := hCarves.taken_within newrg hMem
      have hAddr : cint newrg.rgStart = newrg.rgStart := by
        obtain ⟨hStartLow, hOrder, hHigh⟩ := hWithin
        exact cint_of_range (by omega) (by omega)
      rw [hAddr]
      exact .region rgs newrg _ hRegion hWithin (hCarves.taken_size newrg hMem) rfl rfl
  | missed newrg rgs _ hSearch hStart hBrk =>
      obtain ⟨taken, hCarves, hNothing, -⟩ := hSearch.carved h.toBounded hSize.1 (by omega)
      have hNone : ¬ s.HasRegion size := by
        simp [Caller.hasRegion_iff hSize.1 hCarves, hNothing hStart]
      cases hTo with
      | fit rgs' taken' newrg' t hCarves' hLast =>
          refine absurd ((Caller.hasRegion_iff hSize.1 hCarves').mpr ?_) hNone
          rintro rfl
          simp at hLast
      | brk rgs' vmEnd t hCarves' hAligned hRoom hMmap hTbl =>
          have hSbrk : t.mm.mmap.sbrk = s.mm.mmap.sbrk + size := by rw [hMmap]
          have hRoom' : t.mm.mmap.sbrk ≤ t.mm.mmap.vmEnd := by
            rw [hMmap]
            exact hRoom
          cases hBrk with
          | undefined | refused => simp at hCall
          | gap hFits =>
              obtain ⟨rfl, -⟩ := Outcome.ok.inj hCall
              have hFits' : size ≤ brkGap s := hFits
              exact .gap t hNone (by omega) hSbrk hRoom' hTbl
          | grown u hLacks =>
              obtain ⟨rfl, -⟩ := Outcome.ok.inj hCall
              have hLacks' : brkGap s < size := hLacks
              have hStart : cint s.mm.mmap.sbrk = s.mm.mmap.sbrk :=
                cint_of_range (by omega) (by omega)
              change AllocPath s rgid size allocAddr (cint s.mm.mmap.sbrk) t
              rw [hStart]
              exact .grown t hNone (by omega) hSbrk hRoom' hTbl

end Paths

/-! The postcondition that the three ways should have in common -/

structure AllocAgrees (s : Caller) (rgid size addr : Int) (t : Caller) : Prop where
  region : t.mm.symrgtbl rgid = ⟨addr, addr + size⟩
  within : addr + size ≤ t.mm.mmap.sbrk ∧ t.mm.mmap.sbrk ≤ t.mm.mmap.vmEnd
  others : ∀ other, other ≠ rgid → t.mm.symrgtbl other = s.mm.symrgtbl other
  moved : s.HasRegion size →
    t.mm.mmap.sbrk = s.mm.mmap.sbrk ∧ t.mm.mmap.vmEnd = s.mm.mmap.vmEnd

/-- The condition under which they have: the way through the gap is not taken, or
`*alloc_addr` happens to hold the right address already. -/
def GivesAddress (s : Caller) (size allocAddr : Int) : Prop :=
  s.HasRegion size ∨ s.mm.mmap.vmEnd - s.mm.mmap.sbrk < size ∨ allocAddr = s.mm.mmap.sbrk

section Agree

variable {rgid size allocAddr addr : Int} {s t : Caller}

theorem AllocPath.agrees (hSbrk : s.mm.mmap.sbrk ≤ s.mm.mmap.vmEnd)
    (hPath : AllocPath s rgid size allocAddr addr t) (h : GivesAddress s size allocAddr) :
    AllocAgrees s rgid size addr t := by
  have hOthers : ∀ newrg : VmRg, t.mm.symrgtbl = Function.update s.mm.symrgtbl rgid newrg →
      ∀ other, other ≠ rgid → t.mm.symrgtbl other = s.mm.symrgtbl other := by
    intro newrg hTbl other hOther
    rw [hTbl, Function.update_of_ne hOther]
  cases hPath with
  | region rgs newrg t hRegion hWithin hLength hMmap hTbl =>
      refine ⟨?_, ?_, hOthers _ hTbl, fun _ => ?_⟩
      · rw [hTbl, Function.update_self, ← hLength]
      · rw [hMmap, ← hLength]
        exact ⟨hWithin.2.2, hSbrk⟩
      · rw [hMmap]
        exact ⟨rfl, rfl⟩
  | gap t hNone hGap hMoved hRoom hTbl =>
      obtain rfl : allocAddr = s.mm.mmap.sbrk :=
        (h.resolve_left hNone).resolve_left (not_lt.mpr hGap)
      refine ⟨?_, ⟨hMoved.ge, hRoom⟩, hOthers _ hTbl, fun hRegion => absurd hRegion hNone⟩
      rw [hTbl, Function.update_self]
  | grown t hNone hGap hMoved hRoom hTbl =>
      refine ⟨?_, ⟨hMoved.ge, hRoom⟩, hOthers _ hTbl, fun hRegion => absurd hRegion hNone⟩
      rw [hTbl, Function.update_self]

/-- Through the gap an allocation always succeeds, and gives the bytes from `sbrk` on. -/
theorem alloc_gap (h : s.mm.InOrder) (hBus : s.BelowBus)
    (hRgid : 0 ≤ rgid ∧ rgid < pagingMaxSymtblSz) (hSize : 1 ≤ size ∧ size < 2147483648)
    (hNone : ¬ s.HasRegion size) (hGap : size ≤ s.mm.mmap.vmEnd - s.mm.mmap.sbrk)
    (junk : Byte) (allocAddr : Int) :
    ∃ fuel, alloc fuel junk 0 rgid size allocAddr s = .ok allocAddr
      ((s.setSbrk (s.mm.mmap.sbrk + size)).putSymrg rgid
        ⟨s.mm.mmap.sbrk, s.mm.mmap.sbrk + size⟩) := by
  have hLimit := busLimit_eq
  have hLow := h.sbrk_nonneg
  have hLe := h.sbrk_le
  have hEnd : s.mm.mmap.vmEnd ≤ busLimit := hBus
  have hBrkGap : brkGap s = s.mm.mmap.vmEnd - s.mm.mmap.sbrk := cint_of_range (by omega) (by omega)
  have hMiss : ∀ rg ∈ s.mm.mmap.vmFreergList, rg.Passed size := by
    intro rg hRg
    obtain ⟨hStart, hOrder, hHigh⟩ := h.free rg hRg
    have hShort : rg.length < size := by
      by_contra hLong
      exact hNone ⟨rg, hRg, not_lt.mp hLong⟩
    have hWord : rg.IsWord := ⟨⟨hStart, by omega⟩, by omega, by omega⟩
    exact (VmRg.passed_iff hSize hWord hOrder).mpr ⟨by omega, hShort⟩
  obtain ⟨fuel, hSearch⟩ := getFreeVmrgArea_miss hMiss
  refine ⟨fuel, ?_⟩
  rw [alloc, hSearch]
  simp only
  rw [allocAtBrk_gap junk allocAddr (by omega) hRgid,
    s.takenAtBrk_of_range rgid hLow hSize.1 (by omega)]

end Agree

/-! Whole runs of several processes -/

/-- A size is at least 1 as an `int`. -/
def MemCall.Sized : MemCall → Prop
  | pgalloc size _ => 1 ≤ size ∧ size < 2147483648
  | _ => True

def ProcCall.Sized : ProcCall → Prop
  | mem call => call.Sized
  | finish => True

section Calls

variable {s t : Caller}

/-- A memory call keeps the regions of its process in order. -/
theorem Mm.InOrder.memCall {u : Uninit} {call : MemCall} (h : s.mm.InOrder) (hBus : s.BelowBus)
    (hSized : call.Sized) (hState : (call.run u s).state? = some t) (hBus' : t.BelowBus) :
    t.mm.InOrder := by
  cases call with
  | pgalloc size regIndex =>
      have hCint : cint size = size := cint_of_range (by have := hSized.1; omega) hSized.2
      have hCall : (MemCall.pgalloc size regIndex).run u s =
          (ByteCall.alloc (cint regIndex) size).run u s := by
        rw [MemCall.run, ByteCall.run, pgalloc, hCint]
      rw [hCall] at hState
      obtain ⟨ok, hCode⟩ := Outcome.code?_of_state? hState
      have step : BoundedByteStep s (.alloc (cint regIndex) size, ok) t :=
        ⟨⟨⟨u, hCode⟩, hSized⟩, hBus'⟩
      exact h.byteStep hBus step
  | pgfreeData regIndex =>
      obtain ⟨ok, hCode⟩ := Outcome.code?_of_state? hState
      have step : BoundedByteStep s (.free (cint regIndex), ok) t :=
        ⟨⟨⟨u, hCode⟩, trivial⟩, hBus'⟩
      exact h.byteStep hBus step
  | pgread source offset destination =>
      exact (Outcome.ends_iff.mp (pgread_sameVm u.junk u.data source offset destination s) t
        hState).inOrder h
  | pgwrite data destination offset =>
      exact (Outcome.ends_iff.mp (write_sameVm u.junk _ _ data s) t hState).inOrder h

end Calls

namespace Processes

variable {Proc : Type*} [DecidableEq Proc]

/-- Steps with sizes in range that leave every process below the limit of the bus. -/
def BoundedFrameStep : Processes Proc → Proc × ProcCall → Processes Proc → Prop :=
  Keeping (Guarded FrameStep fun _ label => label.2.Sized) fun s =>
    ∀ proc, (s.caller proc).BelowBus

theorem inOrder_step {s t : Processes Proc} {label : Proc × ProcCall}
    (h : ∀ proc, (s.mm proc).InOrder ∧ (s.caller proc).BelowBus)
    (step : BoundedFrameStep s label t) :
    ∀ proc, (t.mm proc).InOrder ∧ (t.caller proc).BelowBus := by
  obtain ⟨⟨step, hSized⟩, hBus⟩ := step
  intro other
  refine ⟨?_, hBus other⟩
  rcases step.cases with hSame | ⟨call, u, s', hLabel, hState, hOwn, hOthers⟩
  · have hMm : t.mm other = s.mm other := congrArg Caller.mm (hSame other)
    rw [hMm]
    exact (h other).1
  · rw [hLabel] at hSized
    by_cases hOther : other = label.1
    · have hMm : t.mm other = s'.mm := by
        rw [hOther]
        exact congrArg Caller.mm hOwn
      have hBus' := hBus label.1
      rw [hOwn] at hBus'
      rw [hMm]
      exact (h label.1).1.memCall (h label.1).2 hSized hState hBus'
    · have hMm : t.mm other = s.mm other := congrArg Caller.mm (hOthers other hOther)
      rw [hMm]
      exact (h other).1

theorem inOrder_run {memramsz memswpsz : Int} {labels : List (Proc × ProcCall)}
    {s : Processes Proc} (run : Runs BoundedFrameStep (initial memramsz memswpsz) labels s)
    (proc : Proc) : (s.mm proc).InOrder ∧ (s.caller proc).BelowBus := by
  refine run.invariant (fun s => ∀ proc, (s.mm proc).InOrder ∧ (s.caller proc).BelowBus) ?_ ?_ proc
  · exact fun _ => ⟨inOrder_initMm, (by decide : (0 : Int) ≤ busLimit)⟩
  · exact fun _ _ _ h step => inOrder_step h step

/-- In every reachable state, every success of an allocation has the
postcondition exactly when the allocation does not go through the gap, unless
`*alloc_addr` happened to hold the right address. -/
theorem alloc_agrees_iff {memramsz memswpsz : Int} {labels : List (Proc × ProcCall)}
    {s : Processes Proc} (run : Runs BoundedFrameStep (initial memramsz memswpsz) labels s)
    {proc : Proc} {rgid size : Int} (hRgid : 0 ≤ rgid ∧ rgid < pagingMaxSymtblSz)
    (hSize : 1 ≤ size ∧ size ≤ 4194304) (allocAddr : Int) :
    (∀ fuel junk addr t,
        alloc fuel junk 0 rgid size allocAddr (s.caller proc) = .ok addr t → t.BelowBus →
          AllocAgrees (s.caller proc) rgid size addr t) ↔
      GivesAddress (s.caller proc) size allocAddr := by
  obtain ⟨hOrder, hBus⟩ := inOrder_run run proc
  have hSize' : 1 ≤ size ∧ size < 2147483648 := by omega
  constructor
  · intro hAgrees
    by_contra hNot
    obtain ⟨hNone, hNot⟩ := not_or.mp hNot
    obtain ⟨hGap, hAddr⟩ := not_or.mp hNot
    obtain ⟨fuel, hOk⟩ :=
      alloc_gap hOrder hBus hRgid hSize' hNone (not_lt.mp hGap) 0 allocAddr
    have hRegion := (hAgrees fuel 0 _ _ hOk hBus).region
    simp only [Caller.putSymrg, Function.update_self] at hRegion
    exact hAddr (congrArg VmRg.rgStart hRegion).symm
  · intro hGives fuel junk addr t hOk hBus'
    exact (alloc_path hOrder hBus hSize' hOk hBus').agrees hOrder.sbrk_le hGives

/-- After a first allocation of 100 bytes, one of 200 bytes needs a new page. -/
theorem alloc_agrees_grown : ∃ (s : Processes Unit) (addr : Int) (t : Caller),
    Runs BoundedFrameStep (initial 1024 4096) [((), .mem (.pgalloc 100 0))] s ∧
    alloc 2 0 0 1 200 0 (s.caller ()) = .ok addr t ∧
    AllocAgrees (s.caller ()) 1 200 addr t := by
  have hEval : ((MemCall.pgalloc 100 0).run ⟨2, 0, 0, 0⟩
      ((initial 1024 4096 : Processes Unit).caller ())).state?.any (fun s =>
        s.BelowBus ∧ s.mm.mmap.vmEnd - s.mm.mmap.sbrk < 200 ∧
          (alloc 2 0 0 1 200 0 s).ok?.any fun result => result.2.BelowBus) = true := by
    decide +kernel
  obtain ⟨s, step, hTest⟩ := exists_frameStep hEval
  obtain ⟨hBus, hGap, hCall⟩ := of_decide_eq_true hTest
  obtain ⟨⟨addr, t⟩, hOk, hBus'⟩ := (Option.any_eq_true _ _).mp hCall
  have run : Runs BoundedFrameStep (initial 1024 4096) [((), .mem (.pgalloc 100 0))] s :=
    Runs.one ⟨⟨step, by decide, by decide⟩, fun _ => hBus⟩
  have hOk' := Outcome.ok?_eq_some.mp hOk
  refine ⟨s, addr, t, run, hOk', ?_⟩
  exact (alloc_agrees_iff run (by decide) (by decide) 0).mpr (Or.inr (Or.inl hGap)) 2 0 addr t hOk'
    (of_decide_eq_true hBus')

/-- One of 50 bytes fits into the gap, and leaves `*alloc_addr` at what it was. -/
theorem alloc_gap_drops_address : ∃ (s : Processes Unit) (t : Caller),
    Runs BoundedFrameStep (initial 1024 4096) [((), .mem (.pgalloc 100 0))] s ∧
    alloc 2 0 0 1 50 0 (s.caller ()) = .ok 0 t ∧ t.mm.symrgtbl 1 = ⟨100, 150⟩ ∧
    ¬ AllocAgrees (s.caller ()) 1 50 0 t := by
  have hEval : ((MemCall.pgalloc 100 0).run ⟨2, 0, 0, 0⟩
      ((initial 1024 4096 : Processes Unit).caller ())).state?.any (fun s =>
        s.BelowBus ∧ (alloc 2 0 0 1 50 0 s).ok?.any fun result =>
          result.1 = 0 ∧ result.2.mm.symrgtbl 1 = ⟨100, 150⟩) = true := by
    decide +kernel
  obtain ⟨s, step, hTest⟩ := exists_frameStep hEval
  obtain ⟨hBus, hCall⟩ := of_decide_eq_true hTest
  obtain ⟨⟨addr, t⟩, hOk, hResult⟩ := (Option.any_eq_true _ _).mp hCall
  obtain ⟨rfl, hRegion⟩ := of_decide_eq_true hResult
  refine ⟨s, t, Runs.one ⟨⟨step, by decide, by decide⟩, fun _ => hBus⟩,
    Outcome.ok?_eq_some.mp hOk, hRegion, fun hAgrees => ?_⟩
  have hSame := hAgrees.region
  rw [hRegion] at hSame
  exact absurd hSame (by decide)

end Processes

end Btlos
