import Btlos.Vm.SizeArithmetic

/-! What an ALLOC or FREE that fails leaves behind. -/
namespace Btlos

open Transition

/-- What a failed call should not change: symbols, areas, the page table and the
free frames of both devices. -/
structure Caller.Unchanged (s t : Caller) : Prop where
  symrgtbl : t.mm.symrgtbl = s.mm.symrgtbl
  vmEnd : t.mm.mmap.vmEnd = s.mm.mmap.vmEnd
  sbrk : t.mm.mmap.sbrk = s.mm.mmap.sbrk
  vmFreergList : t.mm.mmap.vmFreergList = s.mm.mmap.vmFreergList
  pgd : t.mm.pgd = s.mm.pgd
  freeFrames : t.mram.freeFpList = s.mram.freeFpList
  freeSwapFrames : t.activeMswp.freeFpList = s.activeMswp.freeFpList

section Alloc

variable {fuel : Nat} {junk : Byte} {rgid size allocAddr : Int} {s t : Caller}

/-- Only sizes just below 0 are rounded to nothing. -/
theorem pagingPageAlignsz_ne_zero {sz : Int} (hLow : -2147483648 ≤ sz) (hHigh : sz < 2147483648)
    (hSize : sz ≤ -511 ∨ 0 < sz) : pagingPageAlignsz sz ≠ 0 := by
  have hBounds := cint_bounds (cint (sz + 256) - 1)
  have hSum : cint (cint (sz + 256) - 1) ≤ -256 ∨ 256 ≤ cint (cint (sz + 256) - 1) := by
    unfold cint
    omega
  have hDiv : ∀ sum : Int, sum - 256 < sum.tdiv 256 * 256 ∧ sum.tdiv 256 * 256 < sum + 256 ∧
      (0 ≤ sum → sum.tdiv 256 * 256 ≤ sum) ∧ (sum < 0 → sum ≤ sum.tdiv 256 * 256) := by
    intro sum
    rw [Int.tdiv_eq_ediv, Int.sign_eq_one_of_pos (by decide : (0 : Int) < 256)]
    split_ifs <;> omega
  simp only [pagingPageAlignsz, divRoundUp, pagingPagesz, Nat.cast_ofNat]
  generalize cint (cint (sz + 256) - 1) = sum at hBounds hSum
  have hSum' := hDiv sum
  rw [cint_of_range (by omega) (by omega)]
  omega

/-- The limit that a growth sets is never the one it found. -/
theorem brkRaised_ne (hSize : 1 ≤ size ∧ size ≤ 4194304) (hGap : brkGap s < size) :
    brkRaised s size ≠ s.mm.mmap.vmEnd := by
  have hBounds := cint_bounds (s.mm.mmap.vmEnd - s.mm.mmap.sbrk)
  have hGapEq : brkGap s = cint (s.mm.mmap.vmEnd - s.mm.mmap.sbrk) := rfl
  have hLack := cint_bounds (size - brkGap s)
  have hSign : cint (size - brkGap s) ≤ -511 ∨ 0 < cint (size - brkGap s) := by
    rw [cint]
    omega
  have hSome : brkIncSz s size ≠ 0 := pagingPageAlignsz_ne_zero hLack.1 hLack.2 hSign
  have hInc : -2147483648 ≤ brkIncSz s size ∧ brkIncSz s size < 2147483648 := cint_bounds _
  rw [brkRaised, ulong]
  omega

/-- An allocation that fails has raised the limit of the area before. -/
theorem alloc_failed_raised (hFail : alloc fuel junk 0 rgid size allocAddr s = .fail t) :
    brkGap s < size ∧ t.mm.mmap.vmEnd = brkRaised s size := by
  have hEnd := alloc_ends fuel junk rgid size allocAddr s
  rw [hFail] at hEnd
  generalize hCall : (Outcome.fail t : Outcome Caller Int) = call at hEnd
  cases hEnd with
  | undefined | found => simp at hCall
  | missed newrg rgs _ hSearch hStart hBrk =>
      cases hBrk with
      | undefined | gap | grown => simp at hCall
      | refused u hGap hSame =>
          obtain rfl := Outcome.fail.inj hCall
          exact ⟨hGap, congrArg VmArea.vmEnd hSame.1⟩

/-- No allocation that fails leaves everything as it was. -/
theorem failed_alloc_changes (hSize : 1 ≤ size ∧ size ≤ 4194304)
    (hFail : alloc fuel junk 0 rgid size allocAddr s = .fail t) : ¬ s.Unchanged t := by
  obtain ⟨hGap, hRaised⟩ := alloc_failed_raised hFail
  intro hSame
  exact brkRaised_ne hSize hGap (hRaised.symm.trans hSame.vmEnd)

end Alloc

/-- Two frames of RAM and one of swap, and an allocation of four pages. The first
three get their frames before the fourth is refused. -/
theorem failed_alloc_changes_three : ∃ t,
    alloc 1 0 0 0 1000 0 (freshCaller (initMemphy .zero 512 1) (initMemphy .zero 256 1)) = .fail t ∧
    ¬ (freshCaller (initMemphy .zero 512 1) (initMemphy .zero 256 1)).Unchanged t := by
  have hEval : ((alloc 1 0 0 0 1000 0
      (freshCaller (initMemphy .zero 512 1) (initMemphy .zero 256 1))).code?.any
        fun result => result.1 = false) = true := by decide +kernel
  obtain ⟨⟨ok, t⟩, hCode, hFailed⟩ := (Option.any_eq_true _ _).mp hEval
  obtain rfl : ok = false := of_decide_eq_true hFailed
  have hFail := Outcome.code?_eq_false.mp hCode
  exact ⟨t, hFail, failed_alloc_changes ⟨by decide, by decide⟩ hFail⟩

/-- The same call. The limit stays at 1024, and neither device has a free frame
left. -/
theorem failed_alloc_keeps_pages : ∃ t,
    alloc 1 0 0 0 1000 0 (freshCaller (initMemphy .zero 512 1) (initMemphy .zero 256 1)) = .fail t ∧
    (t.mm.mmap.vmEnd = 1024 ∧ t.mram.freeFpList = [] ∧ t.activeMswp.freeFpList = []) ∧
    ¬ (freshCaller (initMemphy .zero 512 1) (initMemphy .zero 256 1)).Unchanged t := by
  have hEval : ((alloc 1 0 0 0 1000 0
      (freshCaller (initMemphy .zero 512 1) (initMemphy .zero 256 1))).code?.any fun result =>
        result.1 = false ∧ result.2.mm.mmap.vmEnd = 1024 ∧ result.2.mram.freeFpList = [] ∧
          result.2.activeMswp.freeFpList = []) = true := by decide +kernel
  obtain ⟨⟨ok, t⟩, hCode, hTest⟩ := (Option.any_eq_true _ _).mp hEval
  obtain ⟨rfl, hVmEnd, hFrames⟩ := of_decide_eq_true hTest
  refine ⟨t, Outcome.code?_eq_false.mp hCode, ⟨hVmEnd, hFrames⟩, fun hSame => ?_⟩
  have hZero : t.mm.mmap.vmEnd = 0 := hSame.vmEnd
  exact absurd (hVmEnd.symm.trans hZero) (by decide)

/-! Releases -/

/-- A release that fails leaves regions and limits as they were. -/
def Caller.FreesCleanly (s : Caller) (rgid : Int) : Prop :=
  ∀ t, free 0 rgid s = .fail t →
    t.mm.symrgtbl = s.mm.symrgtbl ∧ t.mm.mmap.vmFreergList = s.mm.mmap.vmFreergList ∧
      t.mm.mmap.sbrk = s.mm.mmap.sbrk ∧ t.mm.mmap.vmEnd = s.mm.mmap.vmEnd

theorem freesCleanly_iff {s : Caller} {rgid : Int} (hRgid : 0 ≤ rgid ∧ rgid < pagingMaxSymtblSz) :
    s.FreesCleanly rgid ↔ (s.mm.symrgtbl rgid).rgStart ≤ (s.mm.symrgtbl rgid).rgEnd := by
  have hIndex : ¬ (rgid < 0 ∨ rgid > pagingMaxSymtblSz) := by omega
  have hNotLast : rgid ≠ pagingMaxSymtblSz := by omega
  constructor
  · intro hClean
    by_contra hInverted
    -- the symbol is cleared first, and then its region is refused
    have hFail : free 0 rgid s = .fail (s.putSymrg rgid ⟨ulong (-1), ulong (-1)⟩) := by
      have hLive : (s.mm.symrgtbl rgid).rgStart ≠ (s.mm.symrgtbl rgid).rgEnd := by omega
      have hRefused : (s.mm.symrgtbl rgid).rgStart ≥ (s.mm.symrgtbl rgid).rgEnd := by omega
      simp [free, getSymrgByid, hIndex, hNotLast, hLive, getVmaByNum_zero, Caller.setSymrg, hRgid,
        enlistVmFreergList, hRefused]
    have hCleared := s.putSymrg_self rgid ⟨ulong (-1), ulong (-1)⟩
    rw [(hClean _ hFail).1] at hCleared
    rw [hCleared] at hInverted
    exact hInverted (Int.le_refl _)
  · intro hOrder t hFail
    have hTo := free_cases hRgid hOrder (Outcome.code?_eq_false.mpr hFail)
    cases hTo with
    | notLive => exact ⟨rfl, rfl, rfl, rfl⟩

/-- The sizes that an instruction can ask for, apart from 0. -/
def MemCall.Unsigned : MemCall → Prop
  | pgalloc size _ => 1 ≤ size ∧ size < 4294967296
  | _ => True

instance : (call : MemCall) → Decidable call.Unsigned
  | .pgalloc _ _ => inferInstanceAs (Decidable (_ ∧ _))
  | .pgfreeData _ | .pgread _ _ _ | .pgwrite _ _ _ => isTrue trivial

/-- The condition under which the arithmetic of an allocation is sound. -/
def MemCall.Fits (s : Caller) : MemCall → Prop
  | pgalloc size _ => SizeFits s size
  | _ => True

def UnsignedMemStep : Caller → MemCall × Bool → Caller → Prop :=
  Guarded MemStep fun _ label => label.1.Unsigned

theorem Caller.Exact.sameVm {s t : Caller} (h : s.Exact) (hSame : s.SameVm t) : t.Exact := by
  refine ⟨hSame.inOrder h.inOrder, ?_, ?_, ?_⟩
  · rw [hSame.1]
    exact h.vmStart
  · rw [hSame.1]
    exact h.sbrk_lt
  · rw [hSame.1]
    exact h.vmEnd_le

theorem Caller.Exact.memStep {s t : Caller} {label : MemCall × Bool} (h : s.Exact)
    (hSize : label.1.Unsigned) (hFits : label.1.Fits s) (step : MemStep s label t) : t.Exact := by
  obtain ⟨u, hCode⟩ := step
  obtain ⟨call, ok⟩ := label
  cases call with
  | pgalloc size regIndex =>
      have step : VmStep s (.pgalloc size regIndex, ok) t := ⟨u.fuel, u.junk, u.addr, hCode⟩
      exact (h.step step hSize hFits).2
  | pgfreeData regIndex =>
      have step : VmStep s (.pgfreeData regIndex, ok) t := ⟨u.fuel, u.junk, u.addr, hCode⟩
      exact (h.step step trivial trivial).2
  | pgread source offset destination =>
      exact h.sameVm ((pgread_sameVm u.junk u.data source offset destination s).of_code? hCode)
  | pgwrite data destination offset =>
      exact h.sameVm ((write_sameVm u.junk _ _ data s).of_code? hCode)

/-- In a run whose sizes all fit, every release that fails changes nothing. In any
state at all, this is so exactly for the symbols whose region does not end
before it starts. -/
theorem frees_cleanly_iff (mram activeMswp : Memphy) :
    (∀ labels s, Runs (Guarded UnsignedMemStep fun s label => label.1.Fits s)
        (freshCaller mram activeMswp) labels s → ∀ rgid ∈ symbols, s.FreesCleanly rgid) ∧
      ∀ s : Caller, ∀ rgid ∈ symbols, (s.FreesCleanly rgid ↔
        (s.mm.symrgtbl rgid).rgStart ≤ (s.mm.symrgtbl rgid).rgEnd) := by
  refine ⟨fun labels s run rgid hRgid => ?_,
    fun s rgid hRgid => freesCleanly_iff (mem_symbols.mp hRgid)⟩
  have hExact : s.Exact := by
    refine run.invariant Caller.Exact (exact_freshCaller mram activeMswp) ?_
    exact fun _ _ _ h step => h.memStep step.1.2 step.2 step.1.1
  rw [freesCleanly_iff (mem_symbols.mp hRgid)]
  rcases hExact.inOrder.symbol rgid hRgid with hDead | hLive
  · omega
  · omega

/-- ALLOC of 200 bytes and then of 4294967246, which is -50 as an `int`: the second
symbol gets the addresses from 200 to 150. Its release clears it and fails. -/
theorem failed_free_drops_region : ∃ s,
    Runs UnsignedMemStep (freshCaller (initMemphy .zero 1024 1) (initMemphy .zero 4096 1))
      [(.pgalloc 200 0, true), (.pgalloc 4294967246 1, true)] s ∧ ¬ s.FreesCleanly 1 := by
  let next : Caller → MemCall × Bool → Option Caller := fun s label =>
    if label.1.Unsigned then memStep ⟨2, 0, 0, 0⟩ s label else none
  have hEval : (exec next (freshCaller (initMemphy .zero 1024 1) (initMemphy .zero 4096 1))
      [(.pgalloc 200 0, true), (.pgalloc 4294967246 1, true)]).any (fun s =>
        s.mm.symrgtbl 1 = ⟨200, 150⟩ ∧ (free 0 1 s).code?.any fun result =>
          result.1 = false ∧ result.2.mm.symrgtbl 1 = ⟨ulong (-1), ulong (-1)⟩) = true := by
    decide +kernel
  obtain ⟨s, hRun, hTest⟩ := (Option.any_eq_true _ _).mp hEval
  obtain ⟨hRegion, hFree⟩ := of_decide_eq_true hTest
  obtain ⟨⟨ok, t⟩, hCode, hCleared⟩ := (Option.any_eq_true _ _).mp hFree
  obtain ⟨rfl, hCleared⟩ := of_decide_eq_true hCleared
  refine ⟨s, Runs.of_exec hRun ?_, fun hClean => ?_⟩
  · intro s label t hNext
    obtain ⟨hSize, hStep⟩ := Option.ite_none_right_eq_some.mp hNext
    exact ⟨memStep_step hStep, hSize⟩
  · have hSame := congrFun (hClean t (Outcome.code?_eq_false.mp hCode)).1 1
    rw [hRegion, hCleared] at hSame
    exact absurd hSame (by decide)

end Btlos
