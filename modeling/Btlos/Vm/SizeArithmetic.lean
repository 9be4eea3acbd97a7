import Btlos.Vm.Discipline

/-! The sizes of ALLOC over the whole range of the operand, 32 bits without sign.
`__alloc` takes them as `int`, and computes with `int` until the new limits are
stored in 64-bit words. -/
namespace Btlos

open Transition

/-- The sizes that an instruction can ask for, apart from 0. -/
def VmCall.Unsigned : VmCall → Prop
  | pgalloc size _ => 1 ≤ size ∧ size < 4294967296
  | pgfreeData _ => True

/-- `PAGING_PAGE_ALIGNSZ` of a size, with its first sum, comes out exact. -/
def RoundsExactly (sz : Int) : Prop :=
  cint (sz + 256) = sz + 256 ∧ pagingPageAlignsz sz = (sz + 255) / 256 * 256

/-- No conversion or sum of `int` changes a value: the size, and where no free
region is large enough the gap and the addresses of the region at `sbrk`, and where
the gap is not large enough either what is missing, its two roundings and the
address from which pages are mapped. The end of the region at `sbrk` is bound on
both paths, also where the growth is refused and `__alloc` returns before that sum.
The `int` parameters for the end of the area to map are left out: nothing reads
them. -/
structure AllocExact (s : Caller) (size : Int) : Prop where
  converted : cint size = size
  gap : ¬ s.HasRegion size → brkGap s = s.mm.mmap.vmEnd - s.mm.mmap.sbrk
  region : ¬ s.HasRegion size →
    cint s.mm.mmap.sbrk = s.mm.mmap.sbrk ∧ cint (s.mm.mmap.sbrk + size) = s.mm.mmap.sbrk + size
  growth : ¬ s.HasRegion size → brkGap s < size → cint (size - brkGap s) = size - brkGap s ∧
    RoundsExactly (size - brkGap s) ∧ RoundsExactly (brkIncSz s size) ∧
      cint s.mm.mmap.vmEnd = s.mm.mmap.vmEnd

/-- A call whose arithmetic is sound. -/
structure SoundCall (s : Caller) (label : VmCall × Bool) (t : Caller) : Prop where
  region : ∀ size regIndex, label = (.pgalloc size regIndex, true) →
    (t.mm.symrgtbl (cint regIndex)).rgEnd - (t.mm.symrgtbl (cint regIndex)).rgStart = size
  limits : t.mm.mmap.vmStart ≤ t.mm.mmap.sbrk ∧ t.mm.mmap.sbrk ≤ t.mm.mmap.vmEnd
  vmEnd_aligned : t.mm.mmap.vmEnd % 256 = 0
  sbrk_le : s.mm.mmap.sbrk ≤ t.mm.mmap.sbrk
  vmEnd_le : s.mm.mmap.vmEnd ≤ t.mm.mmap.vmEnd
  exact : ∀ size regIndex, label.1 = .pgalloc size regIndex → AllocExact s size

/-- The condition under which it is: the size is positive as an `int`, and where no
free region is large enough, the gap and the end of the region at `sbrk` are
below 2^31, and what is missing can be rounded up twice. -/
def SizeFits (s : Caller) (size : Int) : Prop :=
  size < 2147483648 ∧
    (¬ s.HasRegion size → s.mm.mmap.vmEnd - s.mm.mmap.sbrk < 2147483648 ∧
      s.mm.mmap.sbrk + size < 2147483648 ∧
      size - (s.mm.mmap.vmEnd - s.mm.mmap.sbrk) ≤ 2147483136)

def VmCall.Fits (s : Caller) : VmCall → Prop
  | pgalloc size _ => SizeFits s size
  | pgfreeData _ => True

/-- What the calls that meet the condition preserve. -/
structure Caller.Exact (s : Caller) : Prop where
  inOrder : s.mm.InOrder
  vmStart : s.mm.mmap.vmStart = 0
  sbrk_lt : s.mm.mmap.sbrk < 2147483648
  vmEnd_le : s.mm.mmap.vmEnd ≤ 2147483648

theorem roundsExactly_iff {sz : Int} (hLow : 0 < sz) : RoundsExactly sz ↔ sz < 2147483392 := by
  constructor
  · rintro ⟨hSum, -⟩
    unfold cint at hSum
    omega
  · intro hHigh
    exact ⟨cint_of_range (by omega) (by omega), pagingPageAlignsz_of_small hLow hHigh⟩

section Call

variable {s t : Caller} {size rgid : Int}

/-- Under the invariant, the arithmetic is exact just when the condition is met. -/
theorem allocExact_iff (h : s.Exact) (hSize : 1 ≤ size ∧ size < 4294967296) :
    AllocExact s size ↔ SizeFits s size := by
  have hLow := h.inOrder.sbrk_nonneg
  have hLe := h.inOrder.sbrk_le
  have hSbrk := h.sbrk_lt
  have hLimit := h.vmEnd_le
  have hGapEq : brkGap s = cint (s.mm.mmap.vmEnd - s.mm.mmap.sbrk) := rfl
  constructor
  · intro hExact
    have hPositive : size < 2147483648 := by
      have hCint := cint_bounds size
      rw [hExact.converted] at hCint
      exact hCint.2
    refine ⟨hPositive, fun hNone => ?_⟩
    have hGap := hExact.gap hNone
    have hGapBounds := cint_bounds (s.mm.mmap.vmEnd - s.mm.mmap.sbrk)
    have hEnd := cint_bounds (s.mm.mmap.sbrk + size)
    rw [(hExact.region hNone).2] at hEnd
    refine ⟨by omega, hEnd.2, ?_⟩
    by_contra hLarge
    have hNeed : brkGap s < size := by omega
    obtain ⟨hLack, hRound, hAgain, -⟩ := hExact.growth hNone hNeed
    have hInc : brkIncSz s size = (size - brkGap s + 255) / 256 * 256 := by
      rw [brkIncSz, hLack, hRound.2]
    rw [roundsExactly_iff (by omega)] at hRound
    rw [roundsExactly_iff (by omega)] at hAgain
    omega
  · rintro ⟨hPositive, hFits⟩
    have hGap : ¬ s.HasRegion size → brkGap s = s.mm.mmap.vmEnd - s.mm.mmap.sbrk :=
      fun hNone => cint_of_range (by omega) (hFits hNone).1
    refine ⟨cint_of_range (by omega) hPositive, hGap, fun hNone => ?_, fun hNone hNeed => ?_⟩
    · exact ⟨cint_of_range (by omega) hSbrk, cint_of_range (by omega) (hFits hNone).2.1⟩
    · obtain ⟨-, hEnd, hLack⟩ := hFits hNone
      rw [hGap hNone] at hNeed
      have hCint : cint (size - brkGap s) = size - brkGap s :=
        cint_of_range (by rw [hGap hNone]; omega) (by rw [hGap hNone]; omega)
      have hRound : RoundsExactly (size - brkGap s) := by
        rw [hGap hNone, roundsExactly_iff (by omega)]
        omega
      have hInc : brkIncSz s size = (size - brkGap s + 255) / 256 * 256 := by
        rw [brkIncSz, hCint, hRound.2]
      refine ⟨hCint, hRound, ?_, cint_of_range (by omega) (by omega)⟩
      rw [hInc, hGap hNone, roundsExactly_iff (by omega)]
      omega

/-- The limit after a growth that meets the condition. -/
theorem brkRaised_of_fits (h : s.Exact) (hSize : 1 ≤ size) (hFits : SizeFits s size)
    (hNone : ¬ s.HasRegion size) (hNeed : brkGap s < size) :
    brkRaised s size % 256 = 0 ∧ s.mm.mmap.vmEnd ≤ brkRaised s size ∧
      s.mm.mmap.sbrk + size ≤ brkRaised s size ∧
        brkRaised s size < s.mm.mmap.sbrk + size + 256 := by
  have hLow := h.inOrder.sbrk_nonneg
  have hLe := h.inOrder.sbrk_le
  have hAligned := h.inOrder.vmEnd_aligned
  obtain ⟨hPositive, hFits⟩ := hFits
  obtain ⟨hGapFits, hEnd, hLack⟩ := hFits hNone
  have hGap : brkGap s = s.mm.mmap.vmEnd - s.mm.mmap.sbrk := cint_of_range (by omega) hGapFits
  rw [hGap] at hNeed
  have hInc : brkIncSz s size = (size - (s.mm.mmap.vmEnd - s.mm.mmap.sbrk) + 255) / 256 * 256 := by
    rw [brkIncSz, hGap, cint_of_range (by omega) (by omega),
      pagingPageAlignsz_of_small (by omega) (by omega)]
  rw [brkRaised, hInc, ulong_of_range (by omega) (by omega)]
  omega

/-- The ways in which an allocation that meets the condition ends. -/
theorem alloc_to_of_fits {fuel : Nat} {junk : Byte} {addr : Int} {ok : Bool} (h : s.Exact)
    (hSize : 1 ≤ size) (hFits : SizeFits s size)
    (hCode : (alloc fuel junk 0 rgid size addr s).code? = some (ok, t)) :
    AllocTo s rgid size ok t := by
  have hLow := h.inOrder.sbrk_nonneg
  have hLe := h.inOrder.sbrk_le
  have hSbrk := h.sbrk_lt
  have hGap : ¬ s.HasRegion size → brkGap s = s.mm.mmap.vmEnd - s.mm.mmap.sbrk :=
    fun hNone => cint_of_range (by omega) (hFits.2 hNone).1
  have hPositive := hFits.1
  refine alloc_to_of_exact h.inOrder.toBounded hSize (by omega) hGap
    (fun hNone _ => (hFits.2 hNone).2.1) ?_ hCode
  intro hNone hNeed _
  obtain ⟨hAligned, -, hRoom, -⟩ := brkRaised_of_fits h hSize hFits hNone hNeed
  exact ⟨hAligned.trans h.inOrder.vmEnd_aligned.symm, hRoom, (hFits.2 hNone).2.1⟩

/-- It never lowers the limit, and keeps it in range. -/
theorem vmEnd_of_fits {fuel : Nat} {junk : Byte} {addr : Int} {ok : Bool} (h : s.Exact)
    (hSize : 1 ≤ size) (hFits : SizeFits s size)
    (hCode : (alloc fuel junk 0 rgid size addr s).code? = some (ok, t)) :
    s.mm.mmap.vmEnd ≤ t.mm.mmap.vmEnd ∧ t.mm.mmap.vmEnd ≤ 2147483648 := by
  have hLimit := h.vmEnd_le
  have hRaised : ¬ s.HasRegion size → s.mm.mmap.vmEnd ≤ t.mm.mmap.vmEnd ∧
      t.mm.mmap.vmEnd ≤ 2147483648 := by
    intro hNone
    rcases (alloc_vmEnd fuel junk rgid size addr s).of_code? hCode with hSame | ⟨hNeed, hGrown⟩
    · omega
    · obtain ⟨hAligned, hUp, -, hHigh⟩ := brkRaised_of_fits h hSize hFits hNone hNeed
      have hEnd := (hFits.2 hNone).2.1
      omega
  cases alloc_to_of_fits h hSize hFits hCode with
  | fit rgs taken newrg t hCarves hLast hMmap hTbl =>
      rw [hMmap]
      exact ⟨Int.le_refl _, hLimit⟩
  | brk rgs vmEnd t hCarves =>
      exact hRaised (by simp [Caller.hasRegion_iff hSize hCarves])
  | failed rgs vmEnd t hCarves =>
      exact hRaised (by simp [Caller.hasRegion_iff hSize hCarves])

/-- It keeps the invariant, moves the limits up only, and gives the symbol a region
of the right length. -/
theorem Caller.Exact.alloc_end {fuel : Nat} {junk : Byte} {addr : Int} {ok : Bool} (h : s.Exact)
    (hSize : 1 ≤ size) (hFits : SizeFits s size)
    (hCode : (alloc fuel junk 0 rgid size addr s).code? = some (ok, t)) :
    t.Exact ∧ (s.mm.mmap.sbrk ≤ t.mm.mmap.sbrk ∧ s.mm.mmap.vmEnd ≤ t.mm.mmap.vmEnd) ∧
      (ok = true → (t.mm.symrgtbl rgid).rgEnd - (t.mm.symrgtbl rgid).rgStart = size) := by
  have hTo := alloc_to_of_fits h hSize hFits hCode
  obtain ⟨hUp, hHigh⟩ := vmEnd_of_fits h hSize hFits hCode
  have hOrder : t.mm.InOrder := by
    refine h.inOrder.alloc_end hSize hTo ?_
    rintro rfl
    exact mem_symbols.mpr (alloc_rgid hCode)
  have hStart := h.vmStart
  have hSbrk := h.sbrk_lt
  cases hTo with
  | fit rgs taken newrg t hCarves hLast hMmap hTbl =>
      have hLength := hCarves.taken_size newrg (List.mem_of_getLast? hLast)
      refine ⟨⟨hOrder, ?_, ?_, hHigh⟩, ⟨?_, hUp⟩, fun _ => ?_⟩
      · rwa [hMmap]
      · rwa [hMmap]
      · rw [hMmap]
      · rw [hTbl, Function.update_self]
        omega
  | brk rgs vmEnd t hCarves hAligned hRoom hMmap hTbl =>
      have hNone : ¬ s.HasRegion size := by simp [Caller.hasRegion_iff hSize hCarves]
      have hEnd := (hFits.2 hNone).2.1
      have hMoved : t.mm.mmap.sbrk = s.mm.mmap.sbrk + size := by rw [hMmap]
      refine ⟨⟨hOrder, ?_, by omega, hHigh⟩, ⟨by omega, hUp⟩, fun _ => ?_⟩
      · rwa [hMmap]
      · rw [hTbl, Function.update_self]
        exact add_sub_cancel_left _ _
  | failed rgs vmEnd t hCarves hAligned hRaised hMmap hTbl =>
      refine ⟨⟨hOrder, ?_, ?_, hHigh⟩, ⟨?_, hUp⟩, by simp⟩
      · rwa [hMmap]
      · rwa [hMmap]
      · rw [hMmap]

/-- A release keeps the invariant and moves no limit. -/
theorem Caller.Exact.free_end {ok : Bool} (h : s.Exact)
    (hCode : (free 0 rgid s).code? = some (ok, t)) :
    t.Exact ∧ t.mm.mmap.sbrk = s.mm.mmap.sbrk ∧ t.mm.mmap.vmEnd = s.mm.mmap.vmEnd := by
  obtain ⟨hTo, hRgid⟩ := free_to h.inOrder hCode
  cases hTo with
  | notLive => exact ⟨h, rfl, rfl⟩
  | enlisted t hLive hMmap hTbl =>
      have hOrder := h.inOrder.free_step (hRgid rfl) (.enlisted t hLive hMmap hTbl)
      rw [hMmap]
      refine ⟨⟨hOrder, ?_, ?_, ?_⟩, rfl, rfl⟩
      · rw [hMmap]
        exact h.vmStart
      · rw [hMmap]
        exact h.sbrk_lt
      · rw [hMmap]
        exact h.vmEnd_le

theorem Caller.Exact.limits (h : s.Exact) :
    s.mm.mmap.vmStart ≤ s.mm.mmap.sbrk ∧ s.mm.mmap.sbrk ≤ s.mm.mmap.vmEnd := by
  rw [h.vmStart]
  exact ⟨h.inOrder.sbrk_nonneg, h.inOrder.sbrk_le⟩

/-- A call that meets the condition is sound, and keeps the invariant. -/
theorem Caller.Exact.step {label : VmCall × Bool} (h : s.Exact) (step : VmStep s label t)
    (hSize : label.1.Unsigned) (hFits : label.1.Fits s) : SoundCall s label t ∧ t.Exact := by
  obtain ⟨fuel, junk, addr, hCode⟩ := step
  obtain ⟨call, ok⟩ := label
  cases call with
  | pgfreeData regIndex =>
      obtain ⟨hExact, hSbrk, hVmEnd⟩ := h.free_end hCode
      refine ⟨⟨?_, hExact.limits, hExact.inOrder.vmEnd_aligned, hSbrk.ge, hVmEnd.ge, ?_⟩, hExact⟩
      · simp
      · simp
  | pgalloc size regIndex =>
      have hSize' : 1 ≤ size ∧ size < 4294967296 := hSize
      have hFits' : SizeFits s size := hFits
      have hCint : cint size = size := cint_of_range (by omega) hFits'.1
      simp only [VmCall.run, Outcome.code?_bind_ok, pgalloc, hCint] at hCode
      obtain ⟨hExact, ⟨hSbrk, hVmEnd⟩, hRegion⟩ := h.alloc_end hSize'.1 hFits' hCode
      refine ⟨⟨?_, hExact.limits, hExact.inOrder.vmEnd_aligned, hSbrk, hVmEnd, ?_⟩, hExact⟩
      · rintro _ _ ⟨⟩
        exact hRegion rfl
      · rintro _ _ ⟨⟩
        exact (allocExact_iff h hSize').mpr hFits'

end Call

theorem exact_freshCaller (mram activeMswp : Memphy) : (freshCaller mram activeMswp).Exact :=
  ⟨inOrder_initMm, rfl, (by decide : (0 : Int) < 2147483648), (by decide : (0 : Int) ≤ 2147483648)⟩

/-- The calls that an instruction can make. -/
def UnsignedVmStep : Caller → VmCall × Bool → Caller → Prop :=
  Guarded VmStep fun _ label => label.1.Unsigned

/-- Every call of a run is sound exactly when every call of it meets the condition. -/
theorem sound_run_iff (mram activeMswp : Memphy) (labels : List (VmCall × Bool)) (s : Caller) :
    Runs (fun s label t => UnsignedVmStep s label t ∧ SoundCall s label t)
        (freshCaller mram activeMswp) labels s ↔
      Runs (Guarded UnsignedVmStep fun s label => label.1.Fits s)
        (freshCaller mram activeMswp) labels s := by
  constructor
  · intro run
    refine (run.strengthen Caller.Exact (exact_freshCaller mram activeMswp) ?_).1
    rintro s ⟨call, ok⟩ t h ⟨⟨step, hSize⟩, hSound⟩
    have hFits : call.Fits s := by
      cases call with
      | pgfreeData regIndex => trivial
      | pgalloc size regIndex =>
          exact (allocExact_iff h hSize).mp (hSound.exact size regIndex rfl)
    exact ⟨⟨⟨step, hSize⟩, hFits⟩, (h.step step hSize hFits).2⟩
  · intro run
    refine (run.strengthen Caller.Exact (exact_freshCaller mram activeMswp) ?_).1
    rintro s label t h ⟨⟨step, hSize⟩, hFits⟩
    obtain ⟨hSound, hExact⟩ := h.step step hSize hFits
    exact ⟨⟨⟨step, hSize⟩, hSound⟩, hExact⟩

/-- ALLOC of 2^31 bytes, which is -2^31 as an `int`, on a fresh process: the gap of
0 is large enough, and `sbrk` wraps around to an address far above `vm_end`. -/
theorem alloc_wraps_sbrk : ∃ t,
    UnsignedVmStep (freshCaller (initMemphy .zero 1024 1) (initMemphy .zero 4096 1))
      (.pgalloc 2147483648 0, true) t ∧
    t.mm.mmap.sbrk = 18446744071562067968 ∧ t.mm.mmap.vmEnd = 0 ∧
    ¬ SoundCall (freshCaller (initMemphy .zero 1024 1) (initMemphy .zero 4096 1))
      (.pgalloc 2147483648 0, true) t := by
  have hEval : (vmStep 1 0 0 (freshCaller (initMemphy .zero 1024 1) (initMemphy .zero 4096 1))
      (.pgalloc 2147483648 0, true)).any (fun t =>
        t.mm.mmap.sbrk = 18446744071562067968 ∧ t.mm.mmap.vmEnd = 0) = true := by
    decide +kernel
  obtain ⟨t, hStep, hTest⟩ := (Option.any_eq_true _ _).mp hEval
  obtain ⟨hSbrk, hVmEnd⟩ := of_decide_eq_true hTest
  have hSize : VmCall.Unsigned (.pgalloc 2147483648 0) := ⟨by decide, by decide⟩
  refine ⟨t, ⟨vmStep_step hStep, hSize⟩, hSbrk, hVmEnd, fun hSound => ?_⟩
  have hLe := hSound.limits.2
  rw [hSbrk, hVmEnd] at hLe
  exact absurd hLe (by decide)

end Btlos
