import Btlos.Vm.Containment
import Btlos.Vm.SizeArithmetic

/-! Addresses beyond the 22 bits of the bus. The page number is cut to 14 bits
before anything checks it, and the only limit on a process is the number of
frames. -/
namespace Btlos

open Transition

/-- An allocation of at most 2^24 bytes that succeeds. -/
def AllocStep : Caller → Int × Int → Caller → Prop :=
  Guarded (fun s label t => VmStep s (.pgalloc label.1 label.2, true) t) fun _ label =>
    1 ≤ label.1 ∧ label.1 ≤ 16777216

/-- An access goes to the address `virt` of a live region, which it cuts to `addr`. -/
def Caller.Accesses (s : Caller) (virt addr : Int) : Prop :=
  ∃ rgid ∈ symbols, ∃ offset, (s.mm.symrgtbl rgid).Inside offset ∧
    virt = (s.mm.symrgtbl rgid).rgStart + offset ∧ accessAddr 0 rgid offset s = .ok addr s

/-- No two addresses of live regions share a page and offset. -/
structure Caller.Addressable (s : Caller) : Prop where
  decodes : ∀ virt addr, s.Accesses virt addr → pagingPgn addr * 256 + pagingOffst addr = virt
  apart : ∀ virt addr virt' addr', s.Accesses virt addr → s.Accesses virt' addr' →
    pagingPgn addr = pagingPgn addr' → pagingOffst addr = pagingOffst addr' → virt = virt'
  belowBus : s.BelowBus

/-- The total size of the allocations of a run. -/
def totalSize (labels : List (Int × Int)) : Int := (labels.map Prod.fst).sum

/-- What is left by successful allocations of `total` bytes without a release. -/
structure Caller.Packed (s : Caller) (total : Int) : Prop where
  exact : s.Exact
  sbrk : s.mm.mmap.sbrk = total
  vmEnd : s.mm.mmap.vmEnd = (total + 255) / 256 * 256
  free : ∀ addr, coverCount s.mm.mmap.vmFreergList addr = 0

section Step

variable {s t : Caller} {total : Int}

/-- Nothing is free below `sbrk`. -/
theorem Caller.Packed.not_hasRegion (h : s.Packed total) {size : Int} (hSize : 1 ≤ size) :
    ¬ s.HasRegion size := by
  rintro ⟨rg, hRg, hRoom⟩
  have hCover := coverCount_le_of_mem hRg rg.rgStart
  have hLength : rg.length = rg.rgEnd - rg.rgStart := rfl
  rw [h.free, coverCount_cons, if_pos (by omega)] at hCover
  omega

theorem Caller.Packed.step (h : s.Packed total) (hTotal : total ≤ 4194304) {label : Int × Int}
    (step : AllocStep s label t) : t.Packed (total + label.1) := by
  obtain ⟨step, hSize⟩ := step
  obtain ⟨size, regIndex⟩ := label
  simp only at step hSize ⊢
  have hLow := h.exact.inOrder.sbrk_nonneg
  have hNone := h.not_hasRegion hSize.1
  have hGapEq : s.mm.mmap.vmEnd - s.mm.mmap.sbrk = (total + 255) / 256 * 256 - total := by
    rw [h.sbrk, h.vmEnd]
  have hSbrk := h.sbrk
  have hVmEnd := h.vmEnd
  have hFits : SizeFits s size := ⟨by omega, fun _ => ⟨by omega, by omega, by omega⟩⟩
  have hExact := (h.exact.step step ⟨hSize.1, by omega⟩ hFits).2
  obtain ⟨fuel, junk, addr, hCode⟩ := step
  have hCint : cint size = size := cint_of_range (by omega) (by omega)
  simp only [VmCall.run, Outcome.code?_bind_ok, pgalloc, hCint] at hCode
  have hTo := alloc_to_of_fits h.exact hSize.1 hFits hCode
  have hRaised := (alloc_vmEnd fuel junk (cint regIndex) size addr s).of_code? hCode
  cases hTo with
  | fit rgs taken newrg t hCarves hLast hMmap hTbl =>
      refine absurd ((Caller.hasRegion_iff hSize.1 hCarves).mpr ?_) hNone
      rintro rfl
      simp at hLast
  | brk rgs vmEnd t hCarves hAligned hRoom hMmap hTbl =>
      refine ⟨hExact, by rw [hMmap, ← hSbrk], ?_, ?_⟩
      · have hVmEnd' : vmEnd = t.mm.mmap.vmEnd := by rw [hMmap]
        rw [← hVmEnd']
        rcases hRaised with hSame | ⟨hNeed, hGrown⟩
        · omega
        · obtain ⟨hMultiple, -, hReaches, hHigh⟩ :=
            brkRaised_of_fits h.exact hSize.1 hFits hNone hNeed
          omega
      · intro addr
        have hCover := hCarves.cover addr
        rw [h.free, coverCount_nil] at hCover
        rw [hMmap]
        exact hCover.symm

/-- Below the limit of the bus every address decodes to itself. -/
theorem Caller.Packed.addressable_iff (h : s.Packed total) :
    s.Addressable ↔ total ≤ busLimit := by
  have hLimit := busLimit_eq
  have hVmEnd := h.vmEnd
  constructor
  · intro hAddressable
    have hBus : s.mm.mmap.vmEnd ≤ busLimit := hAddressable.belowBus
    omega
  · intro hTotal
    have hDecodes : ∀ virt addr, s.Accesses virt addr →
        pagingPgn addr * 256 + pagingOffst addr = virt := by
      rintro virt addr ⟨rgid, hRgid, offset, hInside, rfl, hOk⟩
      obtain ⟨hOffset, hShort⟩ := hInside
      have hSbrk := h.sbrk
      rcases h.exact.inOrder.symbol rgid hRgid with hDead | ⟨⟨hLow, -, hHigh⟩, -⟩
      · omega
      · rcases accessAddr_cases rgid offset s with hCall | hCall | ⟨-, hCall⟩
        · simp [hCall] at hOk
        · simp [hCall] at hOk
        · rw [hCall] at hOk
          obtain ⟨rfl, -⟩ := Outcome.ok.inj hOk
          rw [cint_of_range (by omega) (by omega), pagingPgn_eq, pagingOffst_eq]
          omega
    refine ⟨hDecodes, ?_, ?_⟩
    · intro virt addr virt' addr' hVirt hVirt' hPgn hOffst
      rw [← hDecodes virt addr hVirt, ← hDecodes virt' addr' hVirt', hPgn, hOffst]
    · change s.mm.mmap.vmEnd ≤ busLimit
      omega

end Step

theorem packed_freshCaller (mram activeMswp : Memphy) : (freshCaller mram activeMswp).Packed 0 := by
  refine ⟨exact_freshCaller mram activeMswp, rfl, rfl, fun addr => ?_⟩
  change coverCount [initVmRg 0 0] addr = 0
  rw [coverCount_cons, if_neg, coverCount_nil]
  simp only [initVmRg, ulong]
  omega

theorem totalSize_concat (labels : List (Int × Int)) (label : Int × Int) :
    totalSize (labels ++ [label]) = totalSize labels + label.1 := by
  simp [totalSize]

/-- Addresses are told apart throughout a run of successful allocations exactly
when their sizes add up to no more than 2^22. -/
theorem addressable_run_iff (mram activeMswp : Memphy) (labels : List (Int × Int)) (s : Caller) :
    Runs (Keeping AllocStep Caller.Addressable) (freshCaller mram activeMswp) labels s ↔
      Runs AllocStep (freshCaller mram activeMswp) labels s ∧ totalSize labels ≤ busLimit := by
  have hLimit := busLimit_eq
  constructor
  · intro run
    -- by the limit reached so far, the arithmetic of the next allocation is exact
    suffices hAll : Runs AllocStep (freshCaller mram activeMswp) labels s ∧
        s.Packed (totalSize labels) ∧ totalSize labels ≤ busLimit from ⟨hAll.1, hAll.2.2⟩
    induction run with
    | nil => exact ⟨.nil, packed_freshCaller mram activeMswp, by decide⟩
    | snoc prior last ih =>
        obtain ⟨prior', hPacked, hTotal⟩ := ih
        obtain ⟨step, hAddressable⟩ := last
        have hNext := hPacked.step (by omega) step
        rw [← totalSize_concat] at hNext
        exact ⟨prior'.snoc step, hNext, hNext.addressable_iff.mp hAddressable⟩
  · rintro ⟨run, hTotal⟩
    suffices hAll : Runs (Keeping AllocStep Caller.Addressable) (freshCaller mram activeMswp)
        labels s ∧ s.Packed (totalSize labels) from hAll.1
    induction run with
    | nil => exact ⟨.nil, packed_freshCaller mram activeMswp⟩
    | @snoc labels label middle finish prior step ih =>
        rw [totalSize_concat] at hTotal
        have hPositive := step.2.1
        obtain ⟨prior', hPacked⟩ := ih (by omega)
        have hNext := hPacked.step (by omega) step
        rw [← totalSize_concat] at hNext
        refine ⟨prior'.snoc ⟨step, hNext.addressable_iff.mpr ?_⟩, hNext⟩
        rwa [totalSize_concat]

/-- While RAM has frames to spare, and no page is marked present, pages of any
number are mapped, also one after the other to the same page number. -/
theorem vmapPageRange_free (junk : Byte) (pgnum : Nat) (addr : Int) {s : Caller}
    {pages : List Int} (hAbsent : ∀ pgn, pagingPagePresent (s.mm.pgd pgn) = false)
    (hLru : s.mm.lruPgn = .nodes pages) (hFrames : pgnum ≤ s.mram.freeFpList.length) :
    ∃ t, vmapPageRange junk pgnum addr s = .ok () t ∧ s.SameVm t := by
  induction pgnum generalizing s addr pages with
  | zero => exact ⟨s, rfl, .rfl⟩
  | succ pgnum ih =>
      cases hFree : s.mram.freeFpList with
      | nil => simp [hFree] at hFrames
      | cons frame rest =>
          have hCall := pgGetpage_freeFrame junk (pagingPgn_bounds addr) (hAbsent _) hFree hLru
          rw [hFree, List.length_cons] at hFrames
          rw [vmapPageRange, hCall, Outcome.bind_ok]
          let next := { s.setLru (.nodes (pagingPgn addr :: pages.erase (pagingPgn addr))) with
            mram := { s.mram with freeFpList := rest } }
          obtain ⟨t, hRest, hSame⟩ := ih (cint (addr + pagingPagesz)) (s := next) hAbsent rfl
            (Nat.le_of_succ_le_succ hFrames)
          exact ⟨t, hRest, hSame⟩

/-- On 8 MiB of RAM a process gets 2^22 + 1 bytes, whose last address falls on the
page and offset of the first. -/
theorem alloc_beyond_bus : ∃ t,
    AllocStep (freshCaller (initMemphy .zero 8388608 1) (initMemphy .zero 4096 1)) (4194305, 0) t ∧
    t.mm.symrgtbl 0 = ⟨0, 4194305⟩ ∧ ¬ t.Addressable := by
  let start := freshCaller (initMemphy .zero 8388608 1) (initMemphy .zero 4096 1)
  have hPages : ((pagingPageAlignsz (brkIncSz start 4194305)).tdiv pagingPagesz).toNat = 16385 := by
    decide +kernel
  have hFrames : 16385 ≤ (start.setVmEnd (brkRaised start 4194305)).mram.freeFpList.length := by
    change 16385 ≤ (initMemphy .zero 8388608 1).freeFpList.length
    rw [initMemphy_freeFpList, formatNodes_length]
    decide
  obtain ⟨u, hMap, hSame⟩ := vmapPageRange_free 0 16385 (cint start.mm.mmap.vmEnd)
    (fun _ => pagingPagePresent_zero) rfl hFrames
  rw [← hPages] at hMap
  have hTaken : u.takenAtBrk 0 4194305 0 = (u.setSbrk 4194305).putSymrg 0 ⟨0, 4194305⟩ :=
    u.takenAtBrk_of_range 0 (by decide) (by decide) (by decide)
  obtain ⟨fuel, hMiss⟩ : ∃ fuel, getFreeVmrgArea fuel 0 4194305 start = .fail start := by
    apply getFreeVmrgArea_miss (s := start)
    intro rg hRg
    obtain rfl : rg = initVmRg 0 0 := by
      simpa [start, freshCaller, initMm, FreshMm.zero, enlistVmRgNode] using hRg
    exact (by decide : (0 : Int) < ulong (0 + 4194305))
  have hOk : alloc fuel 0 0 0 4194305 0 start = .ok 0 (u.takenAtBrk 0 4194305 0) := by
    rw [alloc, hMiss]
    exact allocAtBrk_grown 0 0 (by decide +kernel) (by decide) hMap
  rw [hTaken] at hOk
  have hRegion : ((u.setSbrk 4194305).putSymrg 0 ⟨0, 4194305⟩).mm.symrgtbl 0 = ⟨0, 4194305⟩ :=
    Caller.putSymrg_self _ _ _
  refine ⟨_, ⟨⟨fuel, 0, 0, ?_⟩, by decide, by decide⟩, hRegion, ?_⟩
  · have hCint : cint 4194305 = 4194305 := by decide
    have hZero : cint 0 = 0 := by decide
    simp only [VmCall.run, Outcome.code?_bind_ok, pgalloc, hCint, hZero]
    exact congrArg Outcome.code? hOk
  · intro hAddressable
    have hLast : ((u.setSbrk 4194305).putSymrg 0 ⟨0, 4194305⟩).Accesses 4194304 4194304 := by
      refine ⟨0, mem_symbols_zero, 4194304, ?_, ?_, ?_⟩
      · rw [hRegion]
        exact ⟨by decide, by decide⟩
      · rw [hRegion]
        decide
      · rw [accessAddr_live 4194304 (by decide) (by rw [hRegion]; decide), hRegion]
        rfl
    exact absurd (hAddressable.decodes _ _ hLast) (by decide)

end Btlos
