import Btlos.Vm.AllocCases
import Btlos.Library.Transition

/-! The virtual address space of one process over whole runs of `pgalloc` and
`pgfree_data`. -/
namespace Btlos

open Transition

/-- The calls that change the regions of a process. -/
inductive VmCall where
  | pgalloc (size regIndex : Int)
  | pgfreeData (regIndex : Int)

/-- A symbol of the table, and a size that is at least 1 as an `int`. -/
def VmCall.InRange : VmCall → Prop
  | pgalloc size regIndex =>
      (0 ≤ regIndex ∧ regIndex < pagingMaxSymtblSz) ∧ 1 ≤ size ∧ size < 2147483648
  | pgfreeData regIndex => 0 ≤ regIndex ∧ regIndex < pagingMaxSymtblSz

instance : (call : VmCall) → Decidable call.InRange
  | .pgalloc _ _ => inferInstanceAs (Decidable (_ ∧ _))
  | .pgfreeData _ => inferInstanceAs (Decidable (_ ∧ _))

def VmCall.run (fuel : Nat) (junk : Byte) (addr : Int) : VmCall → Caller → Outcome Caller Unit
  | pgalloc size regIndex, s =>
      (Btlos.pgalloc fuel junk addr size regIndex s).bind fun _ s => .ok () s
  | pgfreeData regIndex, s => Btlos.pgfreeData regIndex s

/-- A call that returns, with the return code in its label. The contents of
uninitialised variables and the number of rounds are open. -/
def VmStep (s : Caller) (label : VmCall × Bool) (t : Caller) : Prop :=
  ∃ fuel junk addr, (label.1.run fuel junk addr s).code? = some (label.2, t)

/-- The same as a function, for given contents of uninitialised variables. -/
def vmStep (fuel : Nat) (junk : Byte) (addr : Int) (s : Caller) (label : VmCall × Bool) :
    Option Caller :=
  ((label.1.run fuel junk addr s).code?.filter fun result => result.1 = label.2).map Prod.snd

theorem vmStep_step {fuel : Nat} {junk : Byte} {addr : Int} {s t : Caller}
    {label : VmCall × Bool} (h : vmStep fuel junk addr s label = some t) : VmStep s label t := by
  obtain ⟨ok, t', hCode, hTest, rfl⟩ := Outcome.code?_of_filter h
  obtain rfl := of_decide_eq_true hTest
  exact ⟨fuel, junk, addr, hCode⟩

/-- Calls in range that leave the process below the limit of the bus. -/
def BoundedVmStep : Caller → VmCall × Bool → Caller → Prop :=
  Keeping (Guarded VmStep fun _ label => label.1.InRange) Caller.BelowBus

/-- The same as a function, for given contents of uninitialised variables. -/
def boundedVmStep (fuel : Nat) (junk : Byte) (addr : Int) (s : Caller) (label : VmCall × Bool) :
    Option Caller :=
  ((label.1.run fuel junk addr s).code?.filter fun result =>
    result.1 = label.2 ∧ label.1.InRange ∧ result.2.BelowBus).map Prod.snd

theorem boundedVmStep_step {fuel : Nat} {junk : Byte} {addr : Int} {s t : Caller}
    {label : VmCall × Bool} (h : boundedVmStep fuel junk addr s label = some t) :
    BoundedVmStep s label t := by
  obtain ⟨ok, t', hCode, hTest, rfl⟩ := Outcome.code?_of_filter h
  obtain ⟨rfl, hRange, hBus⟩ := of_decide_eq_true hTest
  exact ⟨⟨⟨fuel, junk, addr, hCode⟩, hRange⟩, hBus⟩

/-- A process fresh from `init_mm`, on any two devices. -/
def freshCaller (mram activeMswp : Memphy) : Caller := ⟨initMm .zero, mram, activeMswp⟩

/-! The regions of a process -/

/-- The indices of the symbol table. -/
def symbols : List Int := (List.range 30).map Int.ofNat

theorem mem_symbols {rgid : Int} : rgid ∈ symbols ↔ 0 ≤ rgid ∧ rgid < pagingMaxSymtblSz := by
  simp only [symbols, List.mem_map, List.mem_range, pagingMaxSymtblSz]
  constructor
  · rintro ⟨n, hn, rfl⟩
    simp only [Int.ofNat_eq_natCast]
    omega
  · rintro ⟨hLow, hHigh⟩
    exact ⟨rgid.toNat, by omega, by simp only [Int.ofNat_eq_natCast]; omega⟩

theorem symbols_nodup : symbols.Nodup := by decide

/-- The test that `get_symrg_byid` makes. -/
def VmRg.Live (rg : VmRg) : Prop := rg.rgStart ≠ rg.rgEnd

instance (rg : VmRg) : Decidable rg.Live := inferInstanceAs (Decidable (_ ≠ _))

namespace Mm

/-- The regions of the live symbols. -/
def liveRegions (mm : Mm) : List VmRg := (symbols.map mm.symrgtbl).filter VmRg.Live

/-- All regions: those of live symbols and those on the free list. -/
def regions (mm : Mm) : List VmRg := mm.liveRegions ++ mm.mmap.vmFreergList

/-- The areas and regions of a process are laid out as they should be. -/
structure Layout (mm : Mm) : Prop where
  vmEnd_aligned : mm.mmap.vmEnd % 256 = 0
  sbrk_le : mm.mmap.sbrk ≤ mm.mmap.vmEnd
  free : ∀ rg ∈ mm.mmap.vmFreergList, rg.Within mm.mmap.sbrk
  live : ∀ rg ∈ mm.liveRegions, rg.Within mm.mmap.sbrk ∧ rg.rgStart < rg.rgEnd
  disjoint : mm.regions.Pairwise fun first second =>
    ∀ addr, ¬ ((first.rgStart ≤ addr ∧ addr < first.rgEnd) ∧
      (second.rgStart ≤ addr ∧ addr < second.rgEnd))

/-- How many regions hold an address. A symbol that is not live has an empty
region, so it need not be left out of the count. -/
def cover (mm : Mm) (addr : Int) : Nat :=
  coverCount (symbols.map mm.symrgtbl ++ mm.mmap.vmFreergList) addr

/-- What a run preserves. -/
structure InOrder (mm : Mm) : Prop extends Bounded mm where
  vmEnd_aligned : mm.mmap.vmEnd % 256 = 0
  symbol : ∀ rgid ∈ symbols, (mm.symrgtbl rgid).rgStart = (mm.symrgtbl rgid).rgEnd ∨
    (mm.symrgtbl rgid).Within mm.mmap.sbrk ∧
      (mm.symrgtbl rgid).rgStart < (mm.symrgtbl rgid).rgEnd
  cover_le : ∀ addr, mm.cover addr ≤ 1

end Mm

private theorem coverCount_empty {rgs : List VmRg} (h : ∀ rg ∈ rgs, rg.rgStart = rg.rgEnd)
    (addr : Int) : coverCount rgs addr = 0 := by
  induction rgs with
  | nil => rfl
  | cons rg rest ih =>
      obtain ⟨hRg, hRest⟩ := List.forall_mem_cons.mp h
      rw [coverCount_cons, if_neg (by omega), ih hRest]

theorem coverCount_filter_live (rgs : List VmRg) (addr : Int) :
    coverCount (rgs.filter VmRg.Live) addr = coverCount rgs addr := by
  induction rgs with
  | nil => rfl
  | cons rg rest ih =>
      rw [List.filter_cons, coverCount_cons]
      split_ifs with hLive hIn hIn
      · rw [coverCount_cons, if_pos hIn, ih]
      · rw [coverCount_cons, if_neg hIn, ih]
      · have hDead : rg.rgStart = rg.rgEnd := by
          by_contra hNe
          exact hLive (decide_eq_true hNe)
        omega
      · rw [ih, Nat.zero_add]

theorem Mm.coverCount_regions (mm : Mm) (addr : Int) :
    coverCount mm.regions addr = mm.cover addr := by
  rw [Mm.regions, Mm.liveRegions, Mm.cover, coverCount_append, coverCount_append,
    coverCount_filter_live]

/-- Putting a region in place of another one in a table. -/
theorem coverCount_update {table : Int → VmRg} {ids : List Int} (hNodup : ids.Nodup) {id : Int}
    (hId : id ∈ ids) (rg : VmRg) (addr : Int) :
    coverCount (ids.map (Function.update table id rg)) addr + coverCount [table id] addr =
      coverCount (ids.map table) addr + coverCount [rg] addr := by
  induction ids with
  | nil => simp at hId
  | cons first rest ih =>
      obtain ⟨hFirst, hRest⟩ := List.nodup_cons.mp hNodup
      simp only [List.map_cons, coverCount_cons, coverCount_nil] at ih ⊢
      by_cases hEq : id = first
      · subst hEq
        have hSame : rest.map (Function.update table id rg) = rest.map table := by
          apply List.map_congr_left
          intro other hOther
          exact Function.update_of_ne (by rintro rfl; exact hFirst hOther) _ _
        rw [Function.update_self, hSame]
        omega
      · have hMem : id ∈ rest := (List.mem_cons.mp hId).resolve_left hEq
        have := ih hRest hMem
        rw [Function.update_of_ne (Ne.symm hEq)]
        omega

/-- No region below a limit holds an address beyond it. -/
theorem coverCount_eq_zero {rgs : List VmRg} {limit addr : Int}
    (hWithin : ∀ rg ∈ rgs, rg.Within limit) (hOut : addr < 0 ∨ limit ≤ addr) :
    coverCount rgs addr = 0 := by
  induction rgs with
  | nil => rfl
  | cons rg rest ih =>
      obtain ⟨⟨hLow, -, hHigh⟩, hRest⟩ := List.forall_mem_cons.mp hWithin
      rw [coverCount_cons, if_neg (by omega), ih hRest]

theorem coverCount_le_of_mem {rgs : List VmRg} {rg : VmRg} (h : rg ∈ rgs) (addr : Int) :
    coverCount [rg] addr ≤ coverCount rgs addr := by
  obtain ⟨before, after, rfl⟩ := List.append_of_mem h
  rw [coverCount_append, coverCount_cons, coverCount_cons]
  simp only [coverCount_nil]
  omega

/-! One call -/

section Step

variable {s t : Caller} {rgid size : Int} {rgs taken : List VmRg} {newrg : VmRg}

/-- The cover after a symbol has been set and the free list replaced. -/
private theorem cover_set (hRgid : rgid ∈ symbols)
    (hTbl : t.mm.symrgtbl = Function.update s.mm.symrgtbl rgid newrg) (addr : Int) :
    t.mm.cover addr + coverCount [s.mm.symrgtbl rgid] addr +
        coverCount s.mm.mmap.vmFreergList addr =
      s.mm.cover addr + coverCount [newrg] addr + coverCount t.mm.mmap.vmFreergList addr := by
  have h : coverCount (symbols.map (Function.update s.mm.symrgtbl rgid newrg)) addr +
        coverCount [s.mm.symrgtbl rgid] addr =
      coverCount (symbols.map s.mm.symrgtbl) addr + coverCount [newrg] addr :=
    coverCount_update symbols_nodup hRgid newrg addr
  rw [Mm.cover, Mm.cover, hTbl, coverCount_append, coverCount_append]
  omega

/-- An allocation from the free list moves the pieces it takes out of the cover,
and one of them back in, over the region the symbol had before. -/
theorem cover_fit (hRgid : rgid ∈ symbols)
    (hCarves : Carves s.mm.mmap.sbrk size s.mm.mmap.vmFreergList rgs taken)
    (hMmap : t.mm.mmap = { s.mm.mmap with vmFreergList := rgs })
    (hTbl : t.mm.symrgtbl = Function.update s.mm.symrgtbl rgid newrg) (addr : Int) :
    t.mm.cover addr + coverCount [s.mm.symrgtbl rgid] addr + coverCount taken addr =
      s.mm.cover addr + coverCount [newrg] addr := by
  have hSet := cover_set hRgid hTbl addr
  have hFree := hCarves.cover addr
  rw [hMmap] at hSet
  simp only at hSet
  omega

/-- An allocation at `sbrk` adds the new bytes to the cover. -/
theorem cover_brk (hRgid : rgid ∈ symbols)
    (hCarves : Carves s.mm.mmap.sbrk size s.mm.mmap.vmFreergList rgs [])
    (hFree : t.mm.mmap.vmFreergList = rgs)
    (hTbl : t.mm.symrgtbl = Function.update s.mm.symrgtbl rgid newrg) (addr : Int) :
    t.mm.cover addr + coverCount [s.mm.symrgtbl rgid] addr =
      s.mm.cover addr + coverCount [newrg] addr := by
  have hSet := cover_set hRgid hTbl addr
  have hSame := hCarves.cover addr
  rw [hFree] at hSet
  simp only [coverCount_nil] at hSame
  omega

theorem cover_failed (hCarves : Carves s.mm.mmap.sbrk size s.mm.mmap.vmFreergList rgs [])
    (hFree : t.mm.mmap.vmFreergList = rgs) (hTbl : t.mm.symrgtbl = s.mm.symrgtbl) (addr : Int) :
    t.mm.cover addr = s.mm.cover addr := by
  have hSame := hCarves.cover addr
  rw [Mm.cover, Mm.cover, hFree, hTbl, coverCount_append, coverCount_append]
  simp only [coverCount_nil] at hSame
  omega

/-- A release only moves a region from the table to the free list. -/
theorem cover_free (hRgid : rgid ∈ symbols)
    (hMmap : t.mm.mmap = { s.mm.mmap with
      vmFreergList := s.mm.symrgtbl rgid :: s.mm.mmap.vmFreergList })
    (hTbl : t.mm.symrgtbl = Function.update s.mm.symrgtbl rgid ⟨ulong (-1), ulong (-1)⟩)
    (addr : Int) : t.mm.cover addr = s.mm.cover addr := by
  have hSet := cover_set hRgid hTbl addr
  have hCleared : coverCount [⟨ulong (-1), ulong (-1)⟩] addr = 0 := by
    rw [coverCount_cons, if_neg (by simp only; omega), coverCount_nil]
  rw [hMmap] at hSet
  simp only [coverCount_cons, coverCount_nil] at hSet hCleared
  omega

/-- No region reaches beyond `sbrk`. -/
theorem Mm.InOrder.cover_beyond {mm : Mm} (h : mm.InOrder) {addr : Int}
    (hOut : addr < 0 ∨ mm.mmap.sbrk ≤ addr) : mm.cover addr = 0 := by
  have hLive : ∀ rg ∈ mm.liveRegions, rg.Within mm.mmap.sbrk := by
    intro rg hRg
    obtain ⟨hMem, hLive⟩ := List.mem_filter.mp hRg
    obtain ⟨rgid, hRgid, rfl⟩ := List.mem_map.mp hMem
    exact ((h.symbol rgid hRgid).resolve_left (of_decide_eq_true hLive)).1
  rw [← Mm.coverCount_regions, Mm.regions]
  have hWithin : ∀ rg ∈ mm.liveRegions ++ mm.mmap.vmFreergList, rg.Within mm.mmap.sbrk := by
    intro rg hRg
    exact (List.mem_append.mp hRg).elim (hLive rg) (h.free rg)
  exact coverCount_eq_zero hWithin hOut

/-- Setting a symbol to a region below the new `sbrk` keeps every symbol in order. -/
private theorem Mm.InOrder.symbol_set (h : s.mm.InOrder) (hTbl : t.mm.symrgtbl =
      Function.update s.mm.symrgtbl rgid newrg)
    (hSbrk : s.mm.mmap.sbrk ≤ t.mm.mmap.sbrk)
    (hNew : newrg.rgStart = newrg.rgEnd ∨
      newrg.Within t.mm.mmap.sbrk ∧ newrg.rgStart < newrg.rgEnd) :
    ∀ other ∈ symbols, (t.mm.symrgtbl other).rgStart = (t.mm.symrgtbl other).rgEnd ∨
      (t.mm.symrgtbl other).Within t.mm.mmap.sbrk ∧
        (t.mm.symrgtbl other).rgStart < (t.mm.symrgtbl other).rgEnd := by
  intro other hOther
  rw [hTbl]
  by_cases hEq : other = rgid
  · rw [hEq, Function.update_self]
    exact hNew
  · rw [Function.update_of_ne hEq]
    refine (h.symbol other hOther).imp_right fun hLive => ⟨⟨hLive.1.1, hLive.1.2.1, ?_⟩, hLive.2⟩
    exact hLive.1.2.2.trans hSbrk

theorem Mm.InOrder.alloc_step {ok : Bool} (h : s.mm.InOrder) (hRgid : rgid ∈ symbols)
    (hSize : 1 ≤ size)
    (hTo : AllocTo s rgid size ok t) : t.mm.InOrder := by
  cases hTo with
  | fit rgs taken newrg t hCarves hLast hMmap hTbl =>
      have hMem := List.mem_of_getLast? hLast
      have hWithin := hCarves.taken_within newrg hMem
      have hLength := hCarves.taken_size newrg hMem
      refine ⟨⟨?_, ?_, ?_⟩, ?_, ?_, ?_⟩
      · rw [hMmap]
        exact h.sbrk_nonneg
      · rw [hMmap]
        exact h.sbrk_le
      · rw [hMmap]
        exact hCarves.within
      · rw [hMmap]
        exact h.vmEnd_aligned
      · refine h.symbol_set hTbl (by rw [hMmap]) (Or.inr ⟨?_, by omega⟩)
        rw [hMmap]
        exact hWithin
      · intro addr
        have hCover := cover_fit hRgid hCarves hMmap hTbl addr
        have hPiece := coverCount_le_of_mem hMem addr
        have := h.cover_le addr
        omega
  | brk rgs vmEnd t hCarves hAligned hRoom hMmap hTbl =>
      have hSbrk := h.sbrk_nonneg
      refine ⟨⟨?_, ?_, ?_⟩, ?_, ?_, ?_⟩
      · rw [hMmap]
        simp only
        omega
      · rw [hMmap]
        exact hRoom
      · rw [hMmap]
        intro rg hRg
        obtain ⟨hLow, hOrder, hHigh⟩ := hCarves.within rg hRg
        exact ⟨hLow, hOrder, by simp only; omega⟩
      · rw [hMmap]
        exact hAligned.trans h.vmEnd_aligned
      · refine h.symbol_set hTbl (by rw [hMmap]; simp only; omega) (Or.inr ⟨?_, ?_⟩)
        · rw [hMmap]
          exact ⟨hSbrk, by simp only; omega, Int.le_refl _⟩
        · simp only
          omega
      · intro addr
        have hCover := cover_brk hRgid hCarves (by rw [hMmap]) hTbl addr
        have hBefore := h.cover_le addr
        simp only [coverCount_cons, coverCount_nil] at hCover
        split_ifs at hCover with hOld hNew hNew
        all_goals first | omega | skip
        -- no address beyond the old `sbrk` was covered before
        have hOut : addr < 0 ∨ s.mm.mmap.sbrk ≤ addr := by omega
        have hBeyond := h.cover_beyond hOut
        omega
  | failed rgs vmEnd t hCarves hAligned hRaised hMmap hTbl =>
      refine ⟨⟨?_, ?_, ?_⟩, ?_, ?_, ?_⟩
      · rw [hMmap]
        exact h.sbrk_nonneg
      · rw [hMmap]
        exact h.sbrk_le.trans hRaised
      · rw [hMmap]
        exact hCarves.within
      · rw [hMmap]
        exact hAligned.trans h.vmEnd_aligned
      · rw [hMmap, hTbl]
        exact h.symbol
      · intro addr
        rw [cover_failed hCarves (by rw [hMmap]) hTbl]
        exact h.cover_le addr

theorem Mm.InOrder.free_step {ok : Bool} (h : s.mm.InOrder) (hRgid : rgid ∈ symbols)
    (hTo : FreeTo s rgid ok t) : t.mm.InOrder := by
  cases hTo with
  | notLive => exact h
  | enlisted _ hLive hMmap hTbl =>
      have hRegion := (h.symbol rgid hRgid).resolve_left (by omega)
      refine ⟨⟨?_, ?_, ?_⟩, ?_, ?_, ?_⟩
      · rw [hMmap]
        exact h.sbrk_nonneg
      · rw [hMmap]
        exact h.sbrk_le
      · rw [hMmap, List.forall_mem_cons]
        exact ⟨hRegion.1, h.free⟩
      · rw [hMmap]
        exact h.vmEnd_aligned
      · exact h.symbol_set hTbl (by rw [hMmap]) (Or.inl rfl)
      · intro addr
        rw [cover_free hRgid hMmap hTbl]
        exact h.cover_le addr

end Step

/-- What a call in range can do to a process that is in order. -/
def VmTo (s : Caller) : VmCall → Bool → Caller → Prop
  | .pgalloc size regIndex, ok, t => AllocTo s regIndex size ok t
  | .pgfreeData regIndex, ok, t => FreeTo s regIndex ok t

theorem BoundedVmStep.cases {s t : Caller} {label : VmCall × Bool} (h : s.mm.InOrder)
    (hBus : s.BelowBus) (step : BoundedVmStep s label t) : VmTo s label.1 label.2 t := by
  obtain ⟨⟨⟨fuel, junk, addr, hCode⟩, hRange⟩, hBus'⟩ := step
  obtain ⟨call, ok⟩ := label
  have hIndex : ∀ rgid, 0 ≤ rgid ∧ rgid < pagingMaxSymtblSz → cint rgid = rgid := by
    intro rgid hRgid
    have hTop : pagingMaxSymtblSz = 30 := rfl
    exact cint_of_range (by omega) (by omega)
  cases call with
  | pgalloc size regIndex =>
      obtain ⟨hRgid, hSize⟩ := hRange
      simp only [VmCall.run, Outcome.code?_bind_ok, pgalloc, hIndex _ hRgid,
        cint_of_range (x := size) (by omega) (by omega)] at hCode
      exact alloc_cases h.toBounded hBus hSize hCode hBus'
  | pgfreeData regIndex =>
      simp only [VmCall.run, pgfreeData, hIndex _ hRange] at hCode
      refine free_cases hRange ?_ hCode
      rcases h.symbol regIndex (mem_symbols.mpr hRange) with hDead | hLive
      · omega
      · omega

theorem Mm.InOrder.step {s t : Caller} {label : VmCall × Bool} (h : s.mm.InOrder)
    (hBus : s.BelowBus) (step : BoundedVmStep s label t) : t.mm.InOrder := by
  have hTo := BoundedVmStep.cases h hBus step
  obtain ⟨⟨-, hRange⟩, -⟩ := step
  obtain ⟨call, ok⟩ := label
  cases call with
  | pgalloc size regIndex => exact h.alloc_step (mem_symbols.mpr hRange.1) hRange.2.1 hTo
  | pgfreeData regIndex => exact h.free_step (mem_symbols.mpr hRange) hTo

/-! Whole runs -/

theorem inOrder_initMm : (initMm .zero).InOrder := by
  refine ⟨⟨by decide, by decide, ?_⟩, by decide, fun _ _ => Or.inl rfl, ?_⟩
  · intro rg hRg
    obtain rfl : rg = initVmRg 0 0 := by simpa [initMm, FreshMm.zero, enlistVmRgNode] using hRg
    exact ⟨by decide, by decide, by decide⟩
  · intro addr
    rw [Mm.cover, coverCount_empty]
    · exact Nat.zero_le 1
    · intro rg hRg
      rcases List.mem_append.mp hRg with hSymbol | hFree
      · obtain ⟨rgid, -, rfl⟩ := List.mem_map.mp hSymbol
        rfl
      · obtain rfl : rg = initVmRg 0 0 := by
          simpa [initMm, FreshMm.zero, enlistVmRgNode] using hFree
        rfl

theorem inOrder_run {mram activeMswp : Memphy} {labels : List (VmCall × Bool)} {s : Caller}
    (run : Runs BoundedVmStep (freshCaller mram activeMswp) labels s) :
    s.mm.InOrder ∧ s.BelowBus := by
  refine run.invariant (fun s => s.mm.InOrder ∧ s.BelowBus)
    ⟨inOrder_initMm, (by decide : (0 : Int) ≤ busLimit)⟩ ?_
  rintro s label t ⟨hOrder, hBus⟩ step
  exact ⟨hOrder.step hBus step, step.2⟩

theorem Mm.InOrder.layout {mm : Mm} (h : mm.InOrder) : mm.Layout := by
  refine ⟨h.vmEnd_aligned, h.sbrk_le, h.free, ?_, ?_⟩
  · intro rg hRg
    obtain ⟨hMem, hLive⟩ := List.mem_filter.mp hRg
    obtain ⟨rgid, hRgid, rfl⟩ := List.mem_map.mp hMem
    exact (h.symbol rgid hRgid).resolve_left (of_decide_eq_true hLive)
  · apply (Cover.pairwise_disjoint_iff (Cover.Inside VmRg.rgStart VmRg.rgEnd) mm.regions).mpr
    intro addr
    exact (mm.coverCount_regions addr).trans_le (h.cover_le addr)

/-- Whatever succeeds or fails, no two regions of a process ever share an
address, and all of them lie below `sbrk`. -/
theorem layout_run {mram activeMswp : Memphy} {labels : List (VmCall × Bool)} {s : Caller}
    (run : Runs BoundedVmStep (freshCaller mram activeMswp) labels s) : s.mm.Layout :=
  (inOrder_run run).1.layout

/-- A run with a growth over two pages, a release, a reuse and a failure. -/
theorem layout_run_reuse : ∃ s, s.mm.Layout ∧
    Runs BoundedVmStep (freshCaller (initMemphy .zero 1024 1) (initMemphy .zero 4096 1))
      [(.pgalloc 300 0, true), (.pgfreeData 0, true), (.pgalloc 200 1, true),
        (.pgfreeData 0, false)] s := by
  have hEval : (exec (boundedVmStep 600 0 0)
      (freshCaller (initMemphy .zero 1024 1) (initMemphy .zero 4096 1))
      [(.pgalloc 300 0, true), (.pgfreeData 0, true), (.pgalloc 200 1, true),
        (.pgfreeData 0, false)]).isSome = true := by decide +kernel
  obtain ⟨s, hRun⟩ := Option.isSome_iff_exists.mp hEval
  have run := Runs.of_exec hRun fun _ _ _ h => boundedVmStep_step h
  exact ⟨s, layout_run run, run⟩

end Btlos
