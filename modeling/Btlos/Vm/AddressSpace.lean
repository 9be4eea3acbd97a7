import Btlos.Vm.Layout

/-! Whether every byte of the address space below `sbrk` is in a region. Two
things lose bytes: a search that carves off several pieces and hands out one of
them, and an allocation for a symbol that is live. -/
namespace Btlos

open Transition

/-- The regions of a process make up the addresses below `sbrk`. -/
structure Mm.Tiles (mm : Mm) : Prop where
  length : (mm.regions.map fun rg => rg.rgEnd - rg.rgStart).sum = mm.mmap.sbrk
  cover : ∀ addr, coverCount mm.regions addr = if 0 ≤ addr ∧ addr < mm.mmap.sbrk then 1 else 0

def Caller.Tiles (s : Caller) : Prop := s.mm.Tiles

/-- The condition under which a call loses no address space: an allocation that
succeeds is for a symbol that is not live, and at most one piece of its size can
be carved off the free list. -/
def KeepsSpace (s : Caller) : VmCall × Bool → Prop
  | (.pgalloc size regIndex, true) =>
      ¬ (s.mm.symrgtbl regIndex).Live ∧ (s.mm.mmap.vmFreergList.map (VmRg.pieces size)).sum ≤ 1
  | _ => True

/-- Covering each address below `sbrk` once is the whole of the property. -/
theorem Mm.InOrder.tiles_iff {mm : Mm} (h : mm.InOrder) :
    mm.Tiles ↔ ∀ addr, 0 ≤ addr → addr < mm.mmap.sbrk → mm.cover addr = 1 := by
  constructor
  · intro hTiles addr hLow hHigh
    rw [← mm.coverCount_regions, hTiles.cover, if_pos ⟨hLow, hHigh⟩]
  · intro hExact
    have hWithin : ∀ rg ∈ mm.regions, rg.Within mm.mmap.sbrk := by
      intro rg hRg
      exact (List.mem_append.mp hRg).elim (fun hLive => (h.layout.live rg hLive).1) (h.free rg)
    refine ⟨?_, fun addr => ?_⟩
    · refine Cover.sum_length_of_exact VmRg.rgStart VmRg.rgEnd mm.regions mm.mmap.sbrk
        h.sbrk_nonneg hWithin fun addr hLow hHigh => ?_
      exact (mm.coverCount_regions addr).trans (hExact addr hLow hHigh)
    · rw [mm.coverCount_regions]
      split_ifs with hIn
      · exact hExact addr hIn.1 hIn.2
      · exact h.cover_beyond (by omega)

section Step

variable {s t : Caller} {rgid size : Int}

private theorem coverCount_singleton (rg : VmRg) (addr : Int) :
    coverCount [rg] addr = if rg.rgStart ≤ addr ∧ addr < rg.rgEnd then 1 else 0 := by
  rw [coverCount_cons, coverCount_nil, Nat.add_zero]

/-- A region with an address makes the cover of that address positive. -/
private theorem coverCount_start {rg : VmRg} (h : rg.rgStart < rg.rgEnd) :
    coverCount [rg] rg.rgStart = 1 := by
  rw [coverCount_singleton, if_pos ⟨Int.le_refl _, h⟩]

private theorem coverCount_dead {rg : VmRg} (h : ¬ rg.Live) (addr : Int) :
    coverCount [rg] addr = 0 := by
  have hEq : rg.rgStart = rg.rgEnd := not_not.mp h
  rw [coverCount_singleton, if_neg (by omega)]

/-- When every address is covered, a region whose addresses are covered by
nothing else can only be empty if it is left out of the cover. -/
private theorem empty_of_left_out {mm : Mm} {rg : VmRg} {limit : Int} (hWithin : rg.Within limit)
    (hLimit : limit ≤ mm.mmap.sbrk)
    (hAlone : ∀ addr, 0 ≤ addr → addr < limit → mm.cover addr + coverCount [rg] addr ≤ 1)
    (hCovered : ∀ addr, 0 ≤ addr → addr < mm.mmap.sbrk → mm.cover addr = 1) :
    ¬ rg.rgStart < rg.rgEnd := by
  intro hSome
  obtain ⟨hLow, -, hHigh⟩ := hWithin
  have hOne := coverCount_start hSome
  have hBoth := hAlone rg.rgStart hLow (by omega)
  have hCover := hCovered rg.rgStart hLow (by omega)
  omega

/-- An allocation keeps the address space whole exactly when it meets the condition. -/
theorem Mm.InOrder.tiles_alloc {ok : Bool} (h : s.mm.InOrder) (h' : t.mm.InOrder)
    (hRgid : rgid ∈ symbols) (hSize : 1 ≤ size) (hTo : AllocTo s rgid size ok t)
    (hTiles : s.mm.Tiles) : t.mm.Tiles ↔ KeepsSpace s (.pgalloc size rgid, ok) := by
  rw [h.tiles_iff] at hTiles
  rw [h'.tiles_iff]
  have hSymbol := h.symbol rgid hRgid
  cases hTo with
  | fit rgs taken newrg t hCarves hLast hMmap hTbl =>
      have hCover := cover_fit hRgid hCarves hMmap hTbl
      obtain ⟨pieces, rfl⟩ := List.getLast?_eq_some_iff.mp hLast
      have hSame : t.mm.mmap.sbrk = s.mm.mmap.sbrk := by rw [hMmap]
      have hSbrk := hSame.ge
      simp only [coverCount_append] at hCover
      rw [KeepsSpace, ← hCarves.number, List.length_append, List.length_singleton]
      constructor
      · intro hAfter
        constructor
        · -- the bytes of the old region are in no region any more
          intro hLive
          obtain ⟨hWithin, hSome⟩ := hSymbol.resolve_left hLive
          refine empty_of_left_out hWithin hSbrk ?_ hAfter hSome
          intro addr hLow hHigh
          have := hCover addr
          have := hTiles addr hLow hHigh
          omega
        · cases pieces with
          | nil => exact Nat.le_refl 1
          | cons piece others =>
              -- nor are the bytes of a piece that was not handed out
              exfalso
              have hLength := hCarves.taken_size piece (by simp)
              have hWithin := hCarves.taken_within piece (by simp)
              refine empty_of_left_out hWithin hSbrk ?_ hAfter (by omega)
              intro addr hLow hHigh
              have hMem : piece ∈ piece :: others := List.mem_cons_self
              have hPiece := coverCount_le_of_mem hMem addr
              have := hCover addr
              have := hTiles addr hLow hHigh
              omega
      · rintro ⟨hDead, hCount⟩ addr hLow hHigh
        obtain rfl : pieces = [] := List.length_eq_zero_iff.mp (by omega)
        have := hCover addr
        have := coverCount_dead hDead addr
        have := coverCount_nil addr
        have := hTiles addr hLow (by omega)
        omega
  | brk rgs vmEnd t hCarves hAligned hRoom hMmap hTbl =>
      have hCover := cover_brk hRgid hCarves (by rw [hMmap]) hTbl
      have hNew := coverCount_singleton ⟨s.mm.mmap.sbrk, s.mm.mmap.sbrk + size⟩
      have hNone : (s.mm.mmap.vmFreergList.map (VmRg.pieces size)).sum = 0 := hCarves.number.symm
      have hGrown : t.mm.mmap.sbrk = s.mm.mmap.sbrk + size := by rw [hMmap]
      have hSbrk : s.mm.mmap.sbrk ≤ t.mm.mmap.sbrk := by omega
      rw [KeepsSpace, hNone]
      simp only at hNew
      constructor
      · intro hAfter
        refine ⟨fun hLive => ?_, Nat.zero_le 1⟩
        obtain ⟨hWithin, hSome⟩ := hSymbol.resolve_left hLive
        refine empty_of_left_out hWithin hSbrk ?_ hAfter hSome
        intro addr hLow hHigh
        have hOutside := hNew addr
        rw [if_neg (by omega)] at hOutside
        have := hCover addr
        have := hTiles addr hLow hHigh
        omega
      · rintro ⟨hDead, -⟩ addr hLow hHigh
        have := hCover addr
        have := coverCount_dead hDead addr
        have hAdded := hNew addr
        by_cases hOld : addr < s.mm.mmap.sbrk
        · have := hTiles addr hLow hOld
          rw [if_neg (by omega)] at hAdded
          omega
        · have := h.cover_beyond (Or.inr (not_lt.mp hOld))
          rw [if_pos (by omega)] at hAdded
          omega
  | failed rgs vmEnd t hCarves hAligned hRaised hMmap hTbl =>
      refine iff_of_true (fun addr hLow hHigh => ?_) trivial
      rw [cover_failed hCarves (by rw [hMmap]) hTbl]
      rw [hMmap] at hHigh
      exact hTiles addr hLow hHigh

/-- A release keeps the address space whole. -/
theorem Mm.InOrder.tiles_free {ok : Bool} (h : s.mm.InOrder) (h' : t.mm.InOrder)
    (hRgid : rgid ∈ symbols) (hTo : FreeTo s rgid ok t) (hTiles : s.mm.Tiles) : t.mm.Tiles := by
  cases hTo with
  | notLive => exact hTiles
  | enlisted _ hLive hMmap hTbl =>
      rw [h.tiles_iff] at hTiles
      rw [h'.tiles_iff]
      intro addr hLow hHigh
      rw [cover_free hRgid hMmap hTbl]
      rw [hMmap] at hHigh
      exact hTiles addr hLow hHigh

end Step

theorem tiles_initMm : (initMm .zero).Tiles := by
  rw [inOrder_initMm.tiles_iff]
  intro addr hLow hHigh
  have hSbrk : (initMm .zero).mmap.sbrk = 0 := rfl
  omega

/-- One call keeps the address space whole exactly when it meets the condition. -/
theorem tiles_step_iff {s t : Caller} {label : VmCall × Bool} (h : s.mm.InOrder)
    (hBus : s.BelowBus) (hTiles : s.Tiles) (step : BoundedVmStep s label t) :
    t.Tiles ↔ KeepsSpace s label := by
  have hTo := step.cases h hBus
  have h' := h.step hBus step
  obtain ⟨⟨-, hRange⟩, -⟩ := step
  obtain ⟨call, ok⟩ := label
  cases call with
  | pgalloc size regIndex =>
      exact h.tiles_alloc h' (mem_symbols.mpr hRange.1) hRange.2.1 hTo hTiles
  | pgfreeData regIndex =>
      exact iff_of_true (h.tiles_free h' (mem_symbols.mpr hRange) hTo hTiles) trivial

/-- In a run, the regions make up the addresses below `sbrk` after every call
exactly when every allocation that succeeds meets the condition. -/
theorem tiles_iff_keepsSpace (mram activeMswp : Memphy) (labels : List (VmCall × Bool))
    (s : Caller) :
    Runs (Keeping BoundedVmStep Caller.Tiles) (freshCaller mram activeMswp) labels s ↔
      Runs (Guarded BoundedVmStep KeepsSpace) (freshCaller mram activeMswp) labels s := by
  refine Runs.keeping_iff_guarded (fun s => s.mm.InOrder ∧ s.BelowBus) tiles_initMm
    ⟨inOrder_initMm, (by decide : (0 : Int) ≤ busLimit)⟩ ?_ ?_
  · rintro s label t ⟨hOrder, hBus⟩ _ step _
    exact ⟨hOrder.step hBus step, step.2⟩
  · rintro s label t ⟨hOrder, hBus⟩ hTiles step
    exact tiles_step_iff hOrder hBus hTiles step

/-- Two pieces of 100 bytes are carved off a region of 200 bytes and one is
handed out: the other is in no region. -/
theorem addressSpace_lost : ∃ s,
    Runs BoundedVmStep (freshCaller (initMemphy .zero 1024 1) (initMemphy .zero 4096 1))
      [(.pgalloc 200 0, true), (.pgfreeData 0, true), (.pgalloc 100 1, true)] s ∧
        ¬ s.Tiles := by
  have hEval : (exec (boundedVmStep 600 0 0)
      (freshCaller (initMemphy .zero 1024 1) (initMemphy .zero 4096 1))
      [(.pgalloc 200 0, true), (.pgfreeData 0, true), (.pgalloc 100 1, true)]).any
      (fun s => s.mm.mmap.sbrk = 200 ∧ coverCount s.mm.regions 0 = 0) = true := by decide +kernel
  obtain ⟨s, hRun, hLost⟩ := (Option.any_eq_true _ _).mp hEval
  obtain ⟨hSbrk, hCount⟩ := of_decide_eq_true hLost
  refine ⟨s, Runs.of_exec hRun fun _ _ _ h => boundedVmStep_step h, fun hTiles => ?_⟩
  have hOne := hTiles.cover 0
  rw [if_pos (by omega), hCount] at hOne
  exact absurd hOne (by decide)

end Btlos
