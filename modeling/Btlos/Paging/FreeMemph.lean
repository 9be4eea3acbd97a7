import Btlos.Paging.SwapAccounting
import Mathlib.Data.List.Perm.Subperm

/-! `free_pcb_memph` of `mm-vm.c`, which is to return the frames of a process. -/
namespace Btlos

/-- The loop of `free_pcb_memph` from page `pagenum` on. The two branches stand the
wrong way round: an entry that is not present gives a frame to RAM. -/
def freeMemphLoop : Nat → Int → Caller → Caller
  | 0, _, s => s
  | n + 1, pagenum, s =>
      let pte := s.mm.pgd pagenum
      if !pagingPagePresent pte then
        let fpn := pagingFpn pte
        freeMemphLoop n (pagenum + 1) { s with mram := memphyPutFreefp s.mram fpn }
      else
        let fpn := pagingSwp pte
        freeMemphLoop n (pagenum + 1) { s with activeMswp := memphyPutFreefp s.activeMswp fpn }

def freePcbMemph (s : Caller) : Caller := freeMemphLoop pagingMaxPgn.toNat 0 s

/-- The pages of a page table. -/
def pageNumbers : List Int := formatNodes 0 pagingMaxPgn.toNat

namespace Caller

def presentPages (s : Caller) : List Int :=
  pageNumbers.filter fun pgn => pagingPagePresent (s.mm.pgd pgn)

def swappedPages (s : Caller) : List Int := pageNumbers.filter fun pgn => swappedOut (s.mm.pgd pgn)

/-- The present entries hold different RAM frames and the swapped-out ones different
swap frames, and none of these is free. `ramFrame` and `swapFrame` say which frame an
entry holds. -/
structure HoldsFrames (ramFrame swapFrame : BitVec 32 → Int) (s : Caller) : Prop where
  ram : (s.presentPages.map fun pgn => ramFrame (s.mm.pgd pgn)).Nodup
  swap : (s.swappedPages.map fun pgn => swapFrame (s.mm.pgd pgn)).Nodup
  ram_held : ∀ pgn ∈ s.presentPages, ramFrame (s.mm.pgd pgn) ∉ s.mram.freeFpList
  swap_held : ∀ pgn ∈ s.swappedPages, swapFrame (s.mm.pgd pgn) ∉ s.activeMswp.freeFpList

/-- The free lists have gained the frames of the process, each once. -/
structure ReturnsFrames (ramFrame swapFrame : BitVec 32 → Int) (s t : Caller) : Prop where
  ram : t.mram.freeFpList.Perm
    ((s.presentPages.map fun pgn => ramFrame (s.mm.pgd pgn)) ++ s.mram.freeFpList)
  swap : t.activeMswp.freeFpList.Perm
    ((s.swappedPages.map fun pgn => swapFrame (s.mm.pgd pgn)) ++ s.activeMswp.freeFpList)

end Caller

variable {s : Caller}

/-- RAM gains one frame for each entry that is not present, and swap one for each that is. -/
theorem freeMemphLoop_lists (n : Nat) (pagenum : Int) (s : Caller) :
    (freeMemphLoop n pagenum s).mram.freeFpList =
        (((formatNodes pagenum n).filter fun pgn => !pagingPagePresent (s.mm.pgd pgn)).map
          fun pgn => pagingFpn (s.mm.pgd pgn)).reverse ++ s.mram.freeFpList ∧
      (freeMemphLoop n pagenum s).activeMswp.freeFpList =
        (((formatNodes pagenum n).filter fun pgn => pagingPagePresent (s.mm.pgd pgn)).map
          fun pgn => pagingSwp (s.mm.pgd pgn)).reverse ++ s.activeMswp.freeFpList := by
  induction n generalizing pagenum s with
  | zero => exact ⟨rfl, rfl⟩
  | succ n ih =>
      rw [freeMemphLoop, formatNodes]
      cases hPresent : pagingPagePresent (s.mm.pgd pagenum) with
      | false =>
          simp only [hPresent, Bool.not_false, if_true, List.filter_cons_of_pos,
            Bool.false_eq_true, not_false_eq_true, List.filter_cons_of_neg]
          obtain ⟨hRam, hSwap⟩ := ih (pagenum + 1)
            { s with mram := memphyPutFreefp s.mram (pagingFpn (s.mm.pgd pagenum)) }
          exact ⟨hRam.trans (by simp [memphyPutFreefp]), hSwap⟩
      | true =>
          simp only [hPresent, Bool.not_true, Bool.false_eq_true, if_false, not_false_eq_true,
            List.filter_cons_of_neg, List.filter_cons_of_pos]
          obtain ⟨hRam, hSwap⟩ := ih (pagenum + 1)
            { s with activeMswp := memphyPutFreefp s.activeMswp (pagingSwp (s.mm.pgd pagenum)) }
          exact ⟨hRam, hSwap.trans (by simp [memphyPutFreefp])⟩

/-- The entries that are not present. -/
def Caller.absentPages (s : Caller) : List Int :=
  pageNumbers.filter fun pgn => !pagingPagePresent (s.mm.pgd pgn)

theorem freePcbMemph_ram (s : Caller) :
    (freePcbMemph s).mram.freeFpList =
      (s.absentPages.map fun pgn => pagingFpn (s.mm.pgd pgn)).reverse ++ s.mram.freeFpList :=
  (freeMemphLoop_lists pagingMaxPgn.toNat 0 s).1

theorem length_absentPages (s : Caller) :
    s.absentPages.length + s.presentPages.length = 16384 := by
  have hAll : pageNumbers.length = 16384 := formatNodes_length 0 pagingMaxPgn.toNat
  have hSplit := pageNumbers.length_eq_length_filter_add fun pgn =>
    pagingPagePresent (s.mm.pgd pgn)
  rw [Caller.absentPages, Caller.presentPages]
  omega

/-- `PAGING_FPN` has four values only. -/
theorem length_le_of_pagingFpn {pages : List Int}
    (h : (pages.map fun pgn => pagingFpn (s.mm.pgd pgn)).Nodup) : pages.length ≤ 4 := by
  have hSubset : (pages.map fun pgn => pagingFpn (s.mm.pgd pgn)) ⊆ [0, 1, 2, 3] := by
    intro fpn hFpn
    obtain ⟨pgn, -, rfl⟩ := List.mem_map.mp hFpn
    have hBounds := pagingFpn_bounds (s.mm.pgd pgn)
    simp only [List.mem_cons, List.not_mem_nil, or_false]
    omega
  simpa using (List.subperm_of_subset h hSubset).length_le

/-- Whatever the page table holds, and however the frame of an entry is read, the frames
of the process are not what the free lists gain. -/
theorem returnsFrames_never {ramFrame swapFrame : BitVec 32 → Int}
    (h : s.HoldsFrames ramFrame swapFrame) :
    ¬ s.ReturnsFrames ramFrame swapFrame (freePcbMemph s) := by
  intro hReturns
  have hGained : (s.absentPages.map fun pgn => pagingFpn (s.mm.pgd pgn)).Perm
      (s.presentPages.map fun pgn => ramFrame (s.mm.pgd pgn)) := by
    have hRam := hReturns.ram
    rw [freePcbMemph_ram, List.perm_append_right_iff] at hRam
    exact (List.reverse_perm _).symm.trans hRam
  have hFew : s.absentPages.length ≤ 4 := length_le_of_pagingFpn (hGained.nodup_iff.mpr h.ram)
  have hSame : s.absentPages.length = s.presentPages.length := by
    simpa using hGained.length_eq
  have hAll := length_absentPages s
  omega

/-- Page 0 in frame 1 of RAM and page 1 in frame 2 of swap. -/
private def twoPages : Caller where
  mm := { initMm .zero with
    pgd := fun pgn =>
      if pgn = 0 then pteSetFpn 0#32 1 else if pgn = 1 then pteSwappedTo 0#32 2 else 0#32 }
  mram := { initMemphy .zero 1024 1 with freeFpList := [0, 2, 3] }
  activeMswp := { initMemphy .zero 1024 1 with freeFpList := [0, 1, 3] }

private theorem twoPages_present {pgn : Int} (h : pgn ∈ twoPages.presentPages) : pgn = 0 := by
  have hPresent := (List.mem_filter.mp h).2
  simp only [twoPages] at hPresent
  split_ifs at hPresent with hZero hOne
  · exact hZero
  · simp [pteSwappedTo] at hPresent
  · simp at hPresent

private theorem twoPages_swapped {pgn : Int} (h : pgn ∈ twoPages.swappedPages) : pgn = 1 := by
  have hSwapped := (List.mem_filter.mp h).2
  simp only [twoPages] at hSwapped
  split_ifs at hSwapped with hZero hOne
  · simp at hSwapped
  · exact hOne
  · simp [swappedOut_zero] at hSwapped

/-- A list without duplicates all of whose members are the same page. -/
private theorem nodup_map_one {pages : List Int} (h : pages.Nodup) {page : Int}
    (hOne : ∀ pgn ∈ pages, pgn = page) (frame : Int → Int) : (pages.map frame).Nodup :=
  List.Nodup.map_on
    (fun pgn hPgn other hOther _ => (hOne pgn hPgn).trans (hOne other hOther).symm) h

theorem returnsFrames_two_pages : ∃ s : Caller, 0 ∈ s.presentPages ∧ 1 ∈ s.swappedPages ∧
    s.HoldsFrames pagingPteFpn pteSwapFrame ∧
      ¬ s.ReturnsFrames pagingPteFpn pteSwapFrame (freePcbMemph s) := by
  have hPages : pageNumbers.Nodup := formatNodes_nodup 0 pagingMaxPgn.toNat
  have hHolds : twoPages.HoldsFrames pagingPteFpn pteSwapFrame := by
    refine ⟨nodup_map_one (hPages.filter _) (fun _ => twoPages_present) _,
      nodup_map_one (hPages.filter _) (fun _ => twoPages_swapped) _, ?_, ?_⟩
    · intro pgn hPgn
      rw [twoPages_present hPgn]
      decide
    · intro pgn hPgn
      rw [twoPages_swapped hPgn]
      decide
  have hMem : ∀ pgn : Int, 0 ≤ pgn → pgn < 2 → pgn ∈ pageNumbers := fun pgn hLow hHigh =>
    mem_formatNodes.mpr ⟨hLow, by rw [pagingMaxPgn]; omega⟩
  exact ⟨twoPages, List.mem_filter.mpr ⟨hMem 0 (by decide) (by decide), by decide⟩,
    List.mem_filter.mpr ⟨hMem 1 (by decide) (by decide), by decide⟩, hHolds,
    returnsFrames_never hHolds⟩

/-- A process that has mapped nothing, on a RAM of four free frames: the list then has
16388 entries. -/
theorem freePcbMemph_unmapped :
    (freePcbMemph
      ⟨initMm .zero, initMemphy .zero 1024 1, initMemphy .zero 4096 1⟩).mram.freeFpList.length =
        16388 ∧
      ¬ Caller.ReturnsFrames pagingPteFpn pteSwapFrame
        ⟨initMm .zero, initMemphy .zero 1024 1, initMemphy .zero 4096 1⟩
        (freePcbMemph ⟨initMm .zero, initMemphy .zero 1024 1, initMemphy .zero 4096 1⟩) := by
  generalize hFresh :
    (⟨initMm .zero, initMemphy .zero 1024 1, initMemphy .zero 4096 1⟩ : Caller) = s
  have hNone : s.presentPages = [] := by
    rw [← hFresh, Caller.presentPages, List.filter_eq_nil_iff]
    intro pgn _
    simp [initMm, FreshMm.zero]
  have hFree : s.mram.freeFpList.length = 4 := by
    rw [← hFresh, initMemphy_freeFpList, formatNodes_length]
    decide
  have hLength : (freePcbMemph s).mram.freeFpList.length = 16388 := by
    have hAll := length_absentPages s
    rw [hNone, List.length_nil] at hAll
    rw [freePcbMemph_ram, List.length_append, List.length_reverse, List.length_map, hFree]
    omega
  refine ⟨hLength, fun hReturns => ?_⟩
  have hSame := hReturns.ram.length_eq
  rw [hLength, hNone, List.map_nil, List.nil_append, hFree] at hSame
  omega

end Btlos
