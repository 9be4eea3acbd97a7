import Btlos.Vm.Calls
import Btlos.Paging.Residents

/-! Two runs of the same calls on memory that `malloc` returned with different
contents. `init_mm` does not write the page table, the list of pages and the
head of the region list, and `MEMPHY_format` links the last frame node only
behind another one. -/
namespace Btlos

open Transition

/-- What a process and its two devices find in fresh memory. -/
structure Filling where
  mm : FreshMm
  mram : FreshMemphy
  activeMswp : FreshMemphy

/-- All memory zero-filled. -/
def Filling.zero : Filling := ⟨.zero, .zero, .zero⟩

/-- The process after `init_mm` and `init_memphy`. -/
def Filling.start (filling : Filling) (memramsz memswpsz : Int) : Caller :=
  ⟨initMm filling.mm, initMemphy filling.mram memramsz 1, initMemphy filling.activeMswp memswpsz 1⟩

/-- What two runs are compared by, besides their return codes. -/
structure SameView (s t : Caller) : Prop where
  symrgtbl : t.mm.symrgtbl = s.mm.symrgtbl
  vmFreergList : t.mm.mmap.vmFreergList = s.mm.mmap.vmFreergList
  lruPgn : t.mm.lruPgn = s.mm.lruPgn
  resident : ∀ pgn, t.Resident pgn ↔ s.Resident pgn

/-- The same cells of two frames are on a device of this size. -/
def SameReach (size fpn fpn' : Int) : Prop :=
  ∀ off, 0 ≤ off → off < 256 → (fpn * 256 + off < size ↔ fpn' * 256 + off < size)

theorem SameReach.rfl {size fpn : Int} : SameReach size fpn fpn := fun _ _ _ => Iff.rfl

/-- The two fillings of a device agree on its free frames, where the program does
not link them itself. -/
def FreshMemphy.Agrees (size : Int) (fresh fresh' : FreshMemphy) : Prop :=
  (size.tdiv pagingPagesz ≤ 0 → fresh'.freeFpList = fresh.freeFpList) ∧
    (size.tdiv pagingPagesz = 1 → fresh'.fpNext = fresh.fpNext)

/-- The condition under which two fillings make no difference: they agree on the
list of pages, the head of the region list, the present bits of the page table,
the reach of the frames of pages that are present, and the free frames of the
devices as far as the program does not set them. -/
structure Filling.Agrees (memramsz memswpsz : Int) (filling filling' : Filling) : Prop where
  vmFreergList : filling'.mm.vmFreergList = filling.mm.vmFreergList
  lruPgn : filling'.mm.lruPgn = filling.mm.lruPgn
  present : ∀ pgn, 0 ≤ pgn → pgn < pagingMaxPgn →
    pagingPagePresent (filling'.mm.pgd pgn) = pagingPagePresent (filling.mm.pgd pgn)
  reach : ∀ pgn, 0 ≤ pgn → pgn < pagingMaxPgn → pagingPagePresent (filling.mm.pgd pgn) = true →
    SameReach memramsz (pagingFpn (filling.mm.pgd pgn)) (pagingFpn (filling'.mm.pgd pgn))
  mram : filling.mram.Agrees memramsz filling'.mram
  activeMswp : filling.activeMswp.Agrees memswpsz filling'.activeMswp

/-- What the two runs have in common. The bytes in memory, and the fields of an
entry that no address is made from, need not be the same. -/
structure Alike (size : Int) (s t : Caller) : Prop where
  mmap : t.mm.mmap = s.mm.mmap
  symrgtbl : t.mm.symrgtbl = s.mm.symrgtbl
  lruPgn : t.mm.lruPgn = s.mm.lruPgn
  present : ∀ pgn, 0 ≤ pgn → pgn < pagingMaxPgn →
    pagingPagePresent (t.mm.pgd pgn) = pagingPagePresent (s.mm.pgd pgn)
  reach : ∀ pgn, 0 ≤ pgn → pgn < pagingMaxPgn → pagingPagePresent (s.mm.pgd pgn) = true →
    SameReach size (pagingFpn (s.mm.pgd pgn)) (pagingFpn (t.mm.pgd pgn))
  ramFree : t.mram.freeFpList = s.mram.freeFpList
  swapFree : t.activeMswp.freeFpList = s.activeMswp.freeFpList
  ramSize : s.mram.maxsz = size ∧ t.mram.maxsz = size
  ramRandom : s.mram.rdmflg = true ∧ t.mram.rdmflg = true
  swapRandom : s.activeMswp.rdmflg = true ∧ t.activeMswp.rdmflg = true

/-- Two frames that `PAGING_FPN` can give, with the same reach. -/
def FrameAlike (size fpn fpn' : Int) : Prop :=
  (0 ≤ fpn ∧ fpn < 4) ∧ (0 ≤ fpn' ∧ fpn' < 4) ∧ SameReach size fpn fpn'

theorem Alike.sameView {size : Int} {s t : Caller} (h : Alike size s t) : SameView s t := by
  refine ⟨h.symrgtbl, congrArg VmArea.vmFreergList h.mmap, h.lruPgn, fun pgn => ?_⟩
  unfold Caller.Resident
  constructor
  · rintro ⟨hLow, hHigh, hPresent⟩
    exact ⟨hLow, hHigh, (h.present pgn hLow hHigh).symm.trans hPresent⟩
  · rintro ⟨hLow, hHigh, hPresent⟩
    exact ⟨hLow, hHigh, (h.present pgn hLow hHigh).trans hPresent⟩

/-- A frame number below 4 is stored in an entry and read back as 0. -/
private theorem pagingFpn_stored (pte vicpte : BitVec 32) :
    pagingFpn (pteSetFpn pte (pagingFpn vicpte)) = 0 := by
  have hBounds := pagingFpn_bounds vicpte
  rw [pagingFpn_pteSetFpn]
  omega

/-! One call of each kind -/

namespace Alike

variable {size : Int} {s t : Caller} (h : Alike size s t)
include h

theorem setMmap (mmap : VmArea) : Alike size (s.setMmap mmap) (t.setMmap mmap) :=
  ⟨rfl, h.symrgtbl, h.lruPgn, h.present, h.reach, h.ramFree, h.swapFree, h.ramSize, h.ramRandom,
    h.swapRandom⟩

theorem setLru (lruPgn : PgnList) : Alike size (s.setLru lruPgn) (t.setLru lruPgn) :=
  ⟨h.mmap, h.symrgtbl, rfl, h.present, h.reach, h.ramFree, h.swapFree, h.ramSize, h.ramRandom,
    h.swapRandom⟩

theorem setRamFree (frames : List Int) :
    Alike size { s with mram := { s.mram with freeFpList := frames } }
      { t with mram := { t.mram with freeFpList := frames } } :=
  ⟨h.mmap, h.symrgtbl, h.lruPgn, h.present, h.reach, rfl, h.swapFree, h.ramSize, h.ramRandom,
    h.swapRandom⟩

theorem setSwapFree (frames : List Int) :
    Alike size { s with activeMswp := { s.activeMswp with freeFpList := frames } }
      { t with activeMswp := { t.activeMswp with freeFpList := frames } } :=
  ⟨h.mmap, h.symrgtbl, h.lruPgn, h.present, h.reach, h.ramFree, rfl, h.ramSize, h.ramRandom,
    h.swapRandom⟩

theorem devices {mram mram' mswp mswp' : Memphy} (hRam : s.mram.SameFrames mram)
    (hRam' : t.mram.SameFrames mram') (hMswp : s.activeMswp.SameFrames mswp)
    (hMswp' : t.activeMswp.SameFrames mswp') :
    Alike size { s with mram := mram, activeMswp := mswp }
      { t with mram := mram', activeMswp := mswp' } where
  mmap := h.mmap
  symrgtbl := h.symrgtbl
  lruPgn := h.lruPgn
  present := h.present
  reach := h.reach
  ramFree := hRam'.freeFpList.trans (h.ramFree.trans hRam.freeFpList.symm)
  swapFree := hMswp'.freeFpList.trans (h.swapFree.trans hMswp.freeFpList.symm)
  ramSize := ⟨hRam.maxsz.trans h.ramSize.1, hRam'.maxsz.trans h.ramSize.2⟩
  ramRandom := ⟨hRam.rdmflg.trans h.ramRandom.1, hRam'.rdmflg.trans h.ramRandom.2⟩
  swapRandom := ⟨hMswp.rdmflg.trans h.swapRandom.1, hMswp'.rdmflg.trans h.swapRandom.2⟩

/-- Whatever is copied and wherever it goes, both copies return 0. -/
theorem copyOut (junk junk' : Byte) (srcfpn srcfpn' dstfpn dstfpn' : Int) :
    (s.copyOut junk srcfpn dstfpn).Matches (fun _ _ => True) (Alike size)
      (t.copyOut junk' srcfpn' dstfpn') := by
  obtain ⟨mram, mswp, hCall, hRam, hSwap⟩ :=
    copyOut_random junk srcfpn dstfpn s h.ramRandom.1 h.swapRandom.1
  obtain ⟨mram', mswp', hCall', hRam', hSwap'⟩ :=
    copyOut_random junk' srcfpn' dstfpn' t h.ramRandom.2 h.swapRandom.2
  rw [hCall, hCall']
  exact ⟨trivial, h.devices hRam hRam' hSwap hSwap'⟩

/-- The two entries that a replacement rewrites. -/
theorem setEntries (pgn victim frame : Int) :
    Alike size
      (s.setPgd (Function.update
        (Function.update s.mm.pgd victim (pteSwappedTo (s.mm.pgd victim) frame)) pgn
        (pteSetFpn (s.mm.pgd pgn) (pagingFpn (s.mm.pgd victim)))))
      (t.setPgd (Function.update
        (Function.update t.mm.pgd victim (pteSwappedTo (t.mm.pgd victim) frame)) pgn
        (pteSetFpn (t.mm.pgd pgn) (pagingFpn (t.mm.pgd victim))))) := by
  refine ⟨h.mmap, h.symrgtbl, h.lruPgn, ?_, ?_, h.ramFree, h.swapFree, h.ramSize, h.ramRandom,
    h.swapRandom⟩
  · intro other hLow hHigh
    simp only [Caller.setPgd, Function.update_apply]
    split_ifs
    · rw [pagingPagePresent_pteSetFpn, pagingPagePresent_pteSetFpn]
    · rw [pteSwappedTo, pteSwappedTo, pagingPagePresent_pteEvicted, pagingPagePresent_pteEvicted]
    · exact h.present other hLow hHigh
  · intro other hLow hHigh hPresent
    simp only [Caller.setPgd, Function.update_apply] at hPresent ⊢
    split_ifs at hPresent ⊢
    · rw [pagingFpn_stored, pagingFpn_stored]
      exact .rfl
    · rw [pteSwappedTo, pagingPagePresent_pteEvicted] at hPresent
      cases hPresent
    · exact h.reach other hLow hHigh hPresent

theorem pgReplace (junk junk' : Byte) (pgn : Int) :
    (pgReplace junk pgn (s.mm.pgd pgn) s).Matches
      (fun pte pte' => FrameAlike size (pagingFpn pte) (pagingFpn pte')) (Alike size)
      (pgReplace junk' pgn (t.mm.pgd pgn) t) := by
  cases hLru : s.mm.lruPgn with
  | freed =>
      have hLru' := h.lruPgn.trans hLru
      simp only [Btlos.pgReplace, hLru, hLru', findVictimPage_freed, Outcome.lift_undefined,
        Outcome.bind_undefined]
      trivial
  | nodes listed =>
      have hLru' := h.lruPgn.trans hLru
      have hReturns := pgReplace_returns junk pgn (s.mm.pgd pgn) h.ramRandom.1 h.swapRandom.1 hLru
      have hReturns' := pgReplace_returns junk' pgn (t.mm.pgd pgn)
        h.ramRandom.2 h.swapRandom.2 hLru'
      rcases (pgReplace_cases junk pgn (s.mm.pgd pgn) s).resolve_left hReturns with
        ⟨hNone, hCall⟩ | ⟨pages, victim, hPages, hSome⟩
      · rcases (pgReplace_cases junk' pgn (t.mm.pgd pgn) t).resolve_left hReturns' with
          ⟨-, hCall'⟩ | ⟨pages', victim', hPages', -⟩
        · rw [hCall, hCall']
          exact h
        · simp [h.lruPgn, hNone] at hPages'
      · rcases (pgReplace_cases junk' pgn (t.mm.pgd pgn) t).resolve_left hReturns' with
          ⟨hNone', -⟩ | ⟨pages', victim', hPages', hSome'⟩
        · simp [h.lruPgn, hPages] at hNone'
        · have hSame : pages' ++ [victim'] = pages ++ [victim] :=
            PgnList.nodes.inj (hPages'.symm.trans (h.lruPgn.trans hPages))
          obtain ⟨rfl, hLast⟩ := List.append_inj' hSame rfl
          obtain rfl : victim' = victim := List.singleton_inj.mp hLast
          rcases hSome with ⟨hSwap, hCall⟩ |
            ⟨frame, rest, mram, mswp, hSwap, hRam, -, hMswp, hCall⟩
          · rcases hSome' with ⟨-, hCall'⟩ | ⟨frame', rest', _, _, hSwap', -⟩
            · rw [hCall, hCall']
              exact h.setLru _
            · simp [h.swapFree, hSwap] at hSwap'
          · rcases hSome' with ⟨hSwap', -⟩ |
              ⟨frame', rest', mram', mswp', hSwap', hRam', -, hMswp', hCall'⟩
            · simp [h.swapFree, hSwap] at hSwap'
            · obtain ⟨rfl, rfl⟩ : frame' = frame ∧ rest' = rest := by
                rw [h.swapFree, hSwap] at hSwap'
                exact ⟨(List.cons.inj hSwap').1.symm, (List.cons.inj hSwap').2.symm⟩
              rw [hCall, hCall']
              refine ⟨?_, ?_⟩
              · simp only [pagingFpn_stored]
                exact ⟨by decide, by decide, .rfl⟩
              · have hRest := h.setSwapFree rest'
                exact ((hRest.setEntries pgn victim' frame').setLru _).devices hRam hRam'
                  hMswp hMswp'

theorem pgMakePresent (junk junk' : Byte) (pgn : Int) :
    (pgMakePresent junk pgn (s.mm.pgd pgn) s).Matches
      (fun pte pte' => FrameAlike size (pagingFpn pte) (pagingFpn pte')) (Alike size)
      (pgMakePresent junk' pgn (t.mm.pgd pgn) t) := by
  rw [Btlos.pgMakePresent, Btlos.pgMakePresent, memphyGetFreefp, memphyGetFreefp, h.ramFree]
  cases s.mram.freeFpList with
  | nil => exact h.pgReplace junk junk' pgn
  | cons frame rest =>
      refine ⟨⟨pagingFpn_bounds _, pagingFpn_bounds _, ?_⟩, h.setRamFree rest⟩
      rw [pagingFpn_pteSetFpn, pagingFpn_pteSetFpn]
      exact .rfl

/-- A request for a page ends in the same way, with frames of the same reach. -/
theorem pgGetpage (junk junk' : Byte) (pgn : Int) :
    (pgGetpage junk pgn s).Matches (FrameAlike size) (Alike size) (pgGetpage junk' pgn t) := by
  rw [Btlos.pgGetpage, Btlos.pgGetpage]
  split_ifs with hBad
  · exact h
  have hPgn : 0 ≤ pgn ∧ pgn < pagingMaxPgn := by omega
  have hFirst : (if pagingPagePresent (s.mm.pgd pgn) = true then .ok (s.mm.pgd pgn) s
      else Btlos.pgMakePresent junk pgn (s.mm.pgd pgn) s).Matches
        (fun pte pte' => FrameAlike size (pagingFpn pte) (pagingFpn pte')) (Alike size)
        (if pagingPagePresent (t.mm.pgd pgn) = true then .ok (t.mm.pgd pgn) t
          else Btlos.pgMakePresent junk' pgn (t.mm.pgd pgn) t) := by
    rw [h.present pgn hPgn.1 hPgn.2]
    split_ifs with hPresent
    · exact ⟨⟨pagingFpn_bounds _, pagingFpn_bounds _, h.reach pgn hPgn.1 hPgn.2 hPresent⟩, h⟩
    · exact h.pgMakePresent junk junk' pgn
  apply hFirst.bind
  intro pte pte' middle middle' hFrames hMiddle
  have hEnlist : ((enlistPgnNode middle.mm.lruPgn pgn).lift middle.setLru).Matches
      (fun _ _ => True) (Alike size)
        ((enlistPgnNode middle'.mm.lruPgn pgn).lift middle'.setLru) := by
    rw [hMiddle.lruPgn]
    apply Outcome.Matches.lift
    exact Outcome.Matches.refl _ (fun _ => trivial) hMiddle.setLru
  apply hEnlist.bind
  exact fun _ _ last last' _ hLast => ⟨hFrames, hLast⟩

theorem setSymrg (rgid : Int) (rg : VmRg) :
    (s.setSymrg rgid rg).Matches (fun _ _ => True) (Alike size) (t.setSymrg rgid rg) := by
  rw [Caller.setSymrg, Caller.setSymrg]
  split_ifs
  · refine ⟨trivial, h.mmap, ?_, h.lruPgn, h.present, h.reach, h.ramFree, h.swapFree, h.ramSize,
      h.ramRandom, h.swapRandom⟩
    simp only [Caller.putSymrg, h.symrgtbl]
  · trivial

theorem takeBrk (curVma : VmArea) (rgid length : Int) :
    (takeBrk curVma rgid length s).Matches (fun _ _ => True) (Alike size)
      (takeBrk curVma rgid length t) := by
  have hBrk := h.setMmap { s.mm.mmap with sbrk := ulong (curVma.sbrk + length) }
  rw [Btlos.takeBrk, Btlos.takeBrk, Caller.setSbrk, Caller.setSbrk, h.mmap]
  exact hBrk.setSymrg rgid _

theorem vmapPageRange (junk junk' : Byte) (pgnum : Nat) (addr : Int) :
    (vmapPageRange junk pgnum addr s).Matches (fun _ _ => True) (Alike size)
      (vmapPageRange junk' pgnum addr t) := by
  induction pgnum generalizing addr s t with
  | zero => exact ⟨trivial, h⟩
  | succ pgnum ih =>
      apply (h.pgGetpage junk junk' (pagingPgn addr)).bind
      exact fun _ _ middle middle' _ hMiddle => ih hMiddle _

theorem incVmaLimit (junk junk' : Byte) (incSz : Int) :
    (incVmaLimit junk 0 incSz s).Matches (fun _ _ => True) (Alike size)
      (incVmaLimit junk' 0 incSz t) := by
  have hRaised := h.setMmap { s.mm.mmap with vmEnd := ulong (s.mm.mmap.vmEnd + incSz) }
  rw [incVmaLimit_zero, incVmaLimit_zero, Caller.setVmEnd, Caller.setVmEnd, h.mmap]
  exact hRaised.vmapPageRange junk junk' _ _

theorem allocAtBrk (junk junk' : Byte) (rgid length allocAddr allocAddr' : Int) :
    (allocAtBrk junk 0 rgid length allocAddr s).Matches (fun _ _ => True) (Alike size)
      (allocAtBrk junk' 0 rgid length allocAddr' t) := by
  simp only [Btlos.allocAtBrk, getVmaByNum_zero, h.mmap]
  split_ifs
  · apply (h.takeBrk _ rgid length).bind
    exact fun _ _ _ _ _ hLast => ⟨trivial, hLast⟩
  · apply (h.incVmaLimit junk junk' _).bind
    intro _ _ middle middle' _ hMiddle
    apply (hMiddle.takeBrk _ rgid length).bind
    exact fun _ _ _ _ _ hLast => ⟨trivial, hLast⟩

theorem getFreeVmrgArea (fuel : Nat) (length : Int) :
    (getFreeVmrgArea fuel 0 length s).Matches (fun rg rg' => rg' = rg) (Alike size)
      (getFreeVmrgArea fuel 0 length t) := by
  simp only [Btlos.getFreeVmrgArea, getVmaByNum_zero, h.mmap, Caller.setVmFreergList]
  split_ifs
  · exact h
  · cases firstFitLoop length fuel ⟨ulong (-1), ulong (-1)⟩ s.mm.mmap.vmFreergList with
    | none => trivial
    | some result =>
        simp only
        split_ifs
        · exact h.setMmap _
        · exact ⟨rfl, h.setMmap _⟩

theorem alloc (fuel : Nat) (junk junk' : Byte) (rgid length allocAddr allocAddr' : Int) :
    (alloc fuel junk 0 rgid length allocAddr s).Matches (fun _ _ => True) (Alike size)
      (alloc fuel junk' 0 rgid length allocAddr' t) := by
  have hSearch := h.getFreeVmrgArea fuel length
  rw [Btlos.alloc, Btlos.alloc]
  cases hCall : Btlos.getFreeVmrgArea fuel 0 length s <;>
    cases hCall' : Btlos.getFreeVmrgArea fuel 0 length t <;> rw [hCall, hCall'] at hSearch <;>
    first | exact hSearch.elim | trivial | skip
  · obtain ⟨rfl, hMiddle⟩ := hSearch
    apply (hMiddle.setSymrg rgid _).bind
    exact fun _ _ _ _ _ hLast => ⟨trivial, hLast⟩
  · exact allocAtBrk hSearch junk junk' rgid length allocAddr allocAddr'

theorem getSymrgByid (rgid : Int) :
    (getSymrgByid rgid s).Matches (fun rg rg' => rg' = rg) (Alike size) (getSymrgByid rgid t) := by
  simp only [Btlos.getSymrgByid, h.symrgtbl]
  split_ifs
  · exact h
  · trivial
  · exact h
  · exact ⟨rfl, h⟩

theorem free (rgid : Int) :
    (free 0 rgid s).Matches (fun _ _ => True) (Alike size) (free 0 rgid t) := by
  simp only [Btlos.free, getVmaByNum_zero]
  split_ifs
  · exact h
  · apply (h.getSymrgByid rgid).bind
    rintro currg _ middle middle' rfl hMiddle
    apply (hMiddle.setSymrg rgid _).bind
    intro _ _ last last' _ hLast
    rw [enlistVmFreergList, enlistVmFreergList]
    split_ifs
    · exact hLast
    · rw [Caller.setVmFreergList, Caller.setVmFreergList, hLast.mmap]
      exact ⟨trivial, hLast.setMmap _⟩

theorem accessAddr (rgid offset : Int) :
    (accessAddr 0 rgid offset s).Matches (fun addr addr' => addr' = addr) (Alike size)
      (accessAddr 0 rgid offset t) := by
  simp only [Btlos.accessAddr, getVmaByNum_zero]
  apply (h.getSymrgByid rgid).bind
  rintro currg _ middle middle' rfl hMiddle
  split_ifs
  · exact hMiddle
  · exact ⟨rfl, hMiddle⟩

/-- Two frames of the same reach have the same cells in RAM. -/
private theorem phyAddr_outside {fpn fpn' off : Int} (hFrames : FrameAlike size fpn fpn')
    (hOff : 0 ≤ off ∧ off < 256) :
    (phyAddr fpn' off < 0 ∨ phyAddr fpn' off ≥ t.mram.maxsz) ↔
      (phyAddr fpn off < 0 ∨ phyAddr fpn off ≥ s.mram.maxsz) := by
  obtain ⟨hFpn, hFpn', hReach⟩ := hFrames
  have hSame := hReach off hOff.1 hOff.2
  rw [phyAddr_eq hFpn hOff, phyAddr_eq hFpn' hOff, h.ramSize.1, h.ramSize.2]
  omega

theorem pgGetval (junk junk' : Byte) (addr : Int) :
    (pgGetval junk addr s).Matches (fun _ _ => True) (Alike size) (pgGetval junk' addr t) := by
  apply (h.pgGetpage junk junk' (pagingPgn addr)).bind
  intro fpn fpn' middle middle' hFrames hMiddle
  have hOff : 0 ≤ pagingOffst addr ∧ pagingOffst addr < 256 := by
    rw [pagingOffst_eq]
    omega
  have hOutside := hMiddle.phyAddr_outside hFrames hOff
  apply Outcome.Matches.lift
  rw [memphyRead, memphyRead, if_pos hMiddle.ramRandom.1, if_pos hMiddle.ramRandom.2]
  by_cases hOut : phyAddr fpn (pagingOffst addr) < 0 ∨
      phyAddr fpn (pagingOffst addr) ≥ middle.mram.maxsz
  · rw [if_pos hOut, if_pos (hOutside.mpr hOut)]
    exact hMiddle
  · rw [if_neg hOut, if_neg (mt hOutside.mp hOut)]
    exact ⟨trivial, hMiddle⟩

theorem pgSetval (junk junk' : Byte) (addr : Int) (value value' : Byte) :
    (pgSetval junk addr value s).Matches (fun _ _ => True) (Alike size)
      (pgSetval junk' addr value' t) := by
  apply (h.pgGetpage junk junk' (pagingPgn addr)).bind
  intro fpn fpn' middle middle' hFrames hMiddle
  have hOff : 0 ≤ pagingOffst addr ∧ pagingOffst addr < 256 := by
    rw [pagingOffst_eq]
    omega
  have hOutside := hMiddle.phyAddr_outside hFrames hOff
  apply Outcome.Matches.lift
  rw [memphyWrite, memphyWrite, if_pos hMiddle.ramRandom.1, if_pos hMiddle.ramRandom.2]
  by_cases hOut : phyAddr fpn (pagingOffst addr) < 0 ∨
      phyAddr fpn (pagingOffst addr) ≥ middle.mram.maxsz
  · rw [if_pos hOut, if_pos (hOutside.mpr hOut)]
    exact hMiddle
  · have hOut' := mt hOutside.mp hOut
    rw [if_neg hOut, if_neg hOut, if_neg hOut', if_neg hOut']
    exact ⟨trivial, hMiddle.devices ⟨rfl, rfl, rfl⟩ ⟨rfl, rfl, rfl⟩ .rfl .rfl⟩

theorem read (junk junk' : Byte) (rgid offset : Int) :
    (read junk 0 rgid offset s).Matches (fun _ _ => True) (Alike size)
      (read junk' 0 rgid offset t) := by
  apply (h.accessAddr rgid offset).bind
  rintro addr _ middle middle' rfl hMiddle
  exact hMiddle.pgGetval junk junk' _

theorem write (junk junk' : Byte) (rgid offset : Int) (value value' : Byte) :
    (write junk 0 rgid offset value s).Matches (fun _ _ => True) (Alike size)
      (write junk' 0 rgid offset value' t) := by
  apply (h.accessAddr rgid offset).bind
  rintro addr _ middle middle' rfl hMiddle
  exact hMiddle.pgSetval junk junk' _ value value'

theorem pgwrite (junk junk' data data' : Byte) (destination offset : Int) :
    (pgwrite junk data destination offset s).Matches (fun _ _ => True) (Alike size)
      (pgwrite junk' data' destination offset t) :=
  h.write junk junk' _ _ data data'

theorem pgread (junk junk' data data' : Byte) (source offset destination : Int) :
    (pgread junk data source offset destination s).Matches (fun _ _ => True) (Alike size)
      (pgread junk' data' source offset destination t) := by
  have hRead := h.read junk junk' (cint source) (cint offset)
  rw [Btlos.pgread, Btlos.pgread]
  cases hCall : Btlos.read junk 0 (cint source) (cint offset) s <;>
    cases hCall' : Btlos.read junk' 0 (cint source) (cint offset) t <;>
    rw [hCall, hCall'] at hRead <;> first | exact hRead.elim | trivial | skip
  · exact (hRead.2.pgwrite junk junk' _ _ destination 0).ignoreCode trivial
  · have hWrite := Alike.pgwrite hRead junk junk' data data' destination 0
    apply (hWrite.ignoreCode trivial).bind
    exact fun _ _ _ _ _ hLast => hLast

/-- Every memory call ends in the same way, if it may take the same rounds. -/
theorem run (call : MemCall) {u v : Uninit} (hFuel : v.fuel = u.fuel) :
    (call.run u s).Matches (fun _ _ => True) (Alike size) (call.run v t) := by
  cases call with
  | pgalloc length regIndex =>
      have hAlloc := h.alloc u.fuel u.junk v.junk (cint regIndex) (cint length) u.addr v.addr
      rw [← hFuel] at hAlloc
      simp only [MemCall.run, pgalloc, ← hFuel]
      apply hAlloc.bind
      exact fun _ _ _ _ _ hLast => ⟨trivial, hLast⟩
  | pgfreeData regIndex => exact h.free (cint regIndex)
  | pgread source offset destination =>
      exact h.pgread u.junk v.junk u.data v.data source offset destination
  | pgwrite data destination offset =>
      exact h.pgwrite u.junk v.junk data data destination offset

end Alike

/-! The number of rounds -/

/-- A call that returns ends in the same way when it may take more rounds. -/
theorem MemCall.run_add {u : Uninit} {call : MemCall} {s : Caller} (h : call.run u s ≠ .undefined)
    (more : Nat) : call.run { u with fuel := u.fuel + more } s = call.run u s := by
  cases call with
  | pgalloc length regIndex =>
      have hSearch : getFreeVmrgArea u.fuel 0 (cint length) s ≠ .undefined := by
        intro hUndefined
        simp [MemCall.run, Btlos.pgalloc, alloc, hUndefined] at h
      simp only [MemCall.run, Btlos.pgalloc, alloc, getFreeVmrgArea_add hSearch more]
  | pgfreeData | pgread | pgwrite => rfl

/-! Whole runs -/

section Run

variable {size : Int} {s t s' t' : Caller}

theorem Alike.step (h : Alike size s t) {label : MemCall × Bool} (step : MemStep s label s') :
    ∃ t', MemStep t label t' ∧ Alike size s' t' := by
  obtain ⟨u, hCode⟩ := step
  obtain ⟨t', hCode', hAlike⟩ := (h.run label.1 (v := u) rfl).code? hCode
  exact ⟨t', ⟨u, hCode'⟩, hAlike⟩

/-- Whatever uninitialised variables hold, the same call has one return code. -/
theorem Alike.step_unique (h : Alike size s t) {call : MemCall} {ok ok' : Bool}
    (step : MemStep s (call, ok) s') (step' : MemStep t (call, ok') t') :
    ok' = ok ∧ Alike size s' t' := by
  obtain ⟨u, hCode⟩ := step
  obtain ⟨u', hCode'⟩ := step'
  have hReturns : call.run u s ≠ .undefined := by
    intro hUndefined
    simp [hUndefined] at hCode
  have hReturns' : call.run u' t ≠ .undefined := by
    intro hUndefined
    simp [hUndefined] at hCode'
  have hMatches := h.run call (u := { u with fuel := u.fuel + u'.fuel })
    (v := { u' with fuel := u'.fuel + u.fuel }) (Nat.add_comm _ _)
  rw [MemCall.run_add hReturns, MemCall.run_add hReturns'] at hMatches
  obtain ⟨t'', hCode'', hAlike⟩ := hMatches.code? hCode
  obtain ⟨rfl, rfl⟩ : ok = ok' ∧ t'' = t' := by simpa using hCode''.symm.trans hCode'
  exact ⟨rfl, hAlike⟩

theorem Alike.runs (h : Alike size s t) {labels : List (MemCall × Bool)}
    (run : Runs MemStep s labels s') : ∃ t', Runs MemStep t labels t' ∧ Alike size s' t' :=
  run.simulate (Alike size) h fun _ _ _ _ hAlike step => hAlike.step step

theorem Alike.runs_unique (h : Alike size s t) {labels labels' : List (MemCall × Bool)}
    (run : Runs MemStep s labels s') (run' : Runs MemStep t labels' t')
    (hCalls : labels'.map Prod.fst = labels.map Prod.fst) :
    labels' = labels ∧ Alike size s' t' := by
  induction run generalizing labels' t' with
  | nil =>
      obtain rfl := List.map_eq_nil_iff.mp hCalls
      obtain rfl := run'.eq_of_nil
      exact ⟨rfl, h⟩
  | @snoc _ label _ _ prior last ih =>
      cases run' with
      | nil => simp at hCalls
      | @snoc _ label' _ _ prior' last' =>
          rw [List.map_append, List.map_append] at hCalls
          obtain ⟨hPrior, hLast⟩ := List.append_inj' hCalls rfl
          obtain ⟨rfl, hMiddle⟩ := ih prior' hPrior
          obtain ⟨call, ok⟩ := label
          obtain ⟨call', ok'⟩ := label'
          obtain rfl : call' = call := List.singleton_inj.mp hLast
          obtain ⟨rfl, hAlike⟩ := hMiddle.step_unique last last'
          exact ⟨rfl, hAlike⟩

end Run

/-- Fillings that agree on the free frames lead to the same ones. -/
private theorem initMemphy_agrees {size : Int} {fresh fresh' : FreshMemphy}
    (h : fresh.Agrees size fresh') :
    (initMemphy fresh' size 1).freeFpList = (initMemphy fresh size 1).freeFpList := by
  obtain ⟨hNone, hOne⟩ := h
  simp only [initMemphy, memphyFormat]
  by_cases hFrames : size.tdiv pagingPagesz ≤ 0
  · simp [hFrames, hNone hFrames]
  · cases hCount : (size.tdiv pagingPagesz - 1).toNat with
    | zero => simp [hFrames, hOne (by omega)]
    | succ n => simp [hFrames]

theorem Filling.Agrees.alike {memramsz memswpsz : Int} {filling filling' : Filling}
    (h : filling.Agrees memramsz memswpsz filling') :
    Alike memramsz (filling.start memramsz memswpsz) (filling'.start memramsz memswpsz) where
  mmap := by simp only [Filling.start, initMm, h.vmFreergList]
  symrgtbl := rfl
  lruPgn := h.lruPgn
  present := h.present
  reach := h.reach
  ramFree := initMemphy_agrees h.mram
  swapFree := initMemphy_agrees h.activeMswp
  ramSize := ⟨initMemphy_maxsz _ _ _, initMemphy_maxsz _ _ _⟩
  ramRandom := ⟨initMemphy_rdmflg _ _ _, initMemphy_rdmflg _ _ _⟩
  swapRandom := ⟨initMemphy_rdmflg _ _ _, initMemphy_rdmflg _ _ _⟩

/-- On two fillings that agree where the program reads what it has not written,
every sequence of calls returns the same codes and leaves the same symbols, free
regions, list of pages and present pages. Each run on the first filling is
matched by one on the second, and no run on the second is any different. -/
theorem fresh_independent {memramsz memswpsz : Int} {filling filling' : Filling}
    (h : filling.Agrees memramsz memswpsz filling') {labels : List (MemCall × Bool)} {s : Caller}
    (run : Runs MemStep (filling.start memramsz memswpsz) labels s) :
    (∃ t, Runs MemStep (filling'.start memramsz memswpsz) labels t) ∧
      ∀ labels' t, Runs MemStep (filling'.start memramsz memswpsz) labels' t →
        labels'.map Prod.fst = labels.map Prod.fst → labels' = labels ∧ SameView s t := by
  constructor
  · obtain ⟨t, run', -⟩ := h.alike.runs run
    exact ⟨t, run'⟩
  · intro labels' t run' hCalls
    obtain ⟨hLabels, hAlike⟩ := h.alike.runs_unique run run' hCalls
    exact ⟨hLabels, hAlike.sameView⟩

/-- Memory in which every byte of RAM, of the entries of pages that are not
present, and every link behind a second frame is set. -/
def Filling.noise : Filling :=
  ⟨{ FreshMm.zero with pgd := fun _ => 0x7fffffff#32 }, ⟨fun _ => 0xff#8, 9, [7], [7]⟩,
    ⟨fun _ => 0xff#8, 9, [7], [7]⟩⟩

/-- Two runs of an allocation, a write and a read. -/
theorem fresh_independent_noise : ∃ s t,
    Runs MemStep (Filling.zero.start 1024 4096)
      [(.pgalloc 100 0, true), (.pgwrite 7 0 0, true), (.pgread 0 0 1, true)] s ∧
    Runs MemStep (Filling.noise.start 1024 4096)
      [(.pgalloc 100 0, true), (.pgwrite 7 0 0, true), (.pgread 0 0 1, true)] t ∧
    SameView s t := by
  have hAgrees : Filling.zero.Agrees 1024 4096 Filling.noise := by
    have hPresent : ∀ pgn, pagingPagePresent (Filling.zero.mm.pgd pgn) = false :=
      fun _ => pagingPagePresent_zero
    refine ⟨rfl, rfl, fun pgn _ _ => ?_, fun pgn _ _ hThere => ?_, ⟨?_, ?_⟩, ⟨?_, ?_⟩⟩
    · rw [hPresent]
      exact (by decide : pagingPagePresent 0x7fffffff#32 = false)
    · rw [hPresent] at hThere
      cases hThere
    all_goals decide
  have hEval : (exec (memStep ⟨2, 0, 0, 0⟩) (Filling.zero.start 1024 4096)
      [(.pgalloc 100 0, true), (.pgwrite 7 0 0, true), (.pgread 0 0 1, true)]).isSome = true := by
    decide +kernel
  obtain ⟨s, hRun⟩ := Option.isSome_iff_exists.mp hEval
  have run := Runs.of_exec hRun fun _ _ _ h => memStep_step h
  obtain ⟨⟨t, run'⟩, hSame⟩ := fresh_independent hAgrees run
  exact ⟨s, t, run, run', (hSame _ t run' rfl).2⟩

/-- On 512 bytes of RAM a page table that is not zero makes a write fail. -/
theorem fresh_pgd_fails_write :
    let filling : Filling := { Filling.zero with
      mm := { FreshMm.zero with pgd := fun _ => 0x80000300#32 } }
    ∃ s t,
      Runs MemStep (Filling.zero.start 512 4096)
        [(.pgalloc 100 0, true), (.pgwrite 7 0 0, true)] s ∧
      Runs MemStep (filling.start 512 4096)
        [(.pgalloc 100 0, true), (.pgwrite 7 0 0, false)] t := by
  intro filling
  have hEval : (exec (memStep ⟨2, 0, 0, 0⟩) (Filling.zero.start 512 4096)
      [(.pgalloc 100 0, true), (.pgwrite 7 0 0, true)]).isSome = true := by decide +kernel
  have hEval' : (exec (memStep ⟨2, 0, 0, 0⟩) (filling.start 512 4096)
      [(.pgalloc 100 0, true), (.pgwrite 7 0 0, false)]).isSome = true := by decide +kernel
  obtain ⟨s, hRun⟩ := Option.isSome_iff_exists.mp hEval
  obtain ⟨t, hRun'⟩ := Option.isSome_iff_exists.mp hEval'
  exact ⟨s, t, Runs.of_exec hRun fun _ _ _ h => memStep_step h,
    Runs.of_exec hRun' fun _ _ _ h => memStep_step h⟩

end Btlos
