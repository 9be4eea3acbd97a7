import Btlos.Vm.Discipline
import Btlos.Vm.Sharing

/-! Which bytes an access through a symbol can reach. The check in front of every
access compares unsigned sums with the bounds of the region, and it admits the
address at the end. An address inside the region may still be in the same cell of
RAM as one of another region. -/
namespace Btlos

open Transition

def VmRg.Contains (rg : VmRg) (addr : Int) : Prop := rg.rgStart ≤ addr ∧ addr < rg.rgEnd

/-- The offset is one of a byte of the region. -/
def VmRg.Inside (rg : VmRg) (offset : Int) : Prop := 0 ≤ offset ∧ offset < rg.rgEnd - rg.rgStart

/-- Reads and writes at this offset go on to a page only inside the region of the
symbol, and otherwise fail at once. -/
structure StaysInside (s : Caller) (rgid offset : Int) : Prop where
  admitted : ∀ addr t, accessAddr 0 rgid offset s = .ok addr t →
    (s.mm.symrgtbl rgid).Inside offset
  read : ¬ (s.mm.symrgtbl rgid).Inside offset → ∀ junk, read junk 0 rgid offset s = .fail s
  write : ¬ (s.mm.symrgtbl rgid).Inside offset →
    ∀ junk value, write junk 0 rgid offset value s = .fail s

/-- The address of an access that goes on to a page is in the region of no other live
symbol, and not beyond the end of the area. -/
def KeepsApart (s : Caller) (rgid offset : Int) : Prop :=
  ∀ addr t, accessAddr 0 rgid offset s = .ok addr t →
    (∀ other ∈ symbols, other ≠ rgid → (s.mm.symrgtbl other).Live →
      ¬ (s.mm.symrgtbl other).Contains addr) ∧ 0 ≤ addr ∧ addr < s.mm.mmap.vmEnd

/-- The condition under which the check does what it is for: the offset is not
the size of the region, and if it is negative, it does not take the unsigned sum
around to an address that the region reaches. -/
def ChecksBounds (rg : VmRg) (offset : Int) : Prop :=
  (offset < 0 ∨ offset ≠ rg.rgEnd - rg.rgStart) ∧
    (0 ≤ rg.rgStart + offset ∨ rg.rgEnd < rg.rgStart + offset + 18446744073709551616)

/-- The check lets the offset pass. -/
def VmRg.Admits (rg : VmRg) (offset : Int) : Prop :=
  ¬ (ulong (rg.rgStart + offset) < rg.rgStart ∨ ulong (rg.rgStart + offset) > rg.rgEnd)

/-- The address is in the region of another live symbol. -/
def Caller.Foreign (s : Caller) (rgid addr : Int) : Prop :=
  ∃ other ∈ symbols, other ≠ rgid ∧ (s.mm.symrgtbl other).Live ∧
    (s.mm.symrgtbl other).Contains addr

/-- An access goes to no cell with a byte of another live symbol, and when it has
returned, such a byte is what it was. -/
structure KeepsBytes (s : Caller) (rgid offset : Int) : Prop where
  apart : ∀ junk phy t, accessPhy junk rgid offset s = .ok phy t → s.mram.Has phy →
    ∀ addr, s.Foreign rgid addr → phy ≠ s.cellOf addr
  read : ∀ junk, (read junk 0 rgid offset s).Ends fun t =>
    ∀ addr, s.Foreign rgid addr → t.byteOf addr = s.byteOf addr
  write : ∀ junk value, (write junk 0 rgid offset value s).Ends fun t =>
    ∀ addr, s.Foreign rgid addr → t.byteOf addr = s.byteOf addr

/-- Two addresses with different offsets in their pages, or in different frames before
and after the first page is brought in. If that gives the second page another frame,
the same byte is there. -/
structure Caller.Spares (s : Caller) (addr other : Int) : Prop where
  apart : s.mram.Has (s.cellOf addr) → addr % 256 = other % 256 →
    s.frameOf (pagingPgn addr) ≠ s.frameOf (pagingPgn other) ∧
      s.frameOf (pagingPgn addr) ≠ s.frameAfter (pagingPgn addr) (pagingPgn other)
  kept : s.frameAfter (pagingPgn addr) (pagingPgn other) ≠ s.frameOf (pagingPgn other) →
    s.mram.byte? (s.cellAfter (pagingPgn addr) other) = s.byteOf other

/-- The condition under which an access keeps to the bytes of its symbol: if it passes
the check and a frame can be had for its page, it spares those of the others. -/
def SharesNoByte (s : Caller) (rgid offset : Int) : Prop :=
  let rg := s.mm.symrgtbl rgid
  let addr := cint (rg.rgStart + offset)
  rg.Admits offset → s.GetsPage (pagingPgn addr) →
    ∀ other, s.Foreign rgid other → s.Spares addr other

/-! The bounds of regions are 64-bit words in every run -/

structure Caller.Words (s : Caller) : Prop where
  symbol : ∀ rgid, (s.mm.symrgtbl rgid).IsWord
  free : ∀ rg ∈ s.mm.mmap.vmFreergList, rg.IsWord

section Words

variable {s t : Caller}

theorem Caller.Words.sameVm (h : s.Words) (hSame : s.SameVm t) : t.Words := by
  obtain ⟨hMmap, hTbl⟩ := hSame
  constructor
  · rw [hTbl]
    exact h.symbol
  · rw [hMmap]
    exact h.free

theorem Caller.Words.setVmFreergList (h : s.Words) {rgs : List VmRg}
    (hRgs : ∀ rg ∈ rgs, rg.IsWord) : (s.setVmFreergList rgs).Words :=
  ⟨h.symbol, hRgs⟩

theorem Caller.Words.putSymrg (h : s.Words) (rgid : Int) {rg : VmRg} (hRg : rg.IsWord) :
    (s.putSymrg rgid rg).Words := by
  refine ⟨fun other => ?_, h.free⟩
  simp only [Caller.putSymrg, Function.update_apply]
  split_ifs
  · exact hRg
  · exact h.symbol other

theorem Caller.Words.takenAtBrk (h : s.Words) (rgid size sbrk : Int) :
    (s.takenAtBrk rgid size sbrk).Words := by
  have hBrk : (s.setSbrk (ulong (sbrk + size))).Words := ⟨h.symbol, h.free⟩
  exact hBrk.putSymrg rgid (isWord_ulong _ _)

theorem Caller.Words.brk {rgid size allocAddr : Int} {call : Outcome Caller Int} (h : s.Words)
    (hEnd : BrkEnd s rgid size allocAddr call) : call.Ends Caller.Words := by
  have hRaised : (s.setVmEnd (brkRaised s size)).Words := ⟨h.symbol, h.free⟩
  cases hEnd with
  | undefined => trivial
  | gap => exact h.takenAtBrk rgid size _
  | grown t _ _ hSame => exact (hRaised.sameVm hSame).takenAtBrk rgid size _
  | refused t _ hSame => exact hRaised.sameVm hSame

theorem Caller.Words.alloc (h : s.Words) (fuel : Nat) (junk : Byte) (rgid size allocAddr : Int) :
    (alloc fuel junk 0 rgid size allocAddr s).Ends Caller.Words := by
  have hEnd := alloc_ends fuel junk rgid size allocAddr s
  generalize Btlos.alloc fuel junk 0 rgid size allocAddr s = call at hEnd ⊢
  cases hEnd with
  | undefined => trivial
  | found newrg rgs hSearch =>
      obtain ⟨hNew, hRgs⟩ := hSearch.words (isWord_ulong _ _) h.free
      exact (h.setVmFreergList hRgs).putSymrg rgid hNew
  | missed newrg rgs _ hSearch _ hBrk =>
      obtain ⟨-, hRgs⟩ := hSearch.words (isWord_ulong _ _) h.free
      exact (h.setVmFreergList hRgs).brk hBrk

theorem Caller.Words.release (h : s.Words) (rgid : Int) :
    (Btlos.free 0 rgid s).Ends Caller.Words := by
  have hCleared := h.putSymrg rgid (isWord_ulong (-1) (-1))
  apply free_rule h hCleared
  exact hCleared.setVmFreergList (List.forall_mem_cons.mpr ⟨h.symbol rgid, h.free⟩)

theorem Caller.Words.step {label : ByteCall × Bool} (h : s.Words) (step : ByteStep s label t) :
    t.Words := by
  obtain ⟨u, hCode⟩ := step
  obtain ⟨call, ok⟩ := label
  refine Outcome.Ends.of_code? ?_ hCode
  cases call with
  | alloc rgid size => exact (h.alloc u.fuel u.junk rgid size u.addr).bind fun _ _ hLast => hLast
  | free rgid => exact h.release rgid
  | read rgid offset =>
      have hRead := (read_sameVm u.junk rgid offset s).mono fun _ hSame => h.sameVm hSame
      exact hRead.bind fun _ _ hLast => hLast
  | write rgid offset value =>
      exact (write_sameVm u.junk rgid offset value s).mono fun _ hSame => h.sameVm hSame

end Words

theorem words_run {pgd : Int → BitVec 32} {lruPgn : PgnList} {mram activeMswp : Memphy}
    {calls : List (ByteCall × Bool)} {s : Caller}
    (run : Runs ByteStep (unsetCaller pgd lruPgn mram activeMswp) calls s) : s.Words := by
  refine run.invariant Caller.Words ⟨fun _ => isWord_ulong _ _, ?_⟩ fun _ _ _ h step => h.step step
  intro rg hRg
  obtain rfl : rg = initVmRg 0 0 := by simpa [unsetCaller, initMm, enlistVmRgNode] using hRg
  exact isWord_ulong _ _

/-! The check -/

section Check

variable {s : Caller} {rgid offset : Int}

/-- The check of a live symbol of the table, as the source writes it. -/
theorem accessAddr_live (offset : Int) (hRgid : 0 ≤ rgid ∧ rgid < pagingMaxSymtblSz)
    (hLive : (s.mm.symrgtbl rgid).Live) :
    accessAddr 0 rgid offset s =
      if ulong ((s.mm.symrgtbl rgid).rgStart + offset) < (s.mm.symrgtbl rgid).rgStart ∨
          ulong ((s.mm.symrgtbl rgid).rgStart + offset) > (s.mm.symrgtbl rgid).rgEnd then .fail s
      else .ok (cint ((s.mm.symrgtbl rgid).rgStart + offset)) s := by
  have hIndex : ¬ (rgid < 0 ∨ rgid > pagingMaxSymtblSz) := by omega
  have hNotLast : rgid ≠ pagingMaxSymtblSz := by omega
  have hTest : ¬ (s.mm.symrgtbl rgid).rgStart = (s.mm.symrgtbl rgid).rgEnd := hLive
  simp only [accessAddr, getSymrgByid, if_neg hIndex, if_neg hNotLast, if_neg hTest,
    Outcome.bind_ok]
  rfl

/-- The check admits exactly the offsets of the region, its end, and the negative
ones that go around. -/
theorem checksBounds_iff {rg : VmRg} (hRg : rg.IsWord)
    (hOffset : -2147483648 ≤ offset ∧ offset < 2147483648) :
    (¬ (ulong (rg.rgStart + offset) < rg.rgStart ∨ ulong (rg.rgStart + offset) > rg.rgEnd) →
      rg.Inside offset) ↔ ChecksBounds rg offset := by
  obtain ⟨⟨hStartLow, hStartHigh⟩, hEndLow, hEndHigh⟩ := hRg
  unfold ulong VmRg.Inside ChecksBounds
  by_cases hSum : 0 ≤ rg.rgStart + offset
  · by_cases hWrap : rg.rgStart + offset < 18446744073709551616
    · rw [Int.emod_eq_of_lt hSum hWrap]
      omega
    · omega
  · omega

theorem staysInside_iff (hWords : s.Words) (hRgid : 0 ≤ rgid ∧ rgid < pagingMaxSymtblSz)
    (hLive : (s.mm.symrgtbl rgid).Live)
    (hOffset : -2147483648 ≤ offset ∧ offset < 2147483648) :
    StaysInside s rgid offset ↔ ChecksBounds (s.mm.symrgtbl rgid) offset := by
  rw [← checksBounds_iff (hWords.symbol rgid) hOffset]
  have hCheck := accessAddr_live offset hRgid hLive
  constructor
  · intro h hGoesOn
    rw [if_neg hGoesOn] at hCheck
    exact h.admitted _ _ hCheck
  · intro h
    have hFails : ¬ (s.mm.symrgtbl rgid).Inside offset → accessAddr 0 rgid offset s = .fail s := by
      intro hOutside
      rw [hCheck, if_pos (not_imp_comm.mp h hOutside)]
    refine ⟨fun addr t hOk => ?_, fun hOutside junk => ?_, fun hOutside junk value => ?_⟩
    · by_contra hOutside
      rw [hFails hOutside] at hOk
      simp at hOk
    · rw [read, hFails hOutside, Outcome.bind_fail]
    · rw [write, hFails hOutside, Outcome.bind_fail]

/-- In a process whose regions are in order, an offset of the region goes to an
address of that region alone. -/
theorem keepsApart_of_inside (h : s.mm.InOrder) (hBus : s.BelowBus) (hRgid : rgid ∈ symbols)
    (hLive : (s.mm.symrgtbl rgid).Live) (hInside : (s.mm.symrgtbl rgid).Inside offset) :
    KeepsApart s rgid offset := by
  intro addr t hOk
  have hLimit := busLimit_eq
  have hEnd : s.mm.mmap.vmEnd ≤ busLimit := hBus
  have hSbrk := h.sbrk_le
  obtain ⟨hLow, hHigh⟩ := hInside
  obtain ⟨⟨hStart, -, hTop⟩, -⟩ := (h.symbol rgid hRgid).resolve_left hLive
  obtain rfl : (s.mm.symrgtbl rgid).rgStart + offset = addr := by
    rw [accessAddr_live offset (mem_symbols.mp hRgid) hLive] at hOk
    split_ifs at hOk
    obtain ⟨hAddr, -⟩ := Outcome.ok.inj hOk
    rw [← hAddr]
    exact (cint_of_range (by omega) (by omega)).symm
  refine ⟨fun other hOther hNe _ hContains => ?_, by omega, by omega⟩
  have hOnce :
      coverCount (symbols.map s.mm.symrgtbl) ((s.mm.symrgtbl rgid).rgStart + offset) ≤ 1 := by
    have hCover := h.cover_le ((s.mm.symrgtbl rgid).rgStart + offset)
    rw [Mm.cover, coverCount_append] at hCover
    omega
  exact hNe (Cover.key_unique _ hOnce hOther hRgid hContains ⟨by omega, by omega⟩)

/-- In such a process only the offset at the end of the region escapes the check. -/
theorem checksBounds_iff_of_inOrder (h : s.mm.InOrder) (hBus : s.BelowBus) (hRgid : rgid ∈ symbols)
    (hLive : (s.mm.symrgtbl rgid).Live)
    (hOffset : -2147483648 ≤ offset ∧ offset < 2147483648) :
    ChecksBounds (s.mm.symrgtbl rgid) offset ↔
      offset ≠ (s.mm.symrgtbl rgid).rgEnd - (s.mm.symrgtbl rgid).rgStart := by
  have hLimit := busLimit_eq
  have hEnd : s.mm.mmap.vmEnd ≤ busLimit := hBus
  have hSbrk := h.sbrk_le
  have hRegion := (h.symbol rgid hRgid).resolve_left hLive
  unfold VmRg.Within at hRegion
  unfold ChecksBounds
  omega

end Check

/-! The bytes behind the addresses -/

section Bytes

variable {s : Caller} {rgid offset addr other : Int}

private theorem cellOf_eq_iff :
    s.cellOf addr = s.cellOf other ↔ addr % 256 = other % 256 ∧
      s.frameOf (pagingPgn addr) = s.frameOf (pagingPgn other) := by
  unfold Caller.cellOf
  omega

private theorem cellOf_eq_after_iff {pgn : Int} :
    s.cellOf addr = s.cellAfter pgn other ↔ addr % 256 = other % 256 ∧
      s.frameOf (pagingPgn addr) = s.frameAfter pgn (pagingPgn other) := by
  unfold Caller.cellOf Caller.cellAfter
  omega

/-- The condition in terms of cells. -/
theorem spares_iff : s.Spares addr other ↔
    (s.mram.Has (s.cellOf addr) → s.cellOf addr ≠ s.cellOf other ∧
        s.cellOf addr ≠ s.cellAfter (pagingPgn addr) other) ∧
      s.mram.byte? (s.cellAfter (pagingPgn addr) other) = s.byteOf other := by
  simp only [ne_eq, cellOf_eq_iff, cellOf_eq_after_iff, not_and]
  constructor
  · rintro ⟨hApart, hKept⟩
    refine ⟨fun hHas => ⟨fun hOffset => (hApart hHas hOffset).1,
      fun hOffset => (hApart hHas hOffset).2⟩, ?_⟩
    by_cases hSame : s.frameAfter (pagingPgn addr) (pagingPgn other) = s.frameOf (pagingPgn other)
    · rw [Caller.cellAfter, hSame]
      rfl
    · exact hKept hSame
  · rintro ⟨hApart, hKept⟩
    exact ⟨fun hHas hOffset => ⟨(hApart hHas).1 hOffset, (hApart hHas).2 hOffset⟩, fun _ => hKept⟩

section Live

variable (hRgid : 0 ≤ rgid ∧ rgid < pagingMaxSymtblSz) (hLive : (s.mm.symrgtbl rgid).Live)
include hRgid hLive

/-- What an access that keeps all bytes shows: a page that can be had is brought in, and
writes of two values cannot both leave the byte that was there. -/
theorem KeepsBytes.sharesNoByte (h : KeepsBytes s rgid offset) (hRam : s.mram.rdmflg = true)
    (hSwap : s.activeMswp.rdmflg = true) : SharesNoByte s rgid offset := by
  intro hAdmits hGets other hForeign
  have hCheck := accessAddr_live offset hRgid hLive
  rw [if_neg hAdmits] at hCheck
  change s.GetsPage (pagingPgn (cint ((s.mm.symrgtbl rgid).rgStart + offset))) at hGets
  generalize cint ((s.mm.symrgtbl rgid).rgStart + offset) = addr at hCheck hGets ⊢
  obtain ⟨middle, hPhy, hBrings⟩ := hGets.accessPhy 0 hCheck hRam hSwap
  have hStored : ∀ value, s.byteOf other = _ := fun value => by
    obtain ⟨t, hState, hByte⟩ := write_byteOf value hPhy hBrings other
    exact (Outcome.ends_iff.mp (h.write 0 value) t hState other hForeign).symm.trans hByte
  have hApart : ¬ (s.mram.Has (s.cellOf addr) ∧
      s.cellOf addr = s.cellAfter (pagingPgn addr) other) := by
    intro hHere
    have hZero := (hStored 0).trans (if_pos hHere)
    have hOne := (hStored 1).trans (if_pos hHere)
    exact absurd (hZero.symm.trans hOne) (by decide)
  refine spares_iff.mpr ⟨fun hHas => ⟨?_, fun hCell => hApart ⟨hHas, hCell⟩⟩, ?_⟩
  · exact h.apart 0 _ middle hPhy hHas other hForeign
  · exact ((hStored 0).trans (if_neg hApart)).symm

theorem SharesNoByte.keepsBytes (h : SharesNoByte s rgid offset) : KeepsBytes s rgid offset := by
  have hCheck := accessAddr_live offset hRgid hLive
  by_cases hAdmits : (s.mm.symrgtbl rgid).Admits offset
  · rw [if_neg hAdmits] at hCheck
    have hSpares := fun hGets other hForeign => spares_iff.mp (h hAdmits hGets other hForeign)
    refine ⟨fun junk phy t hPhy hHas addr hForeign => ?_, fun junk => ?_, fun junk value => ?_⟩
    · rcases accessPhy_cases junk hCheck with hCall | ⟨_, hCall, -⟩ | ⟨_, hCall, hBrings⟩
      · simp [hCall] at hPhy
      · simp [hCall] at hPhy
      · obtain ⟨rfl, -⟩ := Outcome.ok.inj (hCall.symm.trans hPhy)
        exact ((hSpares hBrings.gets addr hForeign).1 hHas).1
    · refine Outcome.ends_iff.mpr fun t hState other hForeign => ?_
      exact Outcome.ends_iff.mp (read_keeps junk hCheck fun hGets =>
        (hSpares hGets other hForeign).2) t hState
    · refine Outcome.ends_iff.mpr fun t hState other hForeign => ?_
      refine Outcome.ends_iff.mp (write_keeps junk value hCheck fun hGets => ?_) t hState
      have hSpared := hSpares hGets other hForeign
      exact ⟨fun hHas => (hSpared.1 hHas).2, hSpared.2⟩
  · rw [if_pos (not_not.mp hAdmits)] at hCheck
    refine ⟨fun junk phy t hPhy => ?_, fun junk => ?_, fun junk value => ?_⟩
    · simp [accessPhy, hCheck] at hPhy
    · rw [Btlos.read, hCheck]
      exact fun _ _ => rfl
    · rw [Btlos.write, hCheck]
      exact fun _ _ => rfl

theorem keepsBytes_iff (hRam : s.mram.rdmflg = true) (hSwap : s.activeMswp.rdmflg = true) :
    KeepsBytes s rgid offset ↔ SharesNoByte s rgid offset :=
  ⟨fun h => h.sharesNoByte hRgid hLive hRam hSwap, fun h => h.keepsBytes hRgid hLive⟩

end Live

end Bytes

/-! Whole runs -/

/-- In every state that calls can lead to, the check keeps an access inside its
region exactly under its condition. Where the calls are for sizes of at least 1
and stay below the limit of the bus, that is at every offset but the size of the
region, and the other live symbols and the pages beyond the area are out of
reach under the same condition. The bytes of other live symbols are neither read
nor changed exactly if the access shares none of them. -/
theorem contained_iff {pgd : Int → BitVec 32} {lruPgn : PgnList} {mram activeMswp : Memphy}
    {calls : List (ByteCall × Bool)} {s : Caller}
    (run : Runs ByteStep (unsetCaller pgd lruPgn mram activeMswp) calls s) (rgid offset : Int)
    (hRgid : 0 ≤ rgid ∧ rgid < pagingMaxSymtblSz) (hLive : (s.mm.symrgtbl rgid).Live)
    (hOffset : -2147483648 ≤ offset ∧ offset < 2147483648) :
    (StaysInside s rgid offset ↔ ChecksBounds (s.mm.symrgtbl rgid) offset) ∧
      (Runs BoundedByteStep (unsetCaller pgd lruPgn mram activeMswp) calls s →
        (StaysInside s rgid offset ∧ KeepsApart s rgid offset ↔
          offset ≠ (s.mm.symrgtbl rgid).rgEnd - (s.mm.symrgtbl rgid).rgStart)) ∧
      (s.mram.rdmflg = true → s.activeMswp.rdmflg = true →
        (KeepsBytes s rgid offset ↔ SharesNoByte s rgid offset)) := by
  have hIff := staysInside_iff (words_run run) hRgid hLive hOffset
  have hMem := mem_symbols.mpr hRgid
  refine ⟨hIff, fun bounded => ?_, keepsBytes_iff hRgid hLive⟩
  obtain ⟨hOrder, hBus⟩ := inOrder_byteRun bounded
  rw [← checksBounds_iff_of_inOrder hOrder hBus hMem hLive hOffset, ← hIff]
  constructor
  · exact And.left
  · intro h
    refine ⟨h, fun addr t hOk => ?_⟩
    exact keepsApart_of_inside hOrder hBus hMem hLive (h.admitted addr t hOk) addr t hOk

private theorem bounded_byteStep {s t : Caller} {label : ByteCall × Bool}
    (step : BoundedByteStep s label t) : ByteStep s label t := step.1.1

/-- The last byte of a region of 300 bytes. -/
theorem contained_last_byte : ∃ s,
    Runs ByteStep
      (unsetCaller (fun _ => 0) (.nodes []) (initMemphy .zero 1024 1) (initMemphy .zero 4096 1))
      [(.alloc 0 300, true), (.alloc 1 100, true)] s ∧
    StaysInside s 0 299 ∧ KeepsApart s 0 299 ∧ KeepsBytes s 0 299 := by
  have hEval : (exec (boundedByteStep ⟨600, 0, 0, 0⟩)
      (unsetCaller (fun _ => 0) (.nodes []) (initMemphy .zero 1024 1) (initMemphy .zero 4096 1))
      [(.alloc 0 300, true), (.alloc 1 100, true)]).any
        (fun s => s.mm.symrgtbl 0 = ⟨0, 300⟩ ∧
          (∀ other ∈ symbols, other ≠ 0 → (s.mm.symrgtbl other).rgStart ≠
            (s.mm.symrgtbl other).rgEnd → s.mm.symrgtbl other = ⟨300, 400⟩) ∧
          s.mram.rdmflg = true ∧ s.activeMswp.rdmflg = true ∧
          pagingPagePresent (s.mm.pgd 1) = false ∧ s.mram.freeFpList = [2, 3]) = true := by
    decide +kernel
  obtain ⟨s, hRun, hState⟩ := (Option.any_eq_true _ _).mp hEval
  obtain ⟨hRegion, hOthers, hRam, hSwap, hAbsent, hFree⟩ := of_decide_eq_true hState
  have bounded := Runs.of_exec hRun fun _ _ _ h => boundedByteStep_step h
  have run := bounded.mono fun _ _ _ h => bounded_byteStep h
  have hLive : (s.mm.symrgtbl 0).Live := by
    rw [hRegion]
    decide
  obtain ⟨-, hApart, hBytes⟩ := contained_iff run 0 299 (by decide) hLive (by decide)
  obtain ⟨hStays, hApart⟩ := (hApart bounded).mpr (by rw [hRegion]; decide)
  refine ⟨s, run, hStays, hApart, (hBytes hRam hSwap).mpr ?_⟩
  rintro - - addr ⟨other, hMem, hNe, hOther, hIn⟩
  rw [hOthers other hMem hNe hOther] at hIn
  obtain ⟨hLow, hHigh⟩ : 300 ≤ addr ∧ addr < 400 := hIn
  have hAddr : cint ((s.mm.symrgtbl 0).rgStart + 299) = 299 := by
    rw [hRegion]
    rfl
  have hPage : pagingPgn addr = 1 := by
    rw [pagingPgn_eq]
    omega
  rw [hAddr]
  refine ⟨fun _ hOffset => by omega, fun hMoved => absurd ?_ hMoved⟩
  rw [hPage, show pagingPgn 299 = 1 by decide]
  simp [Caller.frameAfter, Caller.frameOf, hAbsent, hFree]

/-- The byte after it is admitted too, and belongs to the next symbol. -/
theorem access_next_symbol : ∃ s,
    Runs BoundedByteStep
      (unsetCaller (fun _ => 0) (.nodes []) (initMemphy .zero 1024 1) (initMemphy .zero 4096 1))
      [(.alloc 0 300, true), (.alloc 1 100, true)] s ∧
    (s.mm.symrgtbl 0).Live ∧ ¬ StaysInside s 0 300 ∧ ¬ KeepsApart s 0 300 := by
  have hEval : (exec (boundedByteStep ⟨600, 0, 0, 0⟩)
      (unsetCaller (fun _ => 0) (.nodes []) (initMemphy .zero 1024 1) (initMemphy .zero 4096 1))
      [(.alloc 0 300, true), (.alloc 1 100, true)]).any
        (fun s => s.mm.symrgtbl 0 = ⟨0, 300⟩ ∧ s.mm.symrgtbl 1 = ⟨300, 400⟩) = true := by
    decide +kernel
  obtain ⟨s, hRun, hRegions⟩ := (Option.any_eq_true _ _).mp hEval
  obtain ⟨hFirst, hSecond⟩ : s.mm.symrgtbl 0 = ⟨0, 300⟩ ∧ s.mm.symrgtbl 1 = ⟨300, 400⟩ :=
    of_decide_eq_true hRegions
  have hLive : (s.mm.symrgtbl 0).Live := by
    rw [hFirst]
    decide
  have hGoesOn : accessAddr 0 0 300 s = .ok 300 s := by
    rw [accessAddr_live 300 (by decide) hLive, hFirst]
    rfl
  refine ⟨s, Runs.of_exec hRun fun _ _ _ h => boundedByteStep_step h, hLive, fun h => ?_,
    fun h => ?_⟩
  · have hInside := h.admitted 300 s hGoesOn
    rw [hFirst] at hInside
    exact absurd hInside.2 (by decide)
  · apply (h 300 s hGoesOn).1 1 (mem_symbols.mpr (by decide)) (by decide)
    · rw [hSecond]
      decide
    · rw [hSecond]
      exact ⟨by decide, by decide⟩

/-- The first byte of the second symbol is inside its region, and in the cell of byte 44
of the first. -/
theorem write_reaches_other : ∃ s t u,
    Runs BoundedByteStep
      (unsetCaller (fun _ => 0) (.nodes []) (initMemphy .zero 1024 1) (initMemphy .zero 4096 1))
      [(.alloc 0 300, true), (.alloc 1 100, true), (.write 0 44 5, true)] s ∧
    (s.mm.symrgtbl 1).Inside 0 ∧ write 0 0 1 0 9 s = .ok () t ∧ read 0 0 0 44 t = .ok 9 u ∧
    ¬ KeepsBytes s 1 0 := by
  have hEval : (exec (boundedByteStep ⟨600, 0, 0, 0⟩)
      (unsetCaller (fun _ => 0) (.nodes []) (initMemphy .zero 1024 1) (initMemphy .zero 4096 1))
      [(.alloc 0 300, true), (.alloc 1 100, true), (.write 0 44 5, true)]).any
        (fun s => s.mm.symrgtbl 0 = ⟨0, 300⟩ ∧ s.mm.symrgtbl 1 = ⟨300, 400⟩ ∧
          ((read 0 0 0 44 s).ok?.any fun before => before.1 = 5) = true ∧
          ((write 0 0 1 0 9 s).ok?.any fun after => after.2.mm.symrgtbl 0 = ⟨0, 300⟩ ∧
            ((read 0 0 0 44 after.2).ok?.any fun last => last.1 = 9) = true) = true) = true := by
    decide +kernel
  obtain ⟨s, hRun, hState⟩ := (Option.any_eq_true _ _).mp hEval
  obtain ⟨hFirst, hSecond, hBefore, hAfter⟩ := of_decide_eq_true hState
  obtain ⟨⟨before, s'⟩, hReadBefore, hFive⟩ := (Option.any_eq_true _ _).mp hBefore
  obtain ⟨⟨_, t⟩, hWrite, hAfter⟩ := (Option.any_eq_true _ _).mp hAfter
  obtain ⟨hFirst', hLast⟩ := of_decide_eq_true hAfter
  obtain ⟨⟨last, u⟩, hReadAfter, hNine⟩ := (Option.any_eq_true _ _).mp hLast
  obtain rfl : before = 5 := of_decide_eq_true hFive
  obtain rfl : last = 9 := of_decide_eq_true hNine
  rw [Outcome.ok?_eq_some] at hReadBefore hWrite hReadAfter
  have hAddr : ∀ {c : Caller}, c.mm.symrgtbl 0 = ⟨0, 300⟩ → accessAddr 0 0 44 c = .ok 44 c := by
    intro c hRegion
    have hLive : (c.mm.symrgtbl 0).Live := by
      rw [hRegion]
      decide
    rw [accessAddr_live 44 (by decide) hLive, hRegion]
    rfl
  refine ⟨s, t, u, Runs.of_exec hRun fun _ _ _ h => boundedByteStep_step h, ?_, hWrite, hReadAfter,
    fun h => ?_⟩
  · rw [hSecond]
    exact ⟨by decide, by decide⟩
  · have hForeign : s.Foreign 1 44 := by
      refine ⟨0, mem_symbols_zero, by decide, ?_, ?_⟩ <;> rw [hFirst]
      · decide
      · exact ⟨by decide, by decide⟩
    have hKept := h.write 0 9
    rw [hWrite] at hKept
    have hSame := hKept 44 hForeign
    rw [read_byteOf (hAddr hFirst') hReadAfter, read_byteOf (hAddr hFirst) hReadBefore] at hSame
    exact absurd hSame (by decide)

end Btlos
