import Btlos.Vm.Containment
import Btlos.Vm.ReadOutcome
import Btlos.Vm.SearchEnds

/-! What the calls of a process need in order to succeed: free frames of RAM for the
pages that they ask for, and live symbols of the sizes that the program counts on. -/
namespace Btlos

section Stock

variable {s t : Caller} {frames : Nat}

/-- So many frames of RAM are free, and the list of recent pages has not been freed. -/
structure Caller.Stocked (frames : Nat) (s : Caller) : Prop where
  ready : s.Ready
  listed : ∃ pages, s.mm.lruPgn = .nodes pages
  stock : frames ≤ s.mram.freeFpList.length

theorem Caller.Stocked.mono {fewer : Nat} (h : s.Stocked frames) (hFewer : fewer ≤ frames) :
    s.Stocked fewer :=
  ⟨h.ready, h.listed, hFewer.trans h.stock⟩

theorem Caller.Stocked.samePaging (h : s.Stocked frames) (hSame : s.SamePaging t) :
    t.Stocked frames := by
  have hFollows := (follows_frameInvariant s).samePaging s t hSame (.refl h.ready)
  obtain ⟨-, hLru, hMram, -⟩ := hSame
  refine ⟨hFollows.ready, ?_, ?_⟩
  · rw [hLru]
    exact h.listed
  · rw [hMram]
    exact h.stock

theorem Caller.Stocked.contents {mram : Memphy} (h : s.Stocked frames)
    (hSame : s.mram.SameFrames mram) : ({ s with mram := mram } : Caller).Stocked frames := by
  have hFollows := (follows_frameInvariant s).contents s mram hSame (.refl h.ready)
  refine ⟨hFollows.ready, h.listed, ?_⟩
  rw [hSame.freeFpList]
  exact h.stock

/-- A request is granted while RAM has free frames, and takes one at most. -/
theorem PageView.request_of_frames {view : PageView} {pages : List Int}
    (hNodes : view.recent = .nodes pages) (hFrames : view.ramFrames ≠ 0) (pgn : Int) :
    ∃ view', view.request pgn = some (true, view') ∧
      (∃ pages', view'.recent = .nodes pages') ∧ view.ramFrames ≤ view'.ramFrames + 1 := by
  simp only [PageView.request, hNodes]
  split_ifs
  · exact ⟨_, rfl, ⟨_, rfl⟩, Nat.le_succ _⟩
  · exact ⟨_, rfl, ⟨_, rfl⟩, by simp only; omega⟩

theorem Caller.Stocked.page (h : s.Stocked (frames + 1)) (junk : Byte) {pgn : Int}
    (hPgn : 0 ≤ pgn ∧ pgn < pagingMaxPgn) :
    ∃ fpn t, pgGetpage junk pgn s = .ok fpn t ∧ t.Stocked frames ∧ s.SameVm t ∧
      ∀ off, 0 ≤ off ∧ off < 256 → 0 ≤ phyAddr fpn off ∧ phyAddr fpn off < t.mram.maxsz := by
  obtain ⟨pages, hNodes⟩ := h.listed
  have hStock := h.stock
  have hRecent : s.pageView.recent = .nodes pages := hNodes
  have hSome : s.pageView.ramFrames ≠ 0 := by
    change s.mram.freeFpList.length ≠ 0
    omega
  obtain ⟨view, hRequest, hListed, hTaken⟩ := PageView.request_of_frames hRecent hSome pgn
  have hEnd := h.ready.page_end junk hPgn
  generalize pgGetpage junk pgn s = call at hEnd ⊢
  cases hEnd with
  | undefined hNone => simp [hRequest] at hNone
  | refused t hNone => simp [hRequest] at hNone
  | granted fpn t hGranted hKeeps hBytes =>
      obtain rfl : view = t.pageView := by simpa [hRequest] using hGranted
      have hLength : s.mram.freeFpList.length ≤ t.mram.freeFpList.length + 1 := hTaken
      exact ⟨fpn, t, rfl, ⟨hKeeps.ready, hListed, by omega⟩, hKeeps.sameVm, hBytes⟩

theorem Caller.Stocked.map (junk : Byte) (pgnum : Nat) (addr : Int)
    (h : s.Stocked (pgnum + frames)) :
    ∃ t, vmapPageRange junk pgnum addr s = .ok () t ∧ t.Stocked frames ∧ s.SameVm t := by
  induction pgnum generalizing addr s with
  | zero =>
      rw [Nat.zero_add] at h
      exact ⟨s, rfl, h, .rfl⟩
  | succ pgnum ih =>
      have hNext : s.Stocked (pgnum + frames + 1) := h.mono (by omega)
      obtain ⟨fpn, middle, hPage, hMiddle, hSame, -⟩ := hNext.page junk (pagingPgn_bounds addr)
      obtain ⟨t, hRest, hStocked, hSame'⟩ := ih (cint (addr + pagingPagesz)) hMiddle
      refine ⟨t, ?_, hStocked, hSame.trans hSame'⟩
      rw [vmapPageRange, hPage, Outcome.bind_ok, hRest]

/-- An access that gets past its checks gets to its byte. -/
theorem Caller.Stocked.access (h : s.Stocked (frames + 1)) (junk : Byte) {rgid offset addr : Int}
    (hAddr : accessAddr 0 rgid offset s = .ok addr s) :
    ∃ phy t, accessPhy junk rgid offset s = .ok phy t ∧ t.Stocked frames ∧ s.SameVm t ∧
      0 ≤ phy ∧ phy < t.mram.maxsz := by
  obtain ⟨fpn, t, hPage, hStocked, hSame, hBytes⟩ := h.page junk (pagingPgn_bounds addr)
  refine ⟨phyAddr fpn (pagingOffst addr), t, ?_, hStocked, hSame,
    hBytes _ (pagingOffst_bounds addr)⟩
  rw [accessPhy, hAddr, Outcome.bind_ok, hPage, Outcome.bind_ok]

theorem Caller.Stocked.read (h : s.Stocked (frames + 1)) (junk : Byte) {rgid offset addr : Int}
    (hAddr : accessAddr 0 rgid offset s = .ok addr s) :
    ∃ data t, read junk 0 rgid offset s = .ok data t ∧ t.Stocked frames ∧ s.SameVm t := by
  obtain ⟨phy, t, hPhy, hStocked, hSame, hLow, hHigh⟩ := h.access junk hAddr
  have hIn : ¬ (phy < 0 ∨ phy ≥ t.mram.maxsz) := by omega
  rw [read_eq, hPhy, Outcome.bind_ok, memphyRead, if_pos hStocked.ready.ramRandom, if_neg hIn]
  exact ⟨_, _, rfl, hStocked, hSame⟩

theorem Caller.Stocked.write (h : s.Stocked (frames + 1)) (junk value : Byte)
    {rgid offset addr : Int} (hAddr : accessAddr 0 rgid offset s = .ok addr s) :
    ∃ t, write junk 0 rgid offset value s = .ok () t ∧ t.Stocked frames ∧ s.SameVm t := by
  obtain ⟨phy, t, hPhy, hStocked, hSame, hLow, hHigh⟩ := h.access junk hAddr
  have hIn : ¬ (phy < 0 ∨ phy ≥ t.mram.maxsz) := by omega
  rw [write_eq, hPhy, Outcome.bind_ok, memphyWrite, if_neg hIn, if_pos hStocked.ready.ramRandom,
    if_neg hIn]
  exact ⟨_, rfl, hStocked.contents (Memphy.SameFrames.rfl.store _), hSame⟩

end Stock

/-! The symbols of a process -/

/-- The symbols are live as far as their size is not 0, and have that size. At most so
many pages have been added to the area. -/
structure Mm.Holds (sizes : Nat → Nat) (pages : Nat) (mm : Mm) : Prop where
  order : mm.InOrder
  sized : ∀ reg : Nat, (reg : Int) ∈ symbols →
    (mm.symrgtbl reg).rgEnd = (mm.symrgtbl reg).rgStart + sizes reg
  limit : mm.mmap.vmEnd ≤ 256 * pages
  dummy : mm.mmap.vmFreergList.getLast? = some ⟨0, 0⟩

/-- The pages of the address space, and so the most that a program may allocate. -/
def maxPages : Nat := 16384

section Symbols

variable {s t : Caller} {sizes : Nat → Nat} {pages frames reg : Nat}

theorem Mm.Holds.sameVm (h : s.mm.Holds sizes pages) (hSame : s.SameVm t) :
    t.mm.Holds sizes pages := by
  have hOrder := hSame.inOrder h.order
  obtain ⟨hMmap, hTbl⟩ := hSame
  refine ⟨hOrder, ?_, ?_, ?_⟩
  · rw [hTbl]
    exact h.sized
  · rw [hMmap]
    exact h.limit
  · rw [hMmap]
    exact h.dummy

theorem Mm.Holds.belowBus (h : s.mm.Holds sizes pages) (hPages : pages ≤ maxPages) :
    s.BelowBus := by
  have hLimit := busLimit_eq
  have hEnd := h.limit
  rw [maxPages] at hPages
  rw [Caller.BelowBus]
  omega

theorem Mm.Holds.live (h : s.mm.Holds sizes pages) (hReg : (reg : Int) ∈ symbols)
    (hSize : 0 < sizes reg) : (s.mm.symrgtbl reg).Live := by
  have hSized := h.sized reg hReg
  rw [VmRg.Live]
  omega

theorem cint_natCast {n : Nat} (h : n < 2147483648) : cint n = n :=
  cint_of_range (by omega) (by omega)

theorem cint_symbol (hReg : (reg : Int) ∈ symbols) : cint reg = reg := by
  have hBounds := mem_symbols.mp hReg
  exact cint_of_range (by omega) (by have : pagingMaxSymtblSz = 30 := rfl; omega)

/-- An access inside a live symbol gets past its checks. -/
theorem Mm.Holds.accessAddr (h : s.mm.Holds sizes pages) (hPages : pages ≤ maxPages)
    (hReg : (reg : Int) ∈ symbols) {offset : Nat} (hInside : offset < sizes reg) :
    ∃ addr, accessAddr 0 (cint reg) (cint offset) s = .ok addr s := by
  have hLive := h.live hReg (Nat.zero_lt_of_lt hInside)
  have hSized := h.sized reg hReg
  obtain ⟨⟨hLow, hOrder, hHigh⟩, -⟩ := (h.order.symbol reg hReg).resolve_left hLive
  have hSbrk := h.order.sbrk_le
  have hEnd := h.limit
  rw [maxPages] at hPages
  have hSum : ulong ((s.mm.symrgtbl reg).rgStart + offset) = (s.mm.symrgtbl reg).rgStart + offset :=
    ulong_of_range (by omega) (by omega)
  rw [cint_symbol hReg, cint_natCast (by omega), accessAddr_live _ (mem_symbols.mp hReg) hLive,
    hSum,
    if_neg (by omega)]
  exact ⟨_, rfl⟩

/-- The region of one symbol is replaced by one of another size. -/
private theorem sized_update {symrgtbl : Int → VmRg} {rg : VmRg} {size : Nat}
    (h : ∀ reg : Nat, (reg : Int) ∈ symbols →
      (symrgtbl reg).rgEnd = (symrgtbl reg).rgStart + sizes reg)
    (hRg : rg.rgEnd = rg.rgStart + size) (other : Nat) (hOther : (other : Int) ∈ symbols) :
    (Function.update symrgtbl (reg : Int) rg other).rgEnd =
      (Function.update symrgtbl (reg : Int) rg other).rgStart +
        Function.update sizes reg size other := by
  by_cases hSame : other = reg
  · subst hSame
    rw [Function.update_self, Function.update_self]
    exact hRg
  · rw [Function.update_of_ne (by omega), Function.update_of_ne hSame]
    exact h other hOther

theorem pgwrite_served (h : s.mm.Holds sizes pages) (hPages : pages ≤ maxPages)
    (hStock : s.Stocked (frames + 1)) (hReg : (reg : Int) ∈ symbols) {offset : Nat}
    (hInside : offset < sizes reg) (junk data : Byte) :
    ∃ t, pgwrite junk data reg offset s = .ok () t ∧ t.Stocked frames ∧ t.mm.Holds sizes pages := by
  obtain ⟨addr, hAddr⟩ := h.accessAddr hPages hReg hInside
  obtain ⟨t, hWrite, hStocked, hSame⟩ := hStock.write junk data hAddr
  exact ⟨t, hWrite, hStocked, h.sameVm hSame⟩

theorem pgread_served (h : s.mm.Holds sizes pages) (hPages : pages ≤ maxPages)
    (hStock : s.Stocked (frames + 2)) (hSource : (reg : Int) ∈ symbols) {offset : Nat}
    (hInside : offset < sizes reg) {destination : Nat}
      (hDestination : (destination : Int) ∈ symbols)
    (hLive : 0 < sizes destination) (junk data : Byte) :
    ∃ t, pgread junk data reg offset destination s = .ok () t ∧ t.Stocked frames ∧
      t.mm.Holds sizes pages := by
  obtain ⟨addr, hAddr⟩ := h.accessAddr hPages hSource hInside
  obtain ⟨byte, middle, hRead, hMiddle, hSame⟩ := hStock.read junk hAddr
  obtain ⟨t, hWrite, hStocked, hHolds⟩ :=
    pgwrite_served (h.sameVm hSame) hPages hMiddle hDestination hLive junk byte
  refine ⟨t, ?_, hStocked, hHolds⟩
  rw [pgread, hRead]
  simp only
  rw [show pgwrite junk byte destination 0 middle = .ok () t from hWrite]
  rfl

theorem pgfree_served (h : s.mm.Holds sizes pages) (hStock : s.Stocked frames)
    (hReg : (reg : Int) ∈ symbols) (hSize : 0 < sizes reg) :
    ∃ t, pgfreeData reg s = .ok () t ∧ t.Stocked frames ∧
      t.mm.Holds (Function.update sizes reg 0) pages := by
  obtain ⟨t, hFree⟩ := free_of_live h.order hReg (h.live hReg hSize)
  have hPaging := free_samePaging reg s
  have hDummy := Caller.EndsInDummy.release h.dummy (reg : Int)
  rw [hFree] at hPaging hDummy
  obtain ⟨hTo, -⟩ := free_to h.order (show (free 0 reg s).code? = some (true, t) by rw [hFree]; rfl)
  refine ⟨t, ?_, hStock.samePaging hPaging, h.order.free_step hReg hTo, ?_, ?_, hDummy⟩
  · rw [pgfreeData, cint_symbol hReg, hFree]
  · cases hTo with
    | enlisted _ hLive hMmap hTbl =>
        rw [hTbl]
        exact sized_update h.sized (by simp)
  · cases hTo with
    | enlisted _ hLive hMmap hTbl =>
        rw [hMmap]
        exact h.limit

end Symbols

/-! Allocations -/

/-- The pages that an allocation of this size maps at most. -/
def pagesFor (size : Nat) : Nat := (size + 255) / 256

section Alloc

variable {s t : Caller} {sizes : Nat → Nat} {pages frames reg size : Nat}

/-- The growth of an area that has to grow, without any overflow. -/
private theorem growth (h : s.mm.Holds sizes pages) (hPages : pages + pagesFor size ≤ maxPages)
    (hGap : brkGap s < size) : ∃ more : Nat, more ≤ pagesFor size ∧
      ((pagingPageAlignsz (brkIncSz s size)).tdiv pagingPagesz).toNat = more ∧
      brkRaised s size = s.mm.mmap.vmEnd + 256 * more := by
  have hSbrk := h.order.sbrk_nonneg
  have hLe := h.order.sbrk_le
  have hEnd := h.limit
  rw [maxPages, pagesFor] at hPages
  have hBrkGap : brkGap s = s.mm.mmap.vmEnd - s.mm.mmap.sbrk := cint_of_range (by omega) (by omega)
  have hInc : brkIncSz s size = (size - brkGap s + 255) / 256 * 256 := by
    rw [brkIncSz, cint_of_range (by omega) (by omega),
      pagingPageAlignsz_of_small (by omega) (by omega)]
  refine ⟨((size - brkGap s + 255) / 256).toNat, ?_, ?_, ?_⟩
  · rw [pagesFor]
    omega
  · rw [hInc, pagingPageAlignsz_of_small (by omega) (by omega)]
    have hPage : pagingPagesz = 256 := rfl
    rw [hPage, Int.tdiv_eq_ediv_of_nonneg (by omega)]
    omega
  · rw [brkRaised, hInc, ulong_of_range (by omega) (by omega)]
    omega

/-- Once the search has come to an end the allocation succeeds, whatever was found. -/
private theorem alloc_ok (h : s.mm.Holds sizes pages) (hPages : pages + pagesFor size ≤ maxPages)
    (hStock : s.Stocked (pagesFor size + frames)) (hReg : (reg : Int) ∈ symbols) {fuel : Nat}
    (hReturns : getFreeVmrgArea fuel 0 size s ≠ .undefined) (junk : Byte) (allocAddr : Int) :
    ∃ addr t, alloc fuel junk 0 reg size allocAddr s = .ok addr t ∧ t.Stocked frames := by
  have hSearch := getFreeVmrgArea_ends fuel size s
  have hIndex := mem_symbols.mp hReg
  rw [alloc]
  generalize getFreeVmrgArea fuel 0 size s = call at hSearch hReturns ⊢
  cases hSearch with
  | undefined => exact absurd rfl hReturns
  | found newrg rgs =>
      simp only [Caller.setSymrg, if_pos hIndex, Outcome.bind_ok]
      refine ⟨_, _, rfl, (hStock.mono (Nat.le_add_left _ _)).samePaging ?_⟩
      exact (s.samePaging_setMmap _).trans (Caller.samePaging_putSymrg _ _ _)
  | missed newrg rgs =>
      have hMiddle : (s.setVmFreergList rgs).Stocked (pagesFor size + frames) :=
        hStock.samePaging (s.samePaging_setMmap _)
      by_cases hGap : (size : Int) ≤ brkGap s
      · refine ⟨_, _, allocAtBrk_gap junk allocAddr hGap hIndex, ?_⟩
        refine (hMiddle.mono (Nat.le_add_left _ _)).samePaging ?_
        exact (Caller.samePaging_setMmap _ _).trans (Caller.samePaging_putSymrg _ _ _)
      · obtain ⟨more, hMore, hCount, -⟩ := growth h hPages (not_le.mp hGap)
        have hRaised : ((s.setVmFreergList rgs).setVmEnd (brkRaised s size)).Stocked
            (more + frames) :=
          (hMiddle.samePaging (Caller.samePaging_setMmap _ _)).mono (by omega)
        obtain ⟨t, hMap, hStocked, -⟩ :=
          hRaised.map junk more (cint (s.setVmFreergList rgs).mm.mmap.vmEnd)
        rw [← hCount] at hMap
        refine ⟨_, _, allocAtBrk_grown junk allocAddr (not_le.mp hGap) hIndex hMap, ?_⟩
        refine hStocked.samePaging ?_
        exact (Caller.samePaging_setMmap _ _).trans (Caller.samePaging_putSymrg _ _ _)

/-- The areas and symbols after it. -/
private theorem alloc_holds (h : s.mm.Holds sizes pages)
    (hPages : pages + pagesFor size ≤ maxPages) (hReg : (reg : Int) ∈ symbols) (hSize : 0 < size)
    {fuel : Nat} {junk : Byte} {allocAddr addr : Int}
    (hOk : alloc fuel junk 0 reg size allocAddr s = .ok addr t) :
    t.mm.Holds (Function.update sizes reg size) (pages + pagesFor size) := by
  have hVmEnd := alloc_vmEnd fuel junk reg size allocAddr s
  have hDummy := Caller.EndsInDummy.alloc h.dummy fuel junk reg size allocAddr
  rw [hOk] at hVmEnd hDummy
  have hLimit : t.mm.mmap.vmEnd ≤ 256 * (pages + pagesFor size : Nat) := by
    have hEnd := h.limit
    rcases hVmEnd with hSame | ⟨hGap, hRaised⟩
    · omega
    · obtain ⟨more, hMore, -, hSum⟩ := growth h hPages hGap
      omega
  have hSmall : size < 2147483648 := by
    rw [maxPages, pagesFor] at hPages
    omega
  have hBus : t.BelowBus := by
    have hLimit' := busLimit_eq
    rw [maxPages] at hPages
    rw [Caller.BelowBus]
    omega
  have hTo := alloc_cases h.order.toBounded (h.belowBus (by omega)) (by omega)
    (show (alloc fuel junk 0 reg size allocAddr s).code? = some (true, t) by rw [hOk]; rfl) hBus
  refine ⟨h.order.alloc_end (by omega) hTo fun _ => hReg, ?_, hLimit, hDummy⟩
  cases hTo with
  | fit rgs taken newrg _ hCarves hLast hMmap hTbl =>
      rw [hTbl]
      exact sized_update h.sized (hCarves.taken_size newrg (List.mem_of_getLast? hLast))
  | brk rgs vmEnd _ hCarves hAligned hRoom hMmap hTbl =>
      rw [hTbl]
      exact sized_update h.sized rfl

/-- With enough rounds the search of an allocation comes to an end. -/
private theorem search_returns (h : s.mm.Holds sizes pages) (hPages : pages ≤ maxPages)
    (hSize : 0 < size) (hSmall : size ≤ 4194304) :
    ∃ fuel, getFreeVmrgArea fuel 0 size s ≠ .undefined := by
  have hSome : s.mm.mmap.vmFreergList ≠ [] := by
    intro hNone
    have hLast := h.dummy
    rw [hNone] at hLast
    cases hLast
  have hSbrk := h.order.sbrk_le
  have hEnd := h.limit
  rw [maxPages] at hPages
  rw [getFreeVmrgArea_returns_iff hSome, searchReturns_iff h.dummy,
    ulong_of_range (by omega) (by omega)]
  refine ⟨by omega, fun rg hRg => ?_⟩
  obtain ⟨hLow, hOrder, hHigh⟩ := h.order.free rg hRg
  rw [VmRg.GetsPast, ← RingWalk.exists_le_position_iff (by decide)]
  have hReach : rg.rgEnd ≤ ((rg.rgEnd.toNat + 1 : Nat) : Int) * size := by
    have hSteps : ((rg.rgEnd.toNat + 1 : Nat) : Int) * 1 ≤
      ((rg.rgEnd.toNat + 1 : Nat) : Int) * size :=
      Int.mul_le_mul_of_nonneg_left (by omega) (by omega)
    omega
  have hTop : ((rg.rgEnd.toNat + 1 : Nat) : Int) * size ≤ 4194305 * 4194304 :=
    Int.mul_le_mul (by omega) (by omega) (by omega) (by omega)
  have hWords : wordCount = 18446744073709551616 := rfl
  refine ⟨rg.rgEnd.toNat, ?_⟩
  rw [RingWalk.position, Int.emod_eq_of_lt (by omega) (by omega)]
  omega

/-- An allocation of a symbol succeeds, and takes no more frames than it has pages. -/
theorem pgalloc_served (h : s.mm.Holds sizes pages) (hPages : pages + pagesFor size ≤ maxPages)
    (hStock : s.Stocked (pagesFor size + frames)) (hReg : (reg : Int) ∈ symbols)
    (hSize : 0 < size) :
    (∃ fuel, ∀ junk addr, pgalloc fuel junk addr size reg s ≠ .undefined) ∧
    ∀ fuel junk addr, pgalloc fuel junk addr size reg s = .undefined ∨
      ∃ value t, pgalloc fuel junk addr size reg s = .ok value t ∧ t.Stocked frames ∧
        t.mm.Holds (Function.update sizes reg size) (pages + pagesFor size) := by
  have hSmall : size ≤ 4194304 := by
    rw [maxPages, pagesFor] at hPages
    omega
  have hCall : ∀ fuel junk addr,
      pgalloc fuel junk addr size reg s = alloc fuel junk 0 reg size addr s := by
    intro fuel junk addr
    rw [pgalloc, cint_symbol hReg, cint_natCast (by omega)]
  constructor
  · obtain ⟨fuel, hReturns⟩ := search_returns h (by omega) hSize hSmall
    refine ⟨fuel, fun junk addr => ?_⟩
    obtain ⟨value, t, hOk, -⟩ := alloc_ok h hPages hStock hReg hReturns junk addr
    rw [hCall, hOk]
    simp
  · intro fuel junk addr
    rw [hCall]
    by_cases hReturns : getFreeVmrgArea fuel 0 size s = .undefined
    · left
      rw [alloc, hReturns]
    · obtain ⟨value, t, hOk, hStocked⟩ := alloc_ok h hPages hStock hReg hReturns junk addr
      exact Or.inr ⟨value, t, hOk, hStocked, alloc_holds h hPages hReg hSize hOk⟩

end Alloc

end Btlos
