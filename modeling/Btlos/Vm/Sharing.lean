import Btlos.Vm.Access

/-! Where the bytes of a process are. `PAGING_FPN` leaves four frames of RAM for all pages,
so bytes of different pages share a cell, and a request for one page may change the frame
of another. -/
namespace Btlos

/-- The byte in a cell, if the device has it. -/
def Memphy.byte? (mp : Memphy) (addr : Int) : Option Byte :=
  if mp.Has addr then some (mp.storage addr) else none

theorem Memphy.byte?_congr {mp mp' : Memphy} (hMaxsz : mp'.maxsz = mp.maxsz) {addr : Int}
    (hStorage : mp'.storage addr = mp.storage addr) : mp'.byte? addr = mp.byte? addr := by
  have hHas : mp'.Has addr ↔ mp.Has addr := by rw [Has, Has, hMaxsz]
  simp only [byte?, hHas, hStorage]

namespace Caller

/-- The frame that `pg_getpage` gives for a page. -/
def frameOf (s : Caller) (pgn : Int) : Int :=
  if pagingPagePresent (s.mm.pgd pgn) then pagingFpn (s.mm.pgd pgn)
  else s.mram.freeFpList.headD 0 / 256 % 4

/-- The frame that it gives for another page afterwards. A free frame that was taken makes
the next one the first, and the victim of a replacement is no longer present. -/
def frameAfter (s : Caller) (pgn other : Int) : Int :=
  if pagingPagePresent (s.mm.pgd pgn) then s.frameOf other
  else
    match s.mram.freeFpList with
    | _ :: rest =>
        if pagingPagePresent (s.mm.pgd other) then pagingFpn (s.mm.pgd other)
        else rest.headD 0 / 256 % 4
    | [] => if s.mm.lruPgn.victim? = some other then 0 else s.frameOf other

/-- The cell of RAM that an access to an address goes to. -/
def cellOf (s : Caller) (addr : Int) : Int := s.frameOf (pagingPgn addr) * 256 + addr % 256

/-- The cell of an address once the page `pgn` has been brought in. -/
def cellAfter (s : Caller) (pgn addr : Int) : Int :=
  s.frameAfter pgn (pagingPgn addr) * 256 + addr % 256

/-- The byte at an address. -/
def byteOf (s : Caller) (addr : Int) : Option Byte := s.mram.byte? (s.cellOf addr)

/-- A frame can be had for the page. A page that is absent needs a free frame of RAM, or
one of swap and a list of at least two recent pages. -/
def GetsPage (s : Caller) (pgn : Int) : Prop :=
  ∃ pages, s.mm.lruPgn = .nodes pages ∧
    (pagingPagePresent (s.mm.pgd pgn) = true ∨ s.mram.freeFpList ≠ [] ∨
      s.activeMswp.freeFpList ≠ [] ∧ 2 ≤ pages.length)

theorem frameOf_bounds (s : Caller) (pgn : Int) : 0 ≤ s.frameOf pgn ∧ s.frameOf pgn < 4 := by
  have hBounds := pagingFpn_bounds (s.mm.pgd pgn)
  unfold frameOf
  split_ifs <;> omega

section FrameAfter

variable {s : Caller} {pgn other : Int}

theorem frameAfter_present (hPresent : pagingPagePresent (s.mm.pgd pgn) = true) :
    s.frameAfter pgn other = s.frameOf other := by
  rw [frameAfter, if_pos hPresent]

theorem frameAfter_free {frame : Int} {rest : List Int}
    (hAbsent : pagingPagePresent (s.mm.pgd pgn) = false)
    (hFrame : s.mram.freeFpList = frame :: rest) :
    s.frameAfter pgn other =
      if pagingPagePresent (s.mm.pgd other) then pagingFpn (s.mm.pgd other)
      else rest.headD 0 / 256 % 4 := by
  simp only [frameAfter, hAbsent, hFrame, Bool.false_eq_true, if_false]

theorem frameAfter_evict {pages : List Int} {victim : Int}
    (hAbsent : pagingPagePresent (s.mm.pgd pgn) = false) (hFrame : s.mram.freeFpList = [])
    (hLru : s.mm.lruPgn = .nodes (pages ++ [victim])) :
    s.frameAfter pgn other = if victim = other then 0 else s.frameOf other := by
  simp only [frameAfter, hAbsent, hFrame, hLru, PgnList.victim?_concat, Bool.false_eq_true,
    if_false, Option.some.injEq]

end FrameAfter

/-- A request that is answered has brought in its page, and touched no byte of RAM. -/
structure BringsIn (s : Caller) (pgn fpn : Int) (t : Caller) : Prop where
  gets : s.GetsPage pgn
  frame : fpn = s.frameOf pgn
  others : ∀ other, t.frameOf other = s.frameAfter pgn other
  storage : t.mram.storage = s.mram.storage
  maxsz : t.mram.maxsz = s.mram.maxsz

end Caller

variable {s t : Caller} {junk : Byte} {pgn fpn : Int}

theorem pgGetpage_bringsIn (hOk : pgGetpage junk pgn s = .ok fpn t) : s.BringsIn pgn fpn t := by
  have hEnd := pgGetpage_cases junk pgn s
  rw [hOk] at hEnd
  generalize hResult : (Outcome.ok fpn t : Outcome Caller Int) = result at hEnd
  cases hEnd with
  | undefined | badPage | noVictim | noSwapFrame => simp at hResult
  | resident pages hPgn hPresent hLru =>
      obtain ⟨rfl, rfl⟩ := Outcome.ok.inj hResult
      refine ⟨⟨pages, hLru, Or.inl hPresent⟩, ?_, fun other => ?_, rfl, rfl⟩
      · rw [Caller.frameOf, if_pos hPresent]
      · rw [Caller.frameAfter_present hPresent]
        rfl
  | freeFrame frame rest pages hPgn hPresent hFrame hLru =>
      obtain ⟨rfl, rfl⟩ := Outcome.ok.inj hResult
      refine ⟨⟨pages, hLru, Or.inr (Or.inl (by simp [hFrame]))⟩, ?_, fun other => ?_, rfl, rfl⟩
      · simp only [Caller.frameOf, hPresent, hFrame, Bool.false_eq_true, if_false,
          List.headD_cons]
      · rw [Caller.frameAfter_free hPresent hFrame]
        rfl
  | replaced pages victim frame rest mram mswp hPgn hPresent hFrame hLru hPages hSwap hRam hStorage
      hMswp =>
      obtain ⟨rfl, rfl⟩ := Outcome.ok.inj hResult
      have hTwo : 2 ≤ (pages ++ [victim]).length := by
        have hSome := List.length_pos_iff.mpr hPages
        simp only [List.length_append, List.length_singleton]
        omega
      have hNone : mram.freeFpList = [] := hRam.freeFpList.trans hFrame
      have hHere : s.frameOf pgn = 0 := by
        simp [Caller.frameOf, hPresent, hFrame]
      refine ⟨⟨_, hLru, Or.inr (Or.inr ⟨by simp [hSwap], hTwo⟩)⟩, hHere.symm, fun other => ?_,
        hStorage, hRam.maxsz⟩
      have hBounds := pagingFpn_bounds (s.mm.pgd victim)
      rw [Caller.frameAfter_evict hPresent hFrame hLru]
      simp only [Caller.frameOf, hNone, List.headD_nil]
      by_cases hPage : other = pgn
      · subst hPage
        rw [Function.update_self, pagingPagePresent_pteSetFpn, if_pos rfl, pagingFpn_pteSetFpn]
        simp only [hPresent, hFrame, Bool.false_eq_true, if_false, List.headD_nil]
        split_ifs <;> omega
      · rw [Function.update_of_ne hPage]
        by_cases hVictim : victim = other
        · subst hVictim
          rw [Function.update_self, if_pos rfl, pteSwappedTo, pagingPagePresent_pteEvicted]
          rfl
        · rw [Function.update_of_ne (Ne.symm hVictim), if_neg hVictim, hFrame]
          rfl

/-- On random-access devices every page that can be had is brought in. -/
theorem Caller.GetsPage.bringsIn (h : s.GetsPage pgn) (hPgn : 0 ≤ pgn ∧ pgn < pagingMaxPgn)
    (hRam : s.mram.rdmflg = true) (hSwap : s.activeMswp.rdmflg = true) (junk : Byte) :
    ∃ fpn t, pgGetpage junk pgn s = .ok fpn t := by
  obtain ⟨pages, hLru, hHad⟩ := h
  have hReturns := pgGetpage_returns junk pgn hRam hSwap hLru <|
    hHad.imp_right fun hHad => hHad.imp_right fun hHad => Or.inr (by omega)
  have hEnd := pgGetpage_cases junk pgn s
  generalize hCall : pgGetpage junk pgn s = call at hEnd hReturns ⊢
  cases hEnd with
  | undefined => exact absurd rfl hReturns
  | badPage hBad => omega
  | noVictim _ hAbsent hFrame hEmpty =>
      obtain rfl : pages = [] := PgnList.nodes.inj (hLru.symm.trans hEmpty)
      simp [hAbsent, hFrame] at hHad
  | noSwapFrame _ _ _ hAbsent hFrame _ hNone => simp [hAbsent, hFrame, hNone] at hHad
  | resident | freeFrame | replaced => exact ⟨_, _, rfl⟩

/-- A request that fails moves no byte. -/
theorem pgGetpage_fail_byteOf (hFail : pgGetpage junk pgn s = .fail t) (addr : Int) :
    t.byteOf addr = s.byteOf addr := by
  have hEnd := pgGetpage_cases junk pgn s
  rw [hFail] at hEnd
  generalize hResult : (Outcome.fail t : Outcome Caller Int) = result at hEnd
  cases hEnd with
  | undefined | resident | freeFrame | replaced => simp at hResult
  | badPage | noVictim | noSwapFrame =>
      obtain rfl := Outcome.fail.inj hResult
      rfl

section Access

variable {rgid offset addr : Int}

theorem Caller.BringsIn.cellOf (h : s.BringsIn pgn fpn t) (addr : Int) :
    t.cellOf addr = s.cellAfter pgn addr := by
  rw [Caller.cellOf, h.others, Caller.cellAfter]

theorem Caller.BringsIn.byteOf (h : s.BringsIn pgn fpn t) (addr : Int) :
    t.byteOf addr = s.mram.byte? (s.cellAfter pgn addr) := by
  rw [Caller.byteOf, h.cellOf]
  exact Memphy.byte?_congr h.maxsz (congrFun h.storage _)

/-- An access that gets past the check either gets its page and goes to the cell of its
address, or it moves no byte. -/
theorem accessPhy_cases (junk : Byte) (hAddr : accessAddr 0 rgid offset s = .ok addr s) :
    accessPhy junk rgid offset s = .undefined ∨
      (∃ t, accessPhy junk rgid offset s = .fail t ∧ ∀ other, t.byteOf other = s.byteOf other) ∨
      ∃ t, accessPhy junk rgid offset s = .ok (s.cellOf addr) t ∧
        s.BringsIn (pagingPgn addr) (s.frameOf (pagingPgn addr)) t := by
  rw [accessPhy, hAddr, Outcome.bind_ok]
  cases hCall : pgGetpage junk (pagingPgn addr) s with
  | undefined => exact Or.inl rfl
  | fail t => exact Or.inr (Or.inl ⟨t, rfl, pgGetpage_fail_byteOf hCall⟩)
  | ok fpn t =>
      have hBrings := pgGetpage_bringsIn hCall
      obtain rfl := hBrings.frame
      refine Or.inr (Or.inr ⟨t, ?_, hBrings⟩)
      rw [Outcome.bind_ok, phyAddr_eq (s.frameOf_bounds _) (pagingOffst_bounds addr),
        pagingOffst_eq, Caller.cellOf]

theorem Caller.GetsPage.accessPhy (h : s.GetsPage (pagingPgn addr)) (junk : Byte)
    (hAddr : accessAddr 0 rgid offset s = .ok addr s) (hRam : s.mram.rdmflg = true)
    (hSwap : s.activeMswp.rdmflg = true) :
    ∃ t, accessPhy junk rgid offset s = .ok (s.cellOf addr) t ∧
      s.BringsIn (pagingPgn addr) (s.frameOf (pagingPgn addr)) t := by
  obtain ⟨fpn, t, hPage⟩ := h.bringsIn (pagingPgn_bounds addr) hRam hSwap junk
  have hPhy : Btlos.accessPhy junk rgid offset s = .ok (phyAddr fpn (pagingOffst addr)) t := by
    rw [Btlos.accessPhy, hAddr, Outcome.bind_ok, hPage, Outcome.bind_ok]
  rcases accessPhy_cases junk hAddr with hCall | ⟨_, hCall, -⟩ | hBrings
  · cases hPhy.symm.trans hCall
  · cases hPhy.symm.trans hCall
  · exact hBrings

/-- A read that succeeds gives the byte at its address. -/
theorem read_byteOf {data : Byte} (hAddr : accessAddr 0 rgid offset s = .ok addr s)
    (hRead : read junk 0 rgid offset s = .ok data t) : s.byteOf addr = some data := by
  rw [read_eq] at hRead
  obtain ⟨phy, middle, hPhy, hByte⟩ := Outcome.bind_eq_ok.mp hRead
  obtain ⟨mram, hMram, rfl⟩ := Outcome.lift_eq_ok.mp hByte
  rcases accessPhy_cases junk hAddr with hCall | ⟨_, hCall, -⟩ | ⟨t', hCall, hBrings⟩
  · simp [hCall] at hPhy
  · simp [hCall] at hPhy
  · obtain ⟨rfl, rfl⟩ := Outcome.ok.inj (hCall.symm.trans hPhy)
    have hHas : t'.mram.Has (s.cellOf addr) := by
      by_contra hOut
      rw [memphyRead_outside hOut] at hMram
      split_ifs at hMram
    rw [Caller.byteOf, ← Memphy.byte?_congr hBrings.maxsz (congrFun hBrings.storage _),
      Memphy.byte?, if_pos hHas, (memphyRead_ok hMram).1]

/-- The byte at an address after an access to a cell of RAM. -/
private theorem byteOf_mram {mram : Memphy} (hSame : t.mram.SameFrames mram) (addr : Int) :
    ({ t with mram := mram } : Caller).byteOf addr = mram.byte? (t.cellOf addr) := by
  simp only [Caller.byteOf, Caller.cellOf, Caller.frameOf, hSame.freeFpList]

/-- A read keeps a byte that bringing in the page keeps. -/
theorem read_keeps (junk : Byte) (hAddr : accessAddr 0 rgid offset s = .ok addr s) {other : Int}
    (hKept : s.GetsPage (pagingPgn addr) →
      s.mram.byte? (s.cellAfter (pagingPgn addr) other) = s.byteOf other) :
    (read junk 0 rgid offset s).Ends fun t => t.byteOf other = s.byteOf other := by
  rw [read_eq]
  rcases accessPhy_cases junk hAddr with hCall | ⟨t, hCall, hSame⟩ | ⟨t, hCall, hBrings⟩
  · rw [hCall]
    trivial
  · rw [hCall]
    exact hSame other
  · rw [hCall, Outcome.bind_ok]
    refine Outcome.Ends.lift ((memphyRead_ends t.mram _).mono fun mram hMram => ?_)
    rw [byteOf_mram hMram.1, Memphy.byte?_congr hMram.1.maxsz (congrFun hMram.2 _)]
    exact (hBrings.byteOf other).trans (hKept hBrings.gets)

/-- What a write leaves of a byte, once it has got its page. -/
theorem write_byteOf (value : Byte) {middle : Caller}
    (hPhy : accessPhy junk rgid offset s = .ok (s.cellOf addr) middle)
    (hBrings : s.BringsIn (pagingPgn addr) fpn middle) (other : Int) :
    ∃ t, (write junk 0 rgid offset value s).state? = some t ∧
      t.byteOf other =
        if s.mram.Has (s.cellOf addr) ∧ s.cellOf addr = s.cellAfter (pagingPgn addr) other then
          some value
        else s.mram.byte? (s.cellAfter (pagingPgn addr) other) := by
  have hHas : middle.mram.Has (s.cellOf addr) ↔ s.mram.Has (s.cellOf addr) := by
    rw [Memphy.Has, Memphy.Has, hBrings.maxsz]
  rw [write_eq, hPhy, Outcome.bind_ok]
  by_cases hIn : s.mram.Has (s.cellOf addr)
  · have hSame := (middle.mram.sameFrames_accessed (s.cellOf addr)).store
      (Function.update middle.mram.storage (s.cellOf addr) value)
    rw [memphyWrite_inside (hHas.mpr hIn)]
    refine ⟨_, rfl, ?_⟩
    rw [byteOf_mram hSame, hBrings.cellOf]
    by_cases hCell : s.cellOf addr = s.cellAfter (pagingPgn addr) other
    · rw [if_pos ⟨hIn, hCell⟩, ← hCell, Memphy.byte?, if_pos (hSame.has (hHas.mpr hIn))]
      exact congrArg some (Function.update_self ..)
    · rw [if_neg fun h => hCell h.2]
      apply Memphy.byte?_congr (hSame.maxsz.trans hBrings.maxsz)
      exact (Function.update_of_ne (Ne.symm hCell) _ _).trans (congrFun hBrings.storage _)
  · rw [memphyWrite_outside fun h => hIn (hHas.mp h), if_neg fun h => hIn h.1]
    refine ⟨_, rfl, ?_⟩
    rw [byteOf_mram .rfl, hBrings.cellOf]
    exact Memphy.byte?_congr hBrings.maxsz (congrFun hBrings.storage _)

/-- A write keeps such a byte too, unless it stores to the cell where the byte is then. -/
theorem write_keeps (junk value : Byte) (hAddr : accessAddr 0 rgid offset s = .ok addr s)
    {other : Int}
    (hKept : s.GetsPage (pagingPgn addr) →
      (s.mram.Has (s.cellOf addr) → s.cellOf addr ≠ s.cellAfter (pagingPgn addr) other) ∧
        s.mram.byte? (s.cellAfter (pagingPgn addr) other) = s.byteOf other) :
    (write junk 0 rgid offset value s).Ends fun t => t.byteOf other = s.byteOf other := by
  rcases accessPhy_cases junk hAddr with hCall | ⟨t, hCall, hSame⟩ | ⟨middle, hCall, hBrings⟩
  · rw [write_eq, hCall]
    trivial
  · rw [write_eq, hCall]
    exact hSame other
  · obtain ⟨t, hState, hByte⟩ := write_byteOf value hCall hBrings other
    obtain ⟨hApart, hSame⟩ := hKept hBrings.gets
    rw [if_neg fun h => hApart h.1 h.2, hSame] at hByte
    refine Outcome.ends_iff.mpr fun u hEnd => ?_
    obtain rfl := Option.some.inj (hState.symm.trans hEnd)
    exact hByte

end Access

end Btlos
