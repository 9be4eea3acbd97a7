import Btlos.Vm.Sharing

/-! Which cell of RAM an access goes to. Since `PAGING_FPN` reads two bits of the
frame number and finds 0 in every entry that is stored, the page of the access
plays no part in it. -/
namespace Btlos

/-- The cell of RAM that an access to a symbol goes to. Only the offset of the
virtual address in its page counts, and the number of the next free frame. -/
def ramCell (s : Caller) (rgid offset : Int) : Int :=
  let frame := s.mram.freeFpList.headD 0
  frame / 256 % 4 * 256 + cint ((s.mm.symrgtbl rgid).rgStart + offset) % 256

/-- As long as RAM has free frames no page is present, and the frame of a page
that is present decodes to 0. -/
def DecodesZero (s : Caller) : Prop :=
  ∀ pgn, pagingPagePresent (s.mm.pgd pgn) = true →
    s.mram.freeFpList = [] ∧ pagingFpn (s.mm.pgd pgn) = 0

/-- What requests for pages keep: they never touch the bytes in RAM. -/
structure KeepsCells (s t : Caller) : Prop where
  storage : t.mram.storage = s.mram.storage
  drained : s.mram.freeFpList = [] → t.mram.freeFpList = []
  decodes : DecodesZero t

theorem KeepsCells.refl {s : Caller} (h : DecodesZero s) : KeepsCells s s := ⟨rfl, id, h⟩

theorem KeepsCells.trans {s t u : Caller} (h : KeepsCells s t) (h' : KeepsCells t u) :
    KeepsCells s u :=
  ⟨h'.storage.trans h.storage, fun hNone => h'.drained (h.drained hNone), h'.decodes⟩

/-- Then the frame of every page is the one that the next free frame decodes to, and 0
once there is none. -/
theorem DecodesZero.frameOf_eq {s : Caller} (h : DecodesZero s) (pgn : Int) :
    s.frameOf pgn = s.mram.freeFpList.headD 0 / 256 % 4 := by
  unfold Caller.frameOf
  split_ifs with hPresent
  · obtain ⟨hNone, hZero⟩ := h pgn hPresent
    rw [hZero, hNone]
    rfl
  · rfl

theorem pgGetpage_keepsCells {s : Caller} {pgn : Int} {call : Outcome Caller Int}
    (h : DecodesZero s) (hEnd : PgEnd s pgn call) : call.Ends (KeepsCells s) := by
  cases hEnd with
  | undefined => trivial
  | badPage | noVictim => exact KeepsCells.refl h
  | noSwapFrame | resident => exact ⟨rfl, id, h⟩
  | freeFrame frame rest pages hPgn hPresent hFrame hLru =>
      refine ⟨rfl, fun hNone => absurd hFrame (by simp [hNone]), fun other hOther => ?_⟩
      exact absurd hFrame (by simp [(h other hOther).1])
  | replaced pages victim frame rest mram mswp hPgn hPresent hFrame hLru hPages hSwap hRam hStorage
      hMswp =>
      have hNone : mram.freeFpList = [] := hRam.freeFpList.trans hFrame
      refine ⟨hStorage, fun _ => hNone, fun other hOther => ⟨hNone, ?_⟩⟩
      simp only [Function.update_apply] at hOther ⊢
      split_ifs at hOther ⊢
      · have hBounds := pagingFpn_bounds (s.mm.pgd victim)
        rw [pagingFpn_pteSetFpn]
        omega
      · simp [pteSwappedTo] at hOther
      · exact (h other hOther).2

/-- So allocations and releases keep the bytes in RAM too. -/
theorem keepsCells_pagingInvariant (s : Caller) : PagingInvariant (KeepsCells s) where
  samePaging := by
    rintro t u ⟨hPgd, -, hMram, -⟩ ⟨hStorage, hDrained, hDecodes⟩
    refine ⟨?_, ?_, ?_⟩
    · rw [hMram]
      exact hStorage
    · rw [hMram]
      exact hDrained
    · rw [DecodesZero, hPgd, hMram]
      exact hDecodes
  page := fun junk pgn t h =>
    (pgGetpage_keepsCells h.decodes (pgGetpage_cases junk pgn t)).mono fun _ h' => h.trans h'

/-- A successful access goes to its cell, through a state that differs by paging. -/
private theorem access_cell {s t : Caller} {junk : Byte} {rgid offset phy : Int}
    (h : DecodesZero s) (hPhy : accessPhy junk rgid offset s = .ok phy t) :
    KeepsCells s t ∧ phy = ramCell s rgid offset := by
  have hKeeps := (keepsCells_pagingInvariant s).accessPhy (KeepsCells.refl h) junk rgid offset
  rw [hPhy] at hKeeps
  refine ⟨hKeeps, ?_⟩
  rcases accessAddr_cases rgid offset s with hCall | hCall | ⟨-, hAddr⟩
  · simp [accessPhy, hCall] at hPhy
  · simp [accessPhy, hCall] at hPhy
  · rcases accessPhy_cases junk hAddr with hCall | ⟨_, hCall, -⟩ | ⟨_, hCall, -⟩
    · simp [hCall] at hPhy
    · simp [hCall] at hPhy
    · obtain ⟨rfl, -⟩ := Outcome.ok.inj (hCall.symm.trans hPhy)
      rw [Caller.cellOf, h.frameOf_eq]
      rfl

/-- A read that succeeds gives the byte in its cell. -/
theorem read_ok {s t : Caller} {junk data : Byte} {rgid offset : Int} (h : DecodesZero s)
    (hRead : read junk 0 rgid offset s = .ok data t) :
    data = s.mram.storage (ramCell s rgid offset) ∧ KeepsCells s t := by
  rw [read_eq] at hRead
  obtain ⟨phy, middle, hPhy, hByte⟩ := Outcome.bind_eq_ok.mp hRead
  obtain ⟨mram, hMram, rfl⟩ := Outcome.lift_eq_ok.mp hByte
  obtain ⟨hKeeps, hCell⟩ := access_cell h hPhy
  obtain ⟨hValue, hSame, hStorage⟩ := memphyRead_ok hMram
  refine ⟨?_, hStorage.trans hKeeps.storage, ?_, ?_⟩
  · rw [hValue, hCell, hKeeps.storage]
  · exact fun hNone => hSame.freeFpList.trans (hKeeps.drained hNone)
  · intro pgn hPresent
    exact (hKeeps.decodes pgn hPresent).imp_left hSame.freeFpList.trans

/-- A write that succeeds changes the byte in its cell and no other. -/
theorem write_ok {s t : Caller} {junk data : Byte} {rgid offset : Int} {value : Unit}
    (h : DecodesZero s) (hWrite : write junk 0 rgid offset data s = .ok value t) :
    t.mram.storage = Function.update s.mram.storage (ramCell s rgid offset) data ∧
      (s.mram.freeFpList = [] → t.mram.freeFpList = []) ∧ DecodesZero t := by
  rw [write_eq] at hWrite
  obtain ⟨phy, middle, hPhy, hByte⟩ := Outcome.bind_eq_ok.mp hWrite
  obtain ⟨mram, hMram, rfl⟩ := Outcome.lift_eq_ok.mp hByte
  obtain ⟨hKeeps, hCell⟩ := access_cell h hPhy
  obtain ⟨hStorage, hSame⟩ := memphyWrite_ok hMram
  refine ⟨?_, ?_, ?_⟩
  · rw [hStorage, hCell, hKeeps.storage]
  · exact fun hNone => hSame.freeFpList.trans (hKeeps.drained hNone)
  · intro pgn hPresent
    exact (hKeeps.decodes pgn hPresent).imp_left hSame.freeFpList.trans

end Btlos
