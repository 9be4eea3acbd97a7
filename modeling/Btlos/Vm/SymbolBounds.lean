import Btlos.Vm.FailedCalls
import Btlos.Vm.Sharing

/-! Where the instructions index the symbol table. `get_symrg_byid` and `__free` let
one index past its end through, and `__alloc` checks none. -/
namespace Btlos

open Transition

/-- The index that `get_symrg_byid` uses, if it uses one. `__free` makes the same test
before, and clears the entry that it got. -/
def getSymrgIndexes (rgid : Int) : List Int :=
  if rgid < 0 ∨ rgid > pagingMaxSymtblSz then [] else [rgid]

/-- `__alloc` uses its index once it has a region: a free one, the gap, or new pages. -/
def allocIndexes (fuel : Nat) (junk : Byte) (rgid size : Int) (s : Caller) : List Int :=
  match getFreeVmrgArea fuel 0 size s with
  | .undefined => []
  | .ok _ _ => [rgid]
  | .fail s =>
      if brkGap s ≥ size then [rgid]
      else
        match incVmaLimit junk 0 (brkIncSz s size) s with
        | .ok _ _ => [rgid]
        | _ => []

/-- The indexes that a call uses of the symbol table. -/
def MemCall.indexes (u : Uninit) (s : Caller) : MemCall → List Int
  | pgalloc size regIndex => allocIndexes u.fuel u.junk (cint regIndex) (cint size) s
  | pgfreeData regIndex => getSymrgIndexes (cint regIndex)
  | pgread source offset destination => getSymrgIndexes (cint source) ++
      match read u.junk 0 (cint source) (cint offset) s with
      | .undefined => []
      | _ => getSymrgIndexes (cint destination)
  | pgwrite _ destination _ => getSymrgIndexes (cint destination)

/-- The symbols that a call names. -/
def MemCall.names : MemCall → List Int
  | pgalloc _ regIndex => [cint regIndex]
  | pgfreeData regIndex => [cint regIndex]
  | pgread source _ destination => [cint source, cint destination]
  | pgwrite _ destination _ => [cint destination]

/-- The same symbol table, list of recent pages, page table and area. -/
structure Caller.SameTables (s t : Caller) : Prop where
  symrgtbl : t.mm.symrgtbl = s.mm.symrgtbl
  lruPgn : t.mm.lruPgn = s.mm.lruPgn
  pgd : t.mm.pgd = s.mm.pgd
  mmap : t.mm.mmap = s.mm.mmap

/-- A call indexes the table within its bounds, and returns -1 without an effect if it
names another symbol. -/
structure MemCall.SymbolsBounded (u : Uninit) (call : MemCall) (s : Caller) : Prop where
  within : ∀ rgid ∈ call.indexes u s, rgid ∈ symbols
  other : (∃ rgid ∈ call.names, rgid ∉ symbols) → ∃ t, call.run u s = .fail t ∧ s.SameTables t

/-! The condition -/

/-- The page is the first on the list and a frame can be had for it, so that a request
changes neither the list nor the page table. -/
def Caller.PageFirst (s : Caller) (pgn : Int) : Prop :=
  (∃ rest, s.mm.lruPgn = .nodes (pgn :: rest)) ∧
    (pagingPagePresent (s.mm.pgd pgn) = true ∨ s.mram.freeFpList ≠ [])

/-- No frame can be had for the page, and none be taken from another. -/
def Caller.PageRefused (s : Caller) (pgn : Int) : Prop :=
  s.mm.lruPgn = .nodes [] ∧ pagingPagePresent (s.mm.pgd pgn) = false ∧ s.mram.freeFpList = []

/-- Storing a byte at the start of a symbol has no effect on list and table. -/
def Caller.StoreIdle (s : Caller) (destination : Int) : Prop :=
  ∀ addr, accessAddr 0 (cint destination) (cint 0) s = .ok addr s →
    s.PageFirst (pagingPgn addr) ∨ s.PageRefused (pagingPgn addr)

/-- Loading a byte is refused without such an effect. -/
def Caller.LoadRefused (s : Caller) (source offset : Int) : Prop :=
  ∀ addr, accessAddr 0 (cint source) (cint offset) s = .ok addr s →
    s.PageRefused (pagingPgn addr) ∨ s.PageFirst (pagingPgn addr) ∧ s.mram.rdmflg = true ∧
      s.mram.maxsz ≤ phyAddr (s.frameOf (pagingPgn addr)) (pagingOffst addr)

/-- ALLOC names a symbol of the table. The others do not name the one past its end,
and where READ names one symbol of the table and one that is not, the access to the
first comes to nothing too. -/
def MemCall.StaysInTable (s : Caller) : MemCall → Prop
  | pgalloc _ regIndex => cint regIndex ∈ symbols
  | pgfreeData regIndex => cint regIndex ≠ pagingMaxSymtblSz
  | pgread source offset destination =>
      (cint source ≠ pagingMaxSymtblSz ∧ cint destination ≠ pagingMaxSymtblSz) ∧
      (cint source ∈ symbols → cint destination ∉ symbols → s.LoadRefused source offset) ∧
      (cint source ∉ symbols → cint destination ∈ symbols → s.StoreIdle destination)
  | pgwrite _ destination _ => cint destination ≠ pagingMaxSymtblSz

/-- An instruction, with what uninitialised variables hold during it. One without a
defined result leaves no state. -/
def Attempt (s : Option Caller) (label : Uninit × MemCall) (t : Option Caller) : Prop :=
  ∃ c, s = some c ∧ t = (label.2.run label.1 c).state?

theorem Caller.SameTables.rfl {s : Caller} : s.SameTables s := ⟨by rfl, by rfl, by rfl, by rfl⟩

/-! Indexes past the end -/

section Outside

variable {rgid : Int} {s : Caller}

theorem mem_getSymrgIndexes {index : Int} :
    index ∈ getSymrgIndexes rgid ↔ index = rgid ∧ 0 ≤ rgid ∧ rgid ≤ pagingMaxSymtblSz := by
  rw [getSymrgIndexes]
  split_ifs with hOut
  · have : ¬ (0 ≤ rgid ∧ rgid ≤ pagingMaxSymtblSz) := by omega
    simp [this]
  · have : 0 ≤ rgid ∧ rgid ≤ pagingMaxSymtblSz := by omega
    simp [this]

/-- The one index that the test lets through and the table does not have. -/
theorem getSymrgIndexes_subset :
    (∀ index ∈ getSymrgIndexes rgid, index ∈ symbols) ↔ rgid ≠ pagingMaxSymtblSz := by
  simp only [mem_getSymrgIndexes, mem_symbols]
  constructor
  · rintro h rfl
    have := (h pagingMaxSymtblSz ⟨rfl, by decide, Int.le_refl _⟩).2
    omega
  · rintro hNe index ⟨rfl, hLow, hHigh⟩
    omega

theorem getSymrgByid_outside (h : rgid ∉ symbols) :
    getSymrgByid rgid s = if rgid = pagingMaxSymtblSz then .undefined else .fail s := by
  have hTop : pagingMaxSymtblSz = 30 := rfl
  rw [mem_symbols] at h
  by_cases hLast : rgid = pagingMaxSymtblSz
  · rw [getSymrgByid, if_neg (by omega), if_pos hLast, if_pos hLast]
  · rw [getSymrgByid, if_pos (by omega), if_neg hLast]

/-- An access to a symbol that the table does not have. -/
theorem accessAddr_outside (h : rgid ∉ symbols) (offset : Int) :
    accessAddr 0 rgid offset s = if rgid = pagingMaxSymtblSz then .undefined else .fail s := by
  rw [accessAddr, getSymrgByid_outside h]
  split_ifs <;> rfl

theorem accessAddr_inside (h : rgid ∈ symbols) (offset : Int) :
    accessAddr 0 rgid offset s = .fail s ∨ ∃ addr, accessAddr 0 rgid offset s = .ok addr s := by
  rw [mem_symbols] at h
  rw [accessAddr, getSymrgByid, if_neg (by omega), if_neg (by omega)]
  simp only [getVmaByNum_zero]
  split_ifs
  · exact Or.inl rfl
  · rw [Outcome.bind_ok]
    split_ifs
    · exact Or.inl rfl
    · exact Or.inr ⟨_, rfl⟩

theorem free_outside (h : rgid ∉ symbols) :
    free 0 rgid s = if rgid = pagingMaxSymtblSz then .undefined else .fail s := by
  have hTop : pagingMaxSymtblSz = 30 := rfl
  by_cases hOut : rgid < 0 ∨ rgid > pagingMaxSymtblSz
  · rw [free, if_pos hOut, if_neg (by omega)]
  · rw [free, if_neg hOut, getSymrgByid_outside h]
    split_ifs <;> rfl

theorem read_outside (h : rgid ∉ symbols) (junk : Byte) (offset : Int) :
    read junk 0 rgid offset s = if rgid = pagingMaxSymtblSz then .undefined else .fail s := by
  rw [read, accessAddr_outside h]
  split_ifs <;> rfl

theorem write_outside (h : rgid ∉ symbols) (junk : Byte) (offset : Int) (value : Byte) :
    write junk 0 rgid offset value s =
      if rgid = pagingMaxSymtblSz then .undefined else .fail s := by
  rw [write, accessAddr_outside h]
  split_ifs <;> rfl

end Outside

/-! An allocation for a symbol that the table does not have -/

section Alloc

variable {fuel : Nat} {junk : Byte} {rgid size allocAddr : Int} {s t : Caller}

private theorem setSymrg_neverFails (rg : VmRg) : (s.setSymrg rgid rg).NeverFails := by
  intro last
  rw [Caller.setSymrg]
  split_ifs <;> simp

private theorem setSymrg_bind_neverFails (rg : VmRg) (addr : Int) :
    ((s.setSymrg rgid rg).bind fun _ s => .ok addr s).NeverFails :=
  (setSymrg_neverFails rg).bind fun _ _ _ => by simp

theorem allocAtBrk_eq (junk : Byte) (rgid size allocAddr : Int) (s : Caller) :
    allocAtBrk junk 0 rgid size allocAddr s =
      if brkGap s ≥ size then
        (takeBrk s.mm.mmap rgid size s).bind fun _ t => .ok allocAddr t
      else
        (incVmaLimit junk 0 (brkIncSz s size) s).bind fun _ t =>
          (takeBrk s.mm.mmap rgid size t).bind fun _ t => .ok (cint s.mm.mmap.sbrk) t := rfl

/-- A growth that fails has asked for a page. -/
theorem allocAtBrk_fail (hFail : allocAtBrk junk 0 rgid size allocAddr s = .fail t) :
    brkIncSz s size ≠ 0 := by
  intro hNone
  have hMap : incVmaLimit junk 0 (brkIncSz s size) s =
      .ok () (s.setVmEnd (ulong s.mm.mmap.vmEnd)) := by
    rw [incVmaLimit_zero, hNone, Int.add_zero]
    rfl
  rw [allocAtBrk_eq, hMap, Outcome.bind_ok] at hFail
  split_ifs at hFail
  · exact setSymrg_bind_neverFails _ _ t hFail
  · exact setSymrg_bind_neverFails _ _ t hFail

theorem incVmaLimit_symrgtbl (junk : Byte) (incSz : Int) (s : Caller) :
    (incVmaLimit junk 0 incSz s).Ends fun t => t.mm.symrgtbl = s.mm.symrgtbl := by
  rw [incVmaLimit_zero]
  exact (vmapPageRange_sameVm _ _ _ _).mono fun _ hSame => hSame.2

/-- An allocation that fails has raised the limit of the area. -/
theorem alloc_fail_mmap (hFail : alloc fuel junk 0 rgid size allocAddr s = .fail t) :
    t.mm.mmap ≠ s.mm.mmap := by
  intro hSame
  have hRaised : s.mm.mmap.vmEnd = brkRaised s size := by
    rw [← (alloc_failed_raised hFail).2, hSame]
  have hSome : brkIncSz s size ≠ 0 := by
    have hSearch := getFreeVmrgArea_samePaging fuel size s
    rw [alloc] at hFail
    cases hCall : getFreeVmrgArea fuel 0 size s with
    | undefined => simp [hCall] at hFail
    | ok rgnode middle =>
        rw [hCall] at hFail
        exact absurd hFail (setSymrg_bind_neverFails _ _ t)
    | fail middle =>
        rw [hCall] at hFail hSearch
        obtain ⟨-, hEnd, hSbrk⟩ := hSearch
        have hGrowth := allocAtBrk_fail hFail
        rwa [brkIncSz, brkGap, hEnd, hSbrk] at hGrowth
  have hInc : -2147483648 ≤ brkIncSz s size ∧ brkIncSz s size < 2147483648 := cint_bounds _
  rw [brkRaised, ulong] at hRaised
  omega

end Alloc

/-! Requests for a page that have no effect on list and table -/

section Page

variable {junk : Byte} {pgn fpn : Int} {s t : Caller}

theorem Caller.PageFirst.request (h : s.PageFirst pgn) (hPgn : 0 ≤ pgn ∧ pgn < pagingMaxPgn)
    (junk : Byte) : ∃ t, pgGetpage junk pgn s = .ok (s.frameOf pgn) t ∧ s.SameTables t ∧
      t.mram.maxsz = s.mram.maxsz ∧ t.mram.rdmflg = s.mram.rdmflg := by
  obtain ⟨⟨rest, hLru⟩, hFrame⟩ := h
  have hErase : pgn :: (pgn :: rest).erase pgn = pgn :: rest := by simp
  have hGood : ¬ (pgn < 0 ∨ pgn ≥ pagingMaxPgn) := by omega
  cases hPresent : pagingPagePresent (s.mm.pgd pgn) with
  | true =>
      refine ⟨s, ?_, .rfl, rfl, rfl⟩
      simp only [pgGetpage, if_neg hGood, hPresent, if_true, Outcome.bind_ok, hLru,
        enlistPgnNode_nodes, hErase, Outcome.lift_ok, s.setLru_self hLru, Caller.frameOf]
  | false =>
      obtain ⟨frame, frames, hFrames⟩ :=
        List.exists_cons_of_ne_nil (hFrame.resolve_left (by simp [hPresent]))
      refine ⟨{ s with mram := { s.mram with freeFpList := frames } }, ?_, ⟨rfl, rfl, rfl, rfl⟩,
        rfl, rfl⟩
      rw [pgGetpage_freeFrame junk hPgn hPresent hFrames hLru, hErase, s.setLru_self hLru,
        Caller.frameOf, hPresent, hFrames]
      rfl

theorem Caller.PageRefused.request (h : s.PageRefused pgn) (hPgn : 0 ≤ pgn ∧ pgn < pagingMaxPgn)
    (junk : Byte) : pgGetpage junk pgn s = .fail s := by
  obtain ⟨hLru, hPresent, hFrame⟩ := h
  have hGood : ¬ (pgn < 0 ∨ pgn ≥ pagingMaxPgn) := by omega
  simp only [pgGetpage, if_neg hGood, hPresent, Bool.false_eq_true, if_false, pgMakePresent,
    memphyGetFreefp, hFrame, pgReplace, hLru, findVictimPage_nil, Outcome.lift_fail,
    Outcome.bind_fail, s.setLru_self hLru]

/-- A list with its last page gone and another page in front is a different list. -/
private theorem concat_ne_front {pages : List Int} {victim : Int} (hPages : pages ≠ []) :
    pages ++ [victim] ≠ pgn :: pages.erase pgn := by
  intro hEq
  obtain ⟨first, rest, rfl⟩ := List.exists_cons_of_ne_nil hPages
  obtain ⟨rfl, -⟩ := List.cons.inj hEq
  have hLength := congrArg List.length hEq
  simp at hLength

/-- Such a request finds its page in front of the list, or fails for want of a frame. -/
theorem pgGetpage_sameLru (hPgn : 0 ≤ pgn ∧ pgn < pagingMaxPgn) :
    (∀ fpn t, pgGetpage junk pgn s = .ok fpn t → t.mm.lruPgn = s.mm.lruPgn → s.PageFirst pgn) ∧
      ∀ t, pgGetpage junk pgn s = .fail t → t.mm.lruPgn = s.mm.lruPgn → s.PageRefused pgn := by
  have hEnd := pgGetpage_cases junk pgn s
  generalize pgGetpage junk pgn s = call at hEnd
  have hFront : ∀ pages : List Int, PgnList.nodes (pgn :: pages.erase pgn) = s.mm.lruPgn →
      ∃ rest, s.mm.lruPgn = .nodes (pgn :: rest) := fun pages hSame => ⟨_, hSame.symm⟩
  cases hEnd with
  | undefined => simp
  | badPage hBad => omega
  | resident pages _ hPresent =>
      refine ⟨fun _ t hCall hSame => ?_, by simp⟩
      obtain ⟨-, rfl⟩ := Outcome.ok.inj hCall
      exact ⟨hFront pages hSame, Or.inl hPresent⟩
  | freeFrame frame rest pages _ hPresent hFrame =>
      refine ⟨fun _ t hCall hSame => ?_, by simp⟩
      obtain ⟨-, rfl⟩ := Outcome.ok.inj hCall
      exact ⟨hFront pages hSame, Or.inr (by simp [hFrame])⟩
  | noVictim _ hPresent hFrame hLru => exact ⟨by simp, fun _ _ _ => ⟨hLru, hPresent, hFrame⟩⟩
  | noSwapFrame pages victim _ _ _ hLru =>
      refine ⟨by simp, fun t hCall hSame => ?_⟩
      obtain rfl := Outcome.fail.inj hCall
      rw [hLru] at hSame
      simp only [Caller.setLru] at hSame
      split_ifs at hSame
      have hLength := congrArg List.length (PgnList.nodes.inj hSame)
      simp at hLength
  | replaced pages victim frame rest mram mswp _ _ _ hLru hPages =>
      refine ⟨fun _ t hCall hSame => ?_, by simp⟩
      obtain ⟨-, rfl⟩ := Outcome.ok.inj hCall
      rw [hLru] at hSame
      exact absurd (PgnList.nodes.inj hSame).symm (concat_ne_front hPages)

end Page

/-! Accesses that have no effect on list and table -/

section Access

variable {junk : Byte} {s : Caller}

theorem memphyRead_eq_fail {mp mp' : Memphy} {addr : Int} :
    memphyRead mp addr = .fail mp' ↔ mp.rdmflg = true ∧ ¬ mp.Has addr ∧ mp' = mp := by
  by_cases h : mp.Has addr
  · simp [memphyRead_inside h, h]
  · rw [memphyRead_outside h]
    cases mp.rdmflg <;> simp [h, eq_comm]

/-- The store of READ returns without an effect on list and table. -/
theorem store_idle_iff (data : Byte) {destination : Int} (h : cint destination ∈ symbols) :
    (∃ t, (pgwrite junk data destination 0 s).state? = some t ∧ s.SameTables t) ↔
      s.StoreIdle destination := by
  rw [pgwrite, write]
  rcases accessAddr_inside (s := s) h (cint 0) with hCall | ⟨addr, hCall⟩
  · rw [hCall]
    constructor
    · intro _ addr hOk
      simp [hCall] at hOk
    · exact fun _ => ⟨s, rfl, .rfl⟩
  have hPgn : 0 ≤ pagingPgn addr ∧ pagingPgn addr < pagingMaxPgn := pagingPgn_bounds addr
  rw [hCall, Outcome.bind_ok, pgSetval]
  constructor
  · rintro ⟨t, hState, hSame⟩ addr' hOk
    obtain rfl : addr = addr' := (Outcome.ok.inj (hCall.symm.trans hOk)).1
    cases hPage : pgGetpage junk (pagingPgn addr) s with
    | undefined => simp [hPage] at hState
    | fail middle =>
        obtain rfl : middle = t := by simpa [hPage] using hState
        exact Or.inr ((pgGetpage_sameLru hPgn).2 _ hPage hSame.lruPgn)
    | ok fpn middle =>
        rw [hPage, Outcome.bind_ok, Outcome.state?_lift, Option.map_eq_some_iff] at hState
        obtain ⟨mram, -, rfl⟩ := hState
        exact Or.inl ((pgGetpage_sameLru hPgn).1 _ middle hPage hSame.lruPgn)
  · intro hIdle
    rcases hIdle addr hCall with hFirst | hRefused
    · obtain ⟨t, hPage, hSame, -⟩ := hFirst.request hPgn junk
      have hWrites := memphyWrite_returns t.mram
        (phyAddr (s.frameOf (pagingPgn addr)) (pagingOffst addr)) data
      rw [hPage, Outcome.bind_ok]
      generalize memphyWrite t.mram _ data = call at hWrites
      cases call with
      | undefined => exact absurd rfl hWrites
      | ok value mram => exact ⟨_, rfl, hSame.symrgtbl, hSame.lruPgn, hSame.pgd, hSame.mmap⟩
      | fail mram => exact ⟨_, rfl, hSame.symrgtbl, hSame.lruPgn, hSame.pgd, hSame.mmap⟩
    · rw [hRefused.request hPgn]
      exact ⟨s, rfl, .rfl⟩

/-- The frame that a request gives and the offset are an address in RAM, or beyond it. -/
private theorem phyAddr_frameOf (addr : Int) :
    0 ≤ phyAddr (s.frameOf (pagingPgn addr)) (pagingOffst addr) := by
  have hFrame : 0 ≤ s.frameOf (pagingPgn addr) ∧ s.frameOf (pagingPgn addr) < 4 := by
    rw [Caller.frameOf]
    split_ifs
    · exact pagingFpn_bounds _
    · omega
  have hOffst := pagingOffst_bounds addr
  rw [phyAddr_eq hFrame hOffst]
  omega

/-- The load of READ fails without an effect on list and table. -/
theorem load_refused_iff {source offset : Int} (h : cint source ∈ symbols) :
    (∃ t, read junk 0 (cint source) (cint offset) s = .fail t ∧ s.SameTables t) ↔
      s.LoadRefused source offset := by
  rw [read]
  rcases accessAddr_inside (s := s) h (cint offset) with hCall | ⟨addr, hCall⟩
  · rw [hCall]
    constructor
    · intro _ addr hOk
      simp [hCall] at hOk
    · exact fun _ => ⟨s, rfl, .rfl⟩
  have hPgn : 0 ≤ pagingPgn addr ∧ pagingPgn addr < pagingMaxPgn := pagingPgn_bounds addr
  have hPhy := phyAddr_frameOf (s := s) addr
  rw [hCall, Outcome.bind_ok, pgGetval]
  constructor
  · rintro ⟨t, hFail, hSame⟩ addr' hOk
    obtain rfl : addr = addr' := (Outcome.ok.inj (hCall.symm.trans hOk)).1
    cases hPage : pgGetpage junk (pagingPgn addr) s with
    | undefined => simp [hPage] at hFail
    | fail middle =>
        obtain rfl : middle = t := by simpa [hPage] using hFail
        exact Or.inl ((pgGetpage_sameLru hPgn).2 _ hPage hSame.lruPgn)
    | ok fpn middle =>
        rw [hPage, Outcome.bind_ok] at hFail
        cases hRead : memphyRead middle.mram (phyAddr fpn (pagingOffst addr)) with
        | undefined => simp [hRead] at hFail
        | ok data mram => simp [hRead] at hFail
        | fail mram =>
            rw [hRead, Outcome.lift_fail] at hFail
            obtain rfl := Outcome.fail.inj hFail
            have hFirst : s.PageFirst (pagingPgn addr) :=
              (pgGetpage_sameLru hPgn).1 _ middle hPage hSame.lruPgn
            obtain ⟨t, hPage', -, hSize, hKind⟩ := hFirst.request hPgn junk
            obtain ⟨rfl, rfl⟩ := Outcome.ok.inj (hPage.symm.trans hPage')
            obtain ⟨hRandom, hOut, -⟩ := memphyRead_eq_fail.mp hRead
            rw [Memphy.Has] at hOut
            exact Or.inr ⟨hFirst, hKind.symm.trans hRandom, by omega⟩
  · intro hRefused
    rcases hRefused addr hCall with hNone | ⟨hFirst, hRandom, hOut⟩
    · rw [hNone.request hPgn]
      exact ⟨s, rfl, .rfl⟩
    · obtain ⟨t, hPage, hSame, hSize, hKind⟩ := hFirst.request hPgn junk
      have hOutside : ¬ t.mram.Has (phyAddr (s.frameOf (pagingPgn addr)) (pagingOffst addr)) :=
        fun hHas => absurd hHas.2 (by omega)
      have hRead := memphyRead_eq_fail.mpr ⟨hKind.trans hRandom, hOutside, rfl⟩
      rw [hPage, Outcome.bind_ok, hRead]
      exact ⟨t, rfl, hSame⟩

end Access

/-! READ -/

section Read

variable {junk data : Byte} {source offset destination : Int} {s middle t : Caller}

/-- After a read that failed, READ returns -1 whatever the store does. -/
theorem pgread_of_fail (hRead : read junk 0 (cint source) (cint offset) s = .fail middle) :
    pgread junk data source offset destination s = .fail t ↔
      (pgwrite junk data destination 0 middle).state? = some t := by
  rw [pgread, hRead]
  simp only
  cases pgwrite junk data destination 0 middle <;> simp

/-- READ fails only if its read does. -/
theorem pgread_eq_fail (hRead : pgread junk data source offset destination s = .fail t) :
    ∃ middle, read junk 0 (cint source) (cint offset) s = .fail middle := by
  cases hCall : read junk 0 (cint source) (cint offset) s with
  | undefined => simp [pgread, hCall] at hRead
  | fail middle => exact ⟨middle, rfl⟩
  | ok byte middle =>
      rw [pgread, hCall] at hRead
      exact absurd hRead (Outcome.neverFails_ignoreCode _ _ t)

end Read

/-! Whole instructions -/

section Call

variable {u : Uninit} {call : MemCall} {s t : Caller}

/-- What the indexes of an allocation are, by the way it ends. -/
private theorem alloc_indexes (fuel : Nat) (junk : Byte) (rgid size allocAddr : Int) (s : Caller) :
    allocIndexes fuel junk rgid size s = [rgid] ∧
        (alloc fuel junk 0 rgid size allocAddr s).Ends
          (fun t => ∀ other, other ≠ rgid → t.mm.symrgtbl other = s.mm.symrgtbl other) ∧
        (rgid ∉ symbols → alloc fuel junk 0 rgid size allocAddr s = .undefined) ∨
      allocIndexes fuel junk rgid size s = [] ∧
        (alloc fuel junk 0 rgid size allocAddr s).Ends
          fun t => t.mm.symrgtbl = s.mm.symrgtbl := by
  have hSet : ∀ (middle : Caller) (rg : VmRg) (addr : Int),
      middle.mm.symrgtbl = s.mm.symrgtbl →
      ((middle.setSymrg rgid rg).bind fun _ s => .ok addr s).Ends
          (fun t => ∀ other, other ≠ rgid → t.mm.symrgtbl other = s.mm.symrgtbl other) ∧
        (rgid ∉ symbols →
          ((middle.setSymrg rgid rg).bind fun _ s => .ok addr s) = .undefined) := by
    intro middle rg addr hTbl
    rw [mem_symbols, Caller.setSymrg]
    split_ifs with hIn
    · refine ⟨fun other hOther => ?_, fun hOut => absurd hIn hOut⟩
      exact (Function.update_of_ne hOther rg middle.mm.symrgtbl).trans (congrFun hTbl other)
    · exact ⟨trivial, fun _ => rfl⟩
  have hSearch := getFreeVmrgArea_ends fuel size s
  rw [allocIndexes, alloc]
  generalize getFreeVmrgArea fuel 0 size s = search at hSearch ⊢
  cases hSearch with
  | undefined => exact Or.inr ⟨rfl, trivial⟩
  | found newrg rgs => exact Or.inl ⟨rfl, hSet _ _ _ rfl⟩
  | missed newrg rgs =>
      have hMap := incVmaLimit_symrgtbl junk (brkIncSz (s.setVmFreergList rgs) size)
        (s.setVmFreergList rgs)
      simp only [allocAtBrk_eq]
      split_ifs
      · exact Or.inl ⟨rfl, hSet _ _ _ rfl⟩
      · generalize incVmaLimit junk 0 _ _ = mapped at hMap ⊢
        cases mapped with
        | undefined => exact Or.inr ⟨rfl, trivial⟩
        | fail middle => exact Or.inr ⟨rfl, hMap⟩
        | ok value middle => exact Or.inl ⟨rfl, hSet _ _ _ hMap⟩

theorem mem_allocIndexes {fuel : Nat} {junk : Byte} {rgid size index : Int}
    (h : index ∈ allocIndexes fuel junk rgid size s) : index = rgid := by
  rcases alloc_indexes fuel junk rgid size 0 s with ⟨hOne, -⟩ | ⟨hNone, -⟩
  · rw [hOne] at h
    exact List.mem_singleton.mp h
  · simp [hNone] at h

private theorem pgalloc_fail {size regIndex : Int}
    (h : (MemCall.pgalloc size regIndex).run u s = .fail t) :
    alloc u.fuel u.junk 0 (cint regIndex) (cint size) u.addr s = .fail t := by
  rw [MemCall.run, pgalloc] at h
  cases hCall : alloc u.fuel u.junk 0 (cint regIndex) (cint size) u.addr s with
  | undefined | ok => simp [hCall] at h
  | fail middle => simpa [hCall] using h

private theorem top_not_mem : pagingMaxSymtblSz ∉ symbols := by
  rw [mem_symbols]
  omega

/-- READ with one symbol of the table and one that is not. -/
private theorem pgread_names {source offset destination : Int}
    (h : ∃ rgid ∈ (MemCall.pgread source offset destination).names, rgid ∉ symbols) :
    cint source ∉ symbols ∨ cint source ∈ symbols ∧ cint destination ∉ symbols := by
  obtain ⟨rgid, hName, hOut⟩ := h
  by_cases hSource : cint source ∈ symbols
  · have hName' : rgid = cint source ∨ rgid = cint destination := by
      simpa [MemCall.names] using hName
    refine Or.inr ⟨hSource, ?_⟩
    rcases hName' with rfl | rfl
    · exact absurd hSource hOut
    · exact hOut
  · exact Or.inl hSource

private theorem pgread_bounded_iff {source offset destination : Int} :
    (MemCall.pgread source offset destination).SymbolsBounded u s ↔
      (MemCall.pgread source offset destination).StaysInTable s := by
  have hDestination : cint destination ∉ symbols → cint destination ≠ pagingMaxSymtblSz →
      ∀ middle, pgwrite u.junk u.data destination 0 middle = .fail middle := by
    intro hOut hNe middle
    rw [pgwrite, write_outside hOut, if_neg hNe]
  constructor
  · intro h
    have hSource : cint source ≠ pagingMaxSymtblSz :=
      getSymrgIndexes_subset.mp fun index hIndex => h.within index (List.mem_append_left _ hIndex)
    have hNe : cint destination ≠ pagingMaxSymtblSz := by
      intro hLast
      obtain ⟨t, hRun, -⟩ := h.other
        ⟨cint destination, by simp [MemCall.names], hLast ▸ top_not_mem⟩
      obtain ⟨middle, hRead⟩ := pgread_eq_fail hRun
      refine top_not_mem (h.within pagingMaxSymtblSz (List.mem_append_right _ ?_))
      rw [hRead]
      exact mem_getSymrgIndexes.mpr ⟨hLast.symm, by rw [hLast]; decide, Int.le_of_eq hLast⟩
    refine ⟨⟨hSource, hNe⟩, fun hIn hOut => ?_, fun hOut hIn => ?_⟩
    · obtain ⟨t, hRun, hSame⟩ := h.other ⟨cint destination, by simp [MemCall.names], hOut⟩
      obtain ⟨middle, hRead⟩ := pgread_eq_fail hRun
      have hStore := (pgread_of_fail hRead).mp hRun
      rw [hDestination hOut hNe] at hStore
      obtain rfl := Option.some.inj hStore
      exact (load_refused_iff hIn).mp ⟨middle, hRead, hSame⟩
    · obtain ⟨t, hRun, hSame⟩ := h.other ⟨cint source, by simp [MemCall.names], hOut⟩
      have hRead := read_outside (s := s) hOut u.junk (cint offset)
      rw [if_neg hSource] at hRead
      exact (store_idle_iff u.data hIn).mp ⟨t, (pgread_of_fail hRead).mp hRun, hSame⟩
  · rintro ⟨⟨hSource, hNe⟩, hLoad, hStore⟩
    constructor
    · intro index hIndex
      rcases List.mem_append.mp hIndex with hFirst | hSecond
      · exact getSymrgIndexes_subset.mpr hSource index hFirst
      · cases hRead : read u.junk 0 (cint source) (cint offset) s with
        | undefined => simp [hRead] at hSecond
        | ok | fail =>
            rw [hRead] at hSecond
            exact getSymrgIndexes_subset.mpr hNe index hSecond
    · intro hOther
      have hRun : ∀ t, (MemCall.pgread source offset destination).run u s = .fail t ↔
          pgread u.junk u.data source offset destination s = .fail t := fun _ => Iff.rfl
      simp only [hRun]
      rcases pgread_names hOther with hOut | ⟨hIn, hOut⟩
      · have hRead := read_outside (s := s) hOut u.junk (cint offset)
        rw [if_neg hSource] at hRead
        simp only [pgread_of_fail hRead]
        by_cases hIn : cint destination ∈ symbols
        · exact (store_idle_iff u.data hIn).mpr (hStore hOut hIn)
        · exact ⟨s, by rw [hDestination hIn hNe]; rfl, .rfl⟩
      · obtain ⟨t, hRead, hSame⟩ := (load_refused_iff hIn).mpr (hLoad hIn hOut)
        refine ⟨t, (pgread_of_fail hRead).mpr ?_, hSame⟩
        rw [hDestination hOut hNe]
        rfl

/-- The calls that test their symbol and then leave everything as it was. -/
private theorem single_bounded_iff {rgid : Int} (hNames : call.names = [rgid])
    (hIndexes : call.indexes u s = getSymrgIndexes rgid)
    (hRun : rgid ∉ symbols → rgid ≠ pagingMaxSymtblSz → call.run u s = .fail s) :
    call.SymbolsBounded u s ↔ rgid ≠ pagingMaxSymtblSz := by
  constructor
  · intro h
    exact getSymrgIndexes_subset.mp (hIndexes ▸ h.within)
  · intro hNe
    refine ⟨hIndexes ▸ getSymrgIndexes_subset.mpr hNe, ?_⟩
    rw [hNames]
    rintro ⟨other, hOther, hOut⟩
    obtain rfl := List.mem_singleton.mp hOther
    exact ⟨s, hRun hOut hNe, .rfl⟩

/-- A call that uses an index outside the table has no defined result. -/
theorem MemCall.run_undefined (h : ∃ index ∈ call.indexes u s, index ∉ symbols) :
    call.run u s = .undefined := by
  have hLast : ∀ {index rgid : Int}, index ∈ getSymrgIndexes rgid → index ∉ symbols →
      rgid ∉ symbols ∧ rgid = pagingMaxSymtblSz := by
    intro index rgid hIndex hOut
    obtain ⟨rfl, hLow, hHigh⟩ := mem_getSymrgIndexes.mp hIndex
    refine ⟨hOut, ?_⟩
    rw [mem_symbols] at hOut
    omega
  obtain ⟨index, hIndex, hOut⟩ := h
  cases call with
  | pgalloc size regIndex =>
      rw [MemCall.run, Btlos.pgalloc]
      rcases alloc_indexes u.fuel u.junk (cint regIndex) (cint size) u.addr s with
        ⟨-, -, hUndefined⟩ | ⟨hNone, -⟩
      · obtain rfl := mem_allocIndexes hIndex
        rw [hUndefined hOut]
        rfl
      · simp [MemCall.indexes, hNone] at hIndex
  | pgfreeData regIndex =>
      obtain ⟨hOut', hEq⟩ := hLast hIndex hOut
      rw [MemCall.run, Btlos.pgfreeData, free_outside hOut', if_pos hEq]
  | pgwrite data destination offset =>
      obtain ⟨hOut', hEq⟩ := hLast hIndex hOut
      rw [MemCall.run, Btlos.pgwrite, write_outside hOut', if_pos hEq]
  | pgread source offset destination =>
      rw [MemCall.run, Btlos.pgread]
      rcases List.mem_append.mp hIndex with hFirst | hSecond
      · obtain ⟨hOut', hEq⟩ := hLast hFirst hOut
        rw [read_outside hOut', if_pos hEq]
      · cases hRead : read u.junk 0 (cint source) (cint offset) s with
        | undefined => rfl
        | ok | fail =>
            rw [hRead] at hSecond
            obtain ⟨hOut', hEq⟩ := hLast hSecond hOut
            simp only [Btlos.pgwrite, write_outside hOut', if_pos hEq]
            rfl

/-- A call changes the table at the indexes that it uses only. -/
theorem MemCall.run_symrgtbl (u : Uninit) (call : MemCall) (s : Caller) :
    (call.run u s).Ends fun t =>
      ∀ index, index ∉ call.indexes u s → t.mm.symrgtbl index = s.mm.symrgtbl index := by
  cases call with
  | pgalloc size regIndex =>
      rw [MemCall.run, Btlos.pgalloc, MemCall.indexes]
      rcases alloc_indexes u.fuel u.junk (cint regIndex) (cint size) u.addr s with
        ⟨hOne, hEnds, -⟩ | ⟨-, hEnds⟩
      · rw [hOne]
        refine (hEnds.mono fun t ht index hIndex => ?_).bind fun _ _ hLast => hLast
        exact ht index (by simpa using hIndex)
      · exact (hEnds.mono fun t ht index _ => congrFun ht index).bind fun _ _ hLast => hLast
  | pgfreeData regIndex =>
      rw [MemCall.run, Btlos.pgfreeData, MemCall.indexes]
      by_cases hIn : cint regIndex ∈ symbols
      · have hIndexes : cint regIndex ∈ getSymrgIndexes (cint regIndex) := by
          rw [mem_symbols] at hIn
          exact mem_getSymrgIndexes.mpr ⟨rfl, hIn.1, Int.le_of_lt hIn.2⟩
        have hSet : ∀ index, index ∉ getSymrgIndexes (cint regIndex) → ∀ rg,
            Function.update s.mm.symrgtbl (cint regIndex) rg index = s.mm.symrgtbl index :=
          fun index hIndex rg => Function.update_of_ne
            (fun hEq : index = cint regIndex => hIndex (by rw [hEq]; exact hIndexes)) _ _
        exact free_rule (fun _ _ => rfl) (fun index hIndex => hSet index hIndex _)
          fun index hIndex => hSet index hIndex _
      · rw [free_outside hIn]
        split_ifs
        · trivial
        · exact fun _ _ => rfl
  | pgwrite data destination offset =>
      exact (write_sameVm u.junk _ _ data s).mono fun _ hSame index _ => congrFun hSame.2 index
  | pgread source offset destination =>
      exact (pgread_sameVm u.junk u.data source offset destination s).mono
        fun _ hSame index _ => congrFun hSame.2 index

/-- In any state, for every instruction. -/
theorem MemCall.symbolsBounded_iff (u : Uninit) (call : MemCall) (s : Caller) :
    call.SymbolsBounded u s ↔ call.StaysInTable s := by
  cases call with
  | pgalloc size regIndex =>
      constructor
      · intro h
        by_contra hOut
        obtain ⟨t, hRun, hSame⟩ := h.other ⟨cint regIndex, by simp [MemCall.names], hOut⟩
        exact alloc_fail_mmap (pgalloc_fail hRun) hSame.mmap
      · intro hIn
        refine ⟨fun index hIndex => mem_allocIndexes hIndex ▸ hIn, ?_⟩
        rintro ⟨other, hOther, hOut⟩
        obtain rfl : other = cint regIndex := by simpa [MemCall.names] using hOther
        exact absurd hIn hOut
  | pgfreeData regIndex =>
      refine single_bounded_iff rfl rfl fun hOut hNe => ?_
      rw [MemCall.run, Btlos.pgfreeData, free_outside hOut, if_neg hNe]
  | pgwrite data destination offset =>
      refine single_bounded_iff rfl rfl fun hOut hNe => ?_
      rw [MemCall.run, Btlos.pgwrite, write_outside hOut, if_neg hNe]
  | pgread source offset destination => exact pgread_bounded_iff

end Call

/-- In every run of instructions of a process, with any operands, each of them keeps
to the symbol table exactly if it meets the condition. -/
theorem symbolsBounded_run_iff (mram activeMswp : Memphy) (labels : List (Uninit × MemCall))
    (s : Option Caller) :
    Runs (Guarded Attempt fun s label => ∀ c ∈ s, label.2.SymbolsBounded label.1 c)
        (some (freshCaller mram activeMswp)) labels s ↔
      Runs (Guarded Attempt fun s label => ∀ c ∈ s, label.2.StaysInTable c)
        (some (freshCaller mram activeMswp)) labels s := by
  apply Runs.guarded_iff (fun _ => True) trivial (fun _ _ _ _ _ => trivial)
  intro s label _
  exact forall₂_congr fun c _ => label.2.symbolsBounded_iff label.1 c

/-- ALLOC of 100 bytes for symbol 30, the first instruction of a process: the table ends
at 29, and what follows it is the head of the list of recent pages. -/
theorem alloc_past_table :
    MemCall.indexes ⟨2, 0, 0, 0⟩ (freshCaller (initMemphy .zero 1024 1) (initMemphy .zero 4096 1))
        (.pgalloc 100 30) = [30] ∧
      ¬ (MemCall.pgalloc 100 30).SymbolsBounded ⟨2, 0, 0, 0⟩
        (freshCaller (initMemphy .zero 1024 1) (initMemphy .zero 4096 1)) := by
  have hIndexes : MemCall.indexes ⟨2, 0, 0, 0⟩
      (freshCaller (initMemphy .zero 1024 1) (initMemphy .zero 4096 1)) (.pgalloc 100 30) =
        [30] := by decide +kernel
  refine ⟨hIndexes, fun h => ?_⟩
  have hMem : (30 : Int) ∈ symbols := h.within 30
    (by rw [hIndexes]; exact List.mem_singleton_self 30)
  exact absurd hMem (by decide)

end Btlos
