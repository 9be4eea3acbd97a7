import Btlos.Vm.FirstFitLaw

/-! What one allocation or release can do to the areas and symbols of a process
whose regions are in order. Paging never touches them. -/
namespace Btlos

/-- The same areas and symbols; only paging may have happened. -/
def Caller.SameVm (s t : Caller) : Prop :=
  t.mm.mmap = s.mm.mmap ∧ t.mm.symrgtbl = s.mm.symrgtbl

theorem Caller.SameVm.rfl {s : Caller} : s.SameVm s := ⟨by rfl, by rfl⟩

theorem Caller.SameVm.trans {s t u : Caller} (h : s.SameVm t) (h' : t.SameVm u) : s.SameVm u :=
  ⟨h'.1.trans h.1, h'.2.trans h.2⟩

theorem pgGetpage_sameVm (junk : Byte) (pgn : Int) (s : Caller) :
    (pgGetpage junk pgn s).Ends s.SameVm := by
  have hEnd := pgGetpage_cases junk pgn s
  generalize pgGetpage junk pgn s = call at hEnd ⊢
  cases hEnd with
  | undefined => trivial
  | badPage | resident | freeFrame | noVictim | noSwapFrame | replaced => exact ⟨rfl, rfl⟩

theorem vmapPageRange_sameVm (junk : Byte) (pgnum : Nat) (addr : Int) (s : Caller) :
    (vmapPageRange junk pgnum addr s).Ends s.SameVm := by
  induction pgnum generalizing addr s with
  | zero => exact Caller.SameVm.rfl
  | succ pgnum ih =>
      apply (pgGetpage_sameVm junk (pagingPgn addr) s).bind
      intro _ middle hMiddle
      exact (ih _ middle).mono fun after hAfter => hMiddle.trans hAfter

/-! The ways in which an allocation ends -/

/-- The gap that `__alloc` computes, the size it grows the area by, and the limit
it then sets. -/
def brkGap (s : Caller) : Int := cint (s.mm.mmap.vmEnd - s.mm.mmap.sbrk)

def brkIncSz (s : Caller) (size : Int) : Int := pagingPageAlignsz (cint (size - brkGap s))

def brkRaised (s : Caller) (size : Int) : Int := ulong (s.mm.mmap.vmEnd + brkIncSz s size)

/-- The symbol gets the bytes from `sbrk` on, as `__alloc` computes them. -/
def Caller.takenAtBrk (s : Caller) (rgid size sbrk : Int) : Caller :=
  (s.setSbrk (ulong (sbrk + size))).putSymrg rgid
    ⟨ulong (cint sbrk), ulong (cint (cint sbrk + size))⟩

/-- The endings of an allocation that has not found a free region: in the gap,
with new pages, or with pages that could not be had. -/
inductive BrkEnd (s : Caller) (rgid size allocAddr : Int) : Outcome Caller Int → Prop where
  | gap (hGap : size ≤ brkGap s) (hRgid : 0 ≤ rgid ∧ rgid < pagingMaxSymtblSz) :
      BrkEnd s rgid size allocAddr (.ok allocAddr (s.takenAtBrk rgid size s.mm.mmap.sbrk))
  | grown (t : Caller) (hGap : brkGap s < size) (hRgid : 0 ≤ rgid ∧ rgid < pagingMaxSymtblSz)
      (hSame : (s.setVmEnd (brkRaised s size)).SameVm t) :
      BrkEnd s rgid size allocAddr
        (.ok (cint s.mm.mmap.sbrk) (t.takenAtBrk rgid size s.mm.mmap.sbrk))
  | refused (t : Caller) (hGap : brkGap s < size)
      (hSame : (s.setVmEnd (brkRaised s size)).SameVm t) : BrkEnd s rgid size allocAddr (.fail t)
  | undefined : BrkEnd s rgid size allocAddr .undefined

private theorem takeBrk_eq (curVma : VmArea) (rgid size : Int) (s : Caller) :
    takeBrk curVma rgid size s =
      if 0 ≤ rgid ∧ rgid < pagingMaxSymtblSz then .ok () (s.takenAtBrk rgid size curVma.sbrk)
      else .undefined := rfl

/-- An allocation in the gap asks for no page, and leaves `*alloc_addr` alone. -/
theorem allocAtBrk_gap {s : Caller} {rgid size : Int} (junk : Byte) (allocAddr : Int)
    (hGap : size ≤ brkGap s) (hRgid : 0 ≤ rgid ∧ rgid < pagingMaxSymtblSz) :
    allocAtBrk junk 0 rgid size allocAddr s =
      .ok allocAddr (s.takenAtBrk rgid size s.mm.mmap.sbrk) := by
  have hRoom : cint (s.mm.mmap.vmEnd - s.mm.mmap.sbrk) ≥ size := hGap
  simp only [allocAtBrk, getVmaByNum_zero, if_pos hRoom, takeBrk_eq, if_pos hRgid, Outcome.bind_ok]

/-- One with new pages, once they are mapped. -/
theorem allocAtBrk_grown {s t : Caller} {rgid size : Int} (junk : Byte) (allocAddr : Int)
    (hGap : brkGap s < size) (hRgid : 0 ≤ rgid ∧ rgid < pagingMaxSymtblSz)
    (hMap : vmapPageRange junk ((pagingPageAlignsz (brkIncSz s size)).tdiv pagingPagesz).toNat
      (cint s.mm.mmap.vmEnd) (s.setVmEnd (brkRaised s size)) = .ok () t) :
    allocAtBrk junk 0 rgid size allocAddr s =
      .ok (cint s.mm.mmap.sbrk) (t.takenAtBrk rgid size s.mm.mmap.sbrk) := by
  have hRoom : ¬ cint (s.mm.mmap.vmEnd - s.mm.mmap.sbrk) ≥ size := not_le.mpr hGap
  have hInc : incVmaLimit junk 0 (brkIncSz s size) s = .ok () t := by
    rw [incVmaLimit_zero]
    exact hMap
  have hIncSz : pagingPageAlignsz (cint (size - cint (s.mm.mmap.vmEnd - s.mm.mmap.sbrk))) =
      brkIncSz s size := rfl
  simp only [allocAtBrk, getVmaByNum_zero, if_neg hRoom, hIncSz, hInc, Outcome.bind_ok, takeBrk_eq,
    if_pos hRgid]

theorem allocAtBrk_ends (junk : Byte) (rgid size allocAddr : Int) (s : Caller) :
    BrkEnd s rgid size allocAddr (allocAtBrk junk 0 rgid size allocAddr s) := by
  have hGapEq : cint (s.mm.mmap.vmEnd - s.mm.mmap.sbrk) = brkGap s := rfl
  simp only [allocAtBrk, getVmaByNum_zero, hGapEq, takeBrk_eq]
  split_ifs with hGap hRgid hRgid
  · exact .gap hGap hRgid
  · exact .undefined
  -- the mapping of pages ends in a state that differs from the raised one by paging only
  all_goals
    have hMap : (incVmaLimit junk 0 (pagingPageAlignsz (cint (size - brkGap s))) s).Ends
        (s.setVmEnd (brkRaised s size)).SameVm := by
      rw [incVmaLimit_zero]
      exact vmapPageRange_sameVm _ _ _ _
    cases hCall : incVmaLimit junk 0 (pagingPageAlignsz (cint (size - brkGap s))) s with
    | undefined => exact .undefined
    | fail t =>
        rw [hCall] at hMap
        exact .refused t (not_le.mp hGap) hMap
    | ok value t =>
        rw [hCall] at hMap
        first | exact .grown t (not_le.mp hGap) hRgid hMap | exact .undefined

/-- The addresses the bus can carry. -/
def busLimit : Int := 2 ^ 22

theorem busLimit_eq : busLimit = 4194304 := by decide

def Caller.BelowBus (s : Caller) : Prop := s.mm.mmap.vmEnd ≤ busLimit

instance (s : Caller) : Decidable s.BelowBus := inferInstanceAs (Decidable (_ ≤ _))

/-- The bounds that every later argument about regions starts from. -/
structure Bounded (mm : Mm) : Prop where
  sbrk_nonneg : 0 ≤ mm.mmap.sbrk
  sbrk_le : mm.mmap.sbrk ≤ mm.mmap.vmEnd
  free : ∀ rg ∈ mm.mmap.vmFreergList, rg.Within mm.mmap.sbrk

/-- How an allocation of `size` bytes for the symbol `rgid` ends, by the return
code and the state it leaves. -/
inductive AllocTo (s : Caller) (rgid size : Int) : Bool → Caller → Prop where
  | fit (rgs taken : List VmRg) (newrg : VmRg) (t : Caller)
      (hCarves : Carves s.mm.mmap.sbrk size s.mm.mmap.vmFreergList rgs taken)
      (hLast : taken.getLast? = some newrg)
      (hMmap : t.mm.mmap = { s.mm.mmap with vmFreergList := rgs })
      (hTbl : t.mm.symrgtbl = Function.update s.mm.symrgtbl rgid newrg) : AllocTo s rgid size true t
  | brk (rgs : List VmRg) (vmEnd : Int) (t : Caller)
      (hCarves : Carves s.mm.mmap.sbrk size s.mm.mmap.vmFreergList rgs [])
      (hAligned : vmEnd % 256 = s.mm.mmap.vmEnd % 256) (hRoom : s.mm.mmap.sbrk + size ≤ vmEnd)
      (hMmap : t.mm.mmap =
        { s.mm.mmap with vmFreergList := rgs, vmEnd := vmEnd, sbrk := s.mm.mmap.sbrk + size })
      (hTbl : t.mm.symrgtbl = Function.update s.mm.symrgtbl rgid
        ⟨s.mm.mmap.sbrk, s.mm.mmap.sbrk + size⟩) : AllocTo s rgid size true t
  | failed (rgs : List VmRg) (vmEnd : Int) (t : Caller)
      (hCarves : Carves s.mm.mmap.sbrk size s.mm.mmap.vmFreergList rgs [])
      (hAligned : vmEnd % 256 = s.mm.mmap.vmEnd % 256) (hRaised : s.mm.mmap.vmEnd ≤ vmEnd)
      (hMmap : t.mm.mmap = { s.mm.mmap with vmFreergList := rgs, vmEnd := vmEnd })
      (hTbl : t.mm.symrgtbl = s.mm.symrgtbl) : AllocTo s rgid size false t

theorem pagingPageAlignsz_of_small {sz : Int} (hLow : 0 < sz) (hHigh : sz < 2147483392) :
    pagingPageAlignsz sz = (sz + 255) / 256 * 256 := by
  have hAdd : cint (cint (sz + 256) - 1) = sz + 255 := by
    unfold cint
    omega
  have hDiv : (sz + 255).tdiv 256 = (sz + 255) / 256 := Int.tdiv_eq_ediv_of_nonneg (by omega)
  simp only [pagingPageAlignsz, divRoundUp, pagingPagesz, Nat.cast_ofNat, hAdd, hDiv]
  exact cint_of_range (by omega) (by omega)

/-- Near the end of the range of `int` the sum overflows, and the aligned size is
far from anything that fits on the bus. -/
private theorem pagingPageAlignsz_of_large {sz : Int} (hLow : 2147483392 ≤ sz)
    (hHigh : sz < 2147483648) :
    pagingPageAlignsz sz = 2147483392 ∨ pagingPageAlignsz sz < -2147483000 := by
  by_cases hFirst : sz = 2147483392
  · subst hFirst
    exact Or.inl (by decide)
  · right
    have hAdd : cint (cint (sz + 256) - 1) = sz + 255 - 4294967296 := by
      unfold cint
      omega
    have hDiv : (sz + 255 - 4294967296).tdiv 256 = -8388608 ∨
        (sz + 255 - 4294967296).tdiv 256 = -8388607 := by
      rw [Int.tdiv_eq_ediv]
      split_ifs
      · omega
      · simp only [Int.sign]
        omega
    simp only [pagingPageAlignsz, divRoundUp, pagingPagesz, Nat.cast_ofNat, hAdd]
    unfold cint
    omega

/-- A limit that is still on the bus after a growth leaves room for the request. -/
private theorem grown_vmEnd {vmEnd sbrk size : Int} (hSbrk : 0 ≤ sbrk) (hLe : sbrk ≤ vmEnd)
    (hBus : vmEnd ≤ busLimit) (hGap : vmEnd - sbrk < size) (hSize : size < 2147483648)
    (hGrown : ulong (vmEnd + pagingPageAlignsz (size - (vmEnd - sbrk))) ≤ busLimit) :
    ulong (vmEnd + pagingPageAlignsz (size - (vmEnd - sbrk))) % 256 = vmEnd % 256 ∧
      sbrk + size ≤ ulong (vmEnd + pagingPageAlignsz (size - (vmEnd - sbrk))) := by
  have hLimit := busLimit_eq
  by_cases hSmall : size - (vmEnd - sbrk) < 2147483392
  · rw [pagingPageAlignsz_of_small (by omega) hSmall, ulong_of_range (by omega) (by omega)]
    omega
  · exfalso
    have hBounds := cint_bounds (divRoundUp (size - (vmEnd - sbrk)) pagingPagesz * pagingPagesz)
    have hAlign : pagingPageAlignsz (size - (vmEnd - sbrk)) =
        cint (divRoundUp (size - (vmEnd - sbrk)) pagingPagesz * pagingPagesz) := rfl
    have hLarge := pagingPageAlignsz_of_large (not_lt.mp hSmall) (by omega)
    unfold ulong at hGrown
    omega

/-- What a search of a bounded free list has carved off: nothing when it has found
no region, and otherwise the region that it returns last. -/
theorem Search.carved {size : Int} {s : Caller} {newrg : VmRg} {rgs : List VmRg} (h : Bounded s.mm)
    (hSize : 1 ≤ size) (hSum : s.mm.mmap.sbrk + size < 18446744073709551616)
    (hSearch : Search size ⟨ulong (-1), ulong (-1)⟩ s.mm.mmap.vmFreergList newrg rgs) :
    ∃ taken, Carves s.mm.mmap.sbrk size s.mm.mmap.vmFreergList rgs taken ∧
      (newrg.rgStart = ulong (-1) → taken = []) ∧
      (newrg.rgStart ≠ ulong (-1) → taken.getLast? = some newrg) := by
  obtain ⟨taken, hCarves, hLast⟩ := hSearch.carves hSize hSum h.free
  refine ⟨taken, hCarves, ?_⟩
  rcases List.eq_nil_or_concat taken with rfl | ⟨pieces, piece, rfl⟩
  · refine ⟨fun _ => rfl, fun hStart => absurd ?_ hStart⟩
    rw [hLast]
    rfl
  · rw [List.concat_eq_append] at hCarves hLast ⊢
    obtain rfl : newrg = piece := by simpa [List.getLastD_eq_getLast?] using hLast
    have hWithin := hCarves.taken_within newrg (by simp)
    refine ⟨fun hStart => ?_, fun _ => by simp⟩
    have hTop : ulong (-1) = 18446744073709551615 := by decide
    have := hWithin.2
    omega

/-- The endings of an allocation: with the region that a search has found, or as at
`sbrk` after a search that has found none. -/
inductive AllocEnd (s : Caller) (rgid size allocAddr : Int) : Outcome Caller Int → Prop where
  | found (newrg : VmRg) (rgs : List VmRg)
      (hSearch : Search size ⟨ulong (-1), ulong (-1)⟩ s.mm.mmap.vmFreergList newrg rgs)
      (hStart : newrg.rgStart ≠ ulong (-1)) (hRgid : 0 ≤ rgid ∧ rgid < pagingMaxSymtblSz) :
      AllocEnd s rgid size allocAddr
        (.ok (cint newrg.rgStart) ((s.setVmFreergList rgs).putSymrg rgid newrg))
  | missed (newrg : VmRg) (rgs : List VmRg) (call : Outcome Caller Int)
      (hSearch : Search size ⟨ulong (-1), ulong (-1)⟩ s.mm.mmap.vmFreergList newrg rgs)
      (hStart : newrg.rgStart = ulong (-1))
      (hBrk : BrkEnd (s.setVmFreergList rgs) rgid size allocAddr call) :
      AllocEnd s rgid size allocAddr call
  | undefined : AllocEnd s rgid size allocAddr .undefined

theorem alloc_ends (fuel : Nat) (junk : Byte) (rgid size allocAddr : Int) (s : Caller) :
    AllocEnd s rgid size allocAddr (alloc fuel junk 0 rgid size allocAddr s) := by
  have hEnd := getFreeVmrgArea_ends fuel size s
  rw [alloc]
  generalize getFreeVmrgArea fuel 0 size s = call at hEnd ⊢
  cases hEnd with
  | undefined => exact .undefined
  | found newrg rgs hSearch hStart =>
      simp only [Caller.setSymrg]
      split_ifs with hRgid
      · exact .found newrg rgs hSearch hStart hRgid
      · exact .undefined
  | missed newrg rgs hSearch hStart =>
      exact .missed newrg rgs _ hSearch hStart (allocAtBrk_ends junk rgid size allocAddr _)

/-- An allocation that grows the area raises the limit, also when it then fails. -/
theorem alloc_vmEnd (fuel : Nat) (junk : Byte) (rgid size allocAddr : Int) (s : Caller) :
    (alloc fuel junk 0 rgid size allocAddr s).Ends fun t =>
      t.mm.mmap.vmEnd = s.mm.mmap.vmEnd ∨
        brkGap s < size ∧ t.mm.mmap.vmEnd = brkRaised s size := by
  have hEnd := alloc_ends fuel junk rgid size allocAddr s
  generalize alloc fuel junk 0 rgid size allocAddr s = call at hEnd ⊢
  cases hEnd with
  | undefined => trivial
  | found => exact Or.inl rfl
  | missed newrg rgs _ hSearch hStart hBrk =>
      cases hBrk with
      | undefined => trivial
      | gap => exact Or.inl rfl
      | grown t hGap hRgid hSame => exact Or.inr ⟨hGap, congrArg VmArea.vmEnd hSame.1⟩
      | refused t hGap hSame => exact Or.inr ⟨hGap, congrArg VmArea.vmEnd hSame.1⟩

/-- In the range of `int` nothing is cut from the new region. -/
theorem Caller.takenAtBrk_of_range (s : Caller) (rgid : Int) {size sbrk : Int} (hLow : 0 ≤ sbrk)
    (hSize : 1 ≤ size) (hHigh : sbrk + size < 2147483648) :
    s.takenAtBrk rgid size sbrk =
      (s.setSbrk (sbrk + size)).putSymrg rgid ⟨sbrk, sbrk + size⟩ := by
  have hStart : cint sbrk = sbrk := cint_of_range (by omega) (by omega)
  have hEnd : cint (sbrk + size) = sbrk + size := cint_of_range (by omega) (by omega)
  have hStart' : ulong sbrk = sbrk := ulong_of_range (by omega) (by omega)
  have hEnd' : ulong (sbrk + size) = sbrk + size := ulong_of_range (by omega) (by omega)
  simp only [takenAtBrk, hStart, hEnd, hStart', hEnd']

/-- An allocation at `sbrk`, from the code it returns and the state it leaves,
when the limit it sets and the end of the region come out right. -/
private theorem BrkEnd.cases {rgid size allocAddr : Int} {s t : Caller} {ok : Bool}
    {call : Outcome Caller Int} (h : BrkEnd s rgid size allocAddr call)
    (hLow : 0 ≤ s.mm.mmap.sbrk) (hSize : 1 ≤ size)
    (hGap : brkGap s = s.mm.mmap.vmEnd - s.mm.mmap.sbrk)
    (hFits : size ≤ brkGap s → s.mm.mmap.sbrk + size < 2147483648)
    (hGrown : brkGap s < size → t.mm.mmap.vmEnd = brkRaised s size →
      brkRaised s size % 256 = s.mm.mmap.vmEnd % 256 ∧
        s.mm.mmap.sbrk + size ≤ brkRaised s size ∧ s.mm.mmap.sbrk + size < 2147483648)
    (hCode : call.code? = some (ok, t)) :
    ∃ vmEnd, vmEnd % 256 = s.mm.mmap.vmEnd % 256 ∧
      (ok = true ∧ s.mm.mmap.sbrk + size ≤ vmEnd ∧
        t.mm.mmap = { s.mm.mmap with vmEnd := vmEnd, sbrk := s.mm.mmap.sbrk + size } ∧
        t.mm.symrgtbl = Function.update s.mm.symrgtbl rgid
          ⟨s.mm.mmap.sbrk, s.mm.mmap.sbrk + size⟩ ∨
      ok = false ∧ s.mm.mmap.vmEnd ≤ vmEnd ∧ t.mm.mmap = { s.mm.mmap with vmEnd := vmEnd } ∧
        t.mm.symrgtbl = s.mm.symrgtbl) := by
  cases h with
  | undefined => simp at hCode
  | gap hRoom hRgid =>
      obtain ⟨rfl, rfl⟩ : true = ok ∧ _ = t := by simpa using hCode
      rw [s.takenAtBrk_of_range rgid hLow hSize (hFits hRoom)]
      exact ⟨s.mm.mmap.vmEnd, rfl, Or.inl ⟨rfl, by omega, rfl, rfl⟩⟩
  | grown u hNeed hRgid hSame =>
      obtain ⟨rfl, rfl⟩ : true = ok ∧ _ = t := by simpa using hCode
      obtain ⟨hMmap, hTbl⟩ := hSame
      have hVmEnd : u.mm.mmap.vmEnd = brkRaised s size := by rw [hMmap]; rfl
      obtain ⟨hAligned, hRoom, hHigh⟩ := hGrown hNeed hVmEnd
      refine ⟨brkRaised s size, hAligned, Or.inl ⟨rfl, hRoom, ?_, ?_⟩⟩
      · rw [u.takenAtBrk_of_range rgid hLow hSize hHigh]
        simp only [Caller.putSymrg, Caller.setSbrk, Caller.setMmap, hMmap]
        rfl
      · rw [u.takenAtBrk_of_range rgid hLow hSize hHigh]
        simp only [Caller.putSymrg, Caller.setSbrk, Caller.setMmap, hTbl]
        rfl
  | refused u hNeed hSame =>
      obtain ⟨rfl, rfl⟩ : false = ok ∧ u = t := by simpa using hCode
      obtain ⟨hMmap, hTbl⟩ := hSame
      obtain ⟨hAligned, hRoom, hHigh⟩ := hGrown hNeed (by rw [hMmap]; rfl)
      exact ⟨brkRaised s size, hAligned, Or.inr ⟨rfl, by omega, hMmap, hTbl⟩⟩

/-- An allocation on a bounded free list ends in one of the ways of `AllocTo`,
when no `int` past the search is cut. -/
theorem alloc_to_of_exact {fuel : Nat} {junk : Byte} {rgid size allocAddr : Int} {s t : Caller}
    {ok : Bool} (h : Bounded s.mm) (hSize : 1 ≤ size)
    (hSum : s.mm.mmap.sbrk + size < 18446744073709551616)
    (hGap : ¬ s.HasRegion size → brkGap s = s.mm.mmap.vmEnd - s.mm.mmap.sbrk)
    (hFits : ¬ s.HasRegion size → size ≤ brkGap s → s.mm.mmap.sbrk + size < 2147483648)
    (hGrown : ¬ s.HasRegion size → brkGap s < size → t.mm.mmap.vmEnd = brkRaised s size →
      brkRaised s size % 256 = s.mm.mmap.vmEnd % 256 ∧
        s.mm.mmap.sbrk + size ≤ brkRaised s size ∧ s.mm.mmap.sbrk + size < 2147483648)
    (hCode : (alloc fuel junk 0 rgid size allocAddr s).code? = some (ok, t)) :
    AllocTo s rgid size ok t := by
  have hEnd := alloc_ends fuel junk rgid size allocAddr s
  generalize alloc fuel junk 0 rgid size allocAddr s = call at hCode hEnd
  cases hEnd with
  | undefined => simp at hCode
  | found newrg rgs hSearch hStart hRgid =>
      obtain ⟨taken, hCarves, -, hLast⟩ := hSearch.carved h hSize hSum
      obtain ⟨rfl, rfl⟩ : true = ok ∧ _ = t := by simpa using hCode
      exact .fit rgs taken newrg _ hCarves (hLast hStart) rfl rfl
  | missed newrg rgs _ hSearch hStart hBrk =>
      obtain ⟨taken, hCarves, hNothing, -⟩ := hSearch.carved h hSize hSum
      obtain rfl := hNothing hStart
      have hNone : ¬ s.HasRegion size := by simp [Caller.hasRegion_iff hSize hCarves]
      obtain ⟨vmEnd, hAligned, ⟨rfl, hRoom, hMmap, hTbl⟩ | ⟨rfl, hRaised, hMmap, hTbl⟩⟩ :=
        hBrk.cases (s := s.setVmFreergList rgs) h.sbrk_nonneg hSize (hGap hNone) (hFits hNone)
          (hGrown hNone) hCode
      · exact .brk rgs vmEnd t hCarves hAligned hRoom hMmap hTbl
      · exact .failed rgs vmEnd t hCarves hAligned hRaised hMmap hTbl

/-- Every allocation in order that returns ends in one of the ways of `AllocTo`. -/
theorem alloc_cases {fuel : Nat} {junk : Byte} {rgid size allocAddr : Int} {s t : Caller}
    {ok : Bool} (h : Bounded s.mm) (hBus : s.BelowBus) (hSize : 1 ≤ size ∧ size < 2147483648)
    (hCode : (alloc fuel junk 0 rgid size allocAddr s).code? = some (ok, t))
    (hBus' : t.BelowBus) : AllocTo s rgid size ok t := by
  have hLimit := busLimit_eq
  have hLow := h.sbrk_nonneg
  have hLe := h.sbrk_le
  have hEnd : s.mm.mmap.vmEnd ≤ busLimit := hBus
  have hGap : brkGap s = s.mm.mmap.vmEnd - s.mm.mmap.sbrk := cint_of_range (by omega) (by omega)
  refine alloc_to_of_exact h hSize.1 (by omega) (fun _ => hGap) (fun _ _ => by omega) ?_ hCode
  intro _ hNeed hRaised
  have hOn : t.mm.mmap.vmEnd ≤ busLimit := hBus'
  have hInc : brkRaised s size = ulong (s.mm.mmap.vmEnd +
      pagingPageAlignsz (size - (s.mm.mmap.vmEnd - s.mm.mmap.sbrk))) := by
    rw [brkRaised, brkIncSz, hGap, cint_of_range (by omega) (by omega)]
  rw [hRaised, hInc] at hOn
  obtain ⟨hAligned, hRoom⟩ := grown_vmEnd hLow hLe hBus (by omega) hSize.2 hOn
  rw [hInc]
  exact ⟨hAligned, hRoom, by omega⟩

/-- Only a symbol of the table can be given a region. -/
theorem alloc_rgid {fuel : Nat} {junk : Byte} {rgid size allocAddr : Int} {s t : Caller}
    (hCode : (alloc fuel junk 0 rgid size allocAddr s).code? = some (true, t)) :
    0 ≤ rgid ∧ rgid < pagingMaxSymtblSz := by
  have hEnd := alloc_ends fuel junk rgid size allocAddr s
  generalize alloc fuel junk 0 rgid size allocAddr s = call at hCode hEnd
  cases hEnd with
  | undefined => simp at hCode
  | found _ _ _ _ hRgid => exact hRgid
  | missed _ _ _ _ _ hBrk =>
      cases hBrk with
      | undefined | refused => simp at hCode
      | gap _ hRgid => exact hRgid
      | grown _ _ hRgid => exact hRgid

/-- How the release of a symbol ends. -/
inductive FreeTo (s : Caller) (rgid : Int) : Bool → Caller → Prop where
  | enlisted (t : Caller) (hLive : (s.mm.symrgtbl rgid).rgStart < (s.mm.symrgtbl rgid).rgEnd)
      (hMmap : t.mm.mmap = { s.mm.mmap with
        vmFreergList := s.mm.symrgtbl rgid :: s.mm.mmap.vmFreergList })
      (hTbl : t.mm.symrgtbl = Function.update s.mm.symrgtbl rgid ⟨ulong (-1), ulong (-1)⟩) :
      FreeTo s rgid true t
  | notLive : FreeTo s rgid false s

/-- A release fails only for a symbol that is not live. -/
theorem free_cases {rgid : Int} {s t : Caller} {ok : Bool}
    (hRgid : 0 ≤ rgid ∧ rgid < pagingMaxSymtblSz)
    (hOrder : (s.mm.symrgtbl rgid).rgStart ≤ (s.mm.symrgtbl rgid).rgEnd)
    (hCode : (free 0 rgid s).code? = some (ok, t)) : FreeTo s rgid ok t := by
  have hIndex : ¬ (rgid < 0 ∨ rgid > pagingMaxSymtblSz) := by omega
  have hNotLast : rgid ≠ pagingMaxSymtblSz := by omega
  simp only [free, getSymrgByid, hIndex, hNotLast, if_false] at hCode
  split_ifs at hCode with hDead
  · simp only [Outcome.bind_fail, Outcome.code?_fail, Option.some.injEq, Prod.mk.injEq] at hCode
    obtain ⟨rfl, rfl⟩ := hCode
    exact .notLive
  · have hLive : ¬ (s.mm.symrgtbl rgid).rgStart ≥ (s.mm.symrgtbl rgid).rgEnd := by omega
    simp only [Outcome.bind_ok, getVmaByNum_zero, Caller.setSymrg, hRgid, and_self, if_true,
      enlistVmFreergList, hLive, if_false, Outcome.code?_ok, Option.some.injEq,
      Prod.mk.injEq] at hCode
    obtain ⟨rfl, rfl⟩ := hCode
    exact .enlisted _ (by omega) rfl rfl

end Btlos
