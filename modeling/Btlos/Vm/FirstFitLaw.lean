import Btlos.Vm.FirstFit

/-! The search for a free region compared with first fit, which its comment names
as the algorithm. -/
namespace Btlos

def VmRg.length (rg : VmRg) : Int := rg.rgEnd - rg.rgStart

/-- First fit: the first region that is long enough loses its first bytes, and is
gone or empty when that is all of it. -/
inductive FirstFit (size : Int) (newrg : VmRg) (rgs : List VmRg) : List VmRg → Prop where
  | shortened (before after : List VmRg) (rg : VmRg) (hRgs : rgs = before ++ rg :: after)
      (hBefore : ∀ other ∈ before, other.length < size) (hRoom : size ≤ rg.length)
      (hNew : newrg = ⟨rg.rgStart, rg.rgStart + size⟩) :
      FirstFit size newrg rgs (before ++ ⟨rg.rgStart + size, rg.rgEnd⟩ :: after)
  | usedUp (before after : List VmRg) (rg : VmRg) (hRgs : rgs = before ++ rg :: after)
      (hBefore : ∀ other ∈ before, other.length < size) (hRoom : size = rg.length)
      (hNew : newrg = ⟨rg.rgStart, rg.rgStart + size⟩) : FirstFit size newrg rgs (before ++ after)

/-- The search fails, and changes nothing, exactly when no region is long enough,
and otherwise is first fit. -/
structure SearchesFirstFit (s : Caller) (size : Int) : Prop where
  fails_iff : (∃ fuel, getFreeVmrgArea fuel 0 size s = .fail s) ↔
    ∀ rg ∈ s.mm.mmap.vmFreergList, rg.length < size
  finds : (∃ rg ∈ s.mm.mmap.vmFreergList, size ≤ rg.length) →
    ∃ fuel newrg rgs, getFreeVmrgArea fuel 0 size s = .ok newrg (s.setVmFreergList rgs) ∧
      FirstFit size newrg s.mm.mmap.vmFreergList rgs ∧
      (rgs.map VmRg.length).sum = (s.mm.mmap.vmFreergList.map VmRg.length).sum - size

/-- The condition under which the search is first fit: at most one piece of the
size can be cut from the list, and no sum that the search tests wraps around,
also not for what is left of the region that is cut. That is not tested where
the node is reused for the next region. -/
structure CarvesOnce (s : Caller) (size : Int) : Prop where
  pieces : (s.mm.mmap.vmFreergList.map (VmRg.pieces size)).sum ≤ 1
  sums : ∀ rg ∈ s.mm.mmap.vmFreergList, rg.rgStart + size < 18446744073709551616
  left : ∀ before rg after, s.mm.mmap.vmFreergList = before ++ rg :: after →
    (∀ other ∈ before, other.length < size) → size ≤ rg.length →
      rg.rgStart + 2 * size < 18446744073709551616 ∨ rg.length = size ∧ after ≠ []

theorem FirstFit.sum_length {size : Int} {newrg : VmRg} {rgs rgs' : List VmRg}
    (h : FirstFit size newrg rgs rgs') :
    (rgs'.map VmRg.length).sum = (rgs.map VmRg.length).sum - size := by
  cases h with
  | shortened before after rg hRgs hBefore hRoom hNew =>
      subst hRgs
      simp only [List.map_append, List.map_cons, List.sum_append, List.sum_cons, VmRg.length]
      omega
  | usedUp before after rg hRgs hBefore hRoom hNew =>
      subst hRgs
      rw [hRoom]
      simp only [List.map_append, List.map_cons, List.sum_append, List.sum_cons]
      omega

section Region

variable {size : Int} {rg : VmRg}

/-- When the search goes on to the next node: the region is too short, and its
start is not so high that the sum comes out low. -/
theorem VmRg.passed_iff (hSize : 1 ≤ size ∧ size < 2147483648) (hWord : rg.IsWord)
    (hOrder : rg.rgStart ≤ rg.rgEnd) :
    rg.Passed size ↔ rg.rgStart + size < 18446744073709551616 ∧ rg.length < size := by
  obtain ⟨⟨hLow, hHigh⟩, -, hEnd⟩ := hWord
  unfold VmRg.Passed VmRg.length ulong
  omega

theorem VmRg.pieces_eq_zero (hSize : 1 ≤ size) : rg.pieces size = 0 ↔ rg.length < size := by
  have hDiv : (rg.rgEnd - rg.rgStart) / size < 1 ↔ rg.rgEnd - rg.rgStart < 1 * size :=
    Int.ediv_lt_iff_lt_mul (by omega)
  unfold VmRg.pieces VmRg.length
  omega

theorem VmRg.pieces_le_one (hSize : 1 ≤ size) : rg.pieces size ≤ 1 ↔ rg.length < 2 * size := by
  have hDiv : (rg.rgEnd - rg.rgStart) / size < 2 ↔ rg.rgEnd - rg.rgStart < 2 * size :=
    Int.ediv_lt_iff_lt_mul (by omega)
  unfold VmRg.pieces VmRg.length
  omega

theorem sum_pieces_eq_zero (hSize : 1 ≤ size) {rgs : List VmRg} :
    (rgs.map (VmRg.pieces size)).sum = 0 ↔ ∀ rg ∈ rgs, rg.length < size := by
  rw [List.sum_eq_zero_iff_forall_eq_nat, List.forall_mem_map]
  exact forall₂_congr fun rg _ => VmRg.pieces_eq_zero hSize

end Region

/-- A free region is at least `size` long. -/
def Caller.HasRegion (s : Caller) (size : Int) : Prop :=
  ∃ rg ∈ s.mm.mmap.vmFreergList, size ≤ rg.length

instance (s : Caller) (size : Int) : Decidable (s.HasRegion size) :=
  inferInstanceAs (Decidable (∃ rg ∈ s.mm.mmap.vmFreergList, size ≤ rg.length))

/-- Pieces are carved off exactly when there is such a region. -/
theorem Caller.hasRegion_iff {s : Caller} {limit size : Int} (hSize : 1 ≤ size)
    {rgs taken : List VmRg} (hCarves : Carves limit size s.mm.mmap.vmFreergList rgs taken) :
    s.HasRegion size ↔ taken ≠ [] := by
  have hSum : (s.mm.mmap.vmFreergList.map (VmRg.pieces size)).sum = 0 ↔
      ∀ rg ∈ s.mm.mmap.vmFreergList, rg.length < size := sum_pieces_eq_zero hSize
  rw [← hCarves.number, List.length_eq_zero_iff] at hSum
  rw [HasRegion, ne_eq, hSum]
  simp

/-- The first region of a list that is long enough. -/
theorem exists_first_room {size : Int} {rgs : List VmRg} (h : ∃ rg ∈ rgs, size ≤ rg.length) :
    ∃ before rg after, rgs = before ++ rg :: after ∧ (∀ other ∈ before, other.length < size) ∧
      size ≤ rg.length := by
  have hFind : (rgs.find? fun rg => decide (size ≤ rg.length)).isSome := by
    simpa [List.find?_isSome] using h
  obtain ⟨rg, hRg⟩ := Option.isSome_iff_exists.mp hFind
  obtain ⟨hRoom, before, after, hRgs, hBefore⟩ := List.find?_eq_some_iff_append.mp hRg
  exact ⟨before, rg, after, hRgs, by simpa using hBefore, by simpa using hRoom⟩

theorem first_unique {size : Int} {before before' after after' : List VmRg} {rg rg' : VmRg}
    (h : before ++ rg :: after = before' ++ rg' :: after')
    (hBefore : ∀ other ∈ before, other.length < size) (hRoom : size ≤ rg.length)
    (hBefore' : ∀ other ∈ before', other.length < size) (hRoom' : size ≤ rg'.length) :
    before = before' ∧ rg = rg' ∧ after = after' := by
  induction before generalizing before' with
  | nil =>
      cases before' with
      | nil => simpa using h
      | cons first rest =>
          obtain ⟨rfl, -⟩ := List.cons.inj h
          exact absurd hRoom (not_le.mpr (hBefore' rg List.mem_cons_self))
  | cons first rest ih =>
      cases before' with
      | nil =>
          obtain ⟨rfl, -⟩ := List.cons.inj h
          exact absurd hRoom' (not_le.mpr (hBefore first List.mem_cons_self))
      | cons first' rest' =>
          obtain ⟨rfl, hRest⟩ := List.cons.inj h
          obtain ⟨rfl, hSame⟩ := ih hRest (List.forall_mem_cons.mp hBefore).2
            (List.forall_mem_cons.mp hBefore').2
          exact ⟨rfl, hSame⟩

section Search

variable {s : Caller} {size : Int}

/-- What a search that returns leaves on the list. -/
theorem getFreeVmrgArea_passed (fuel : Nat) (size : Int) (s : Caller) :
    (getFreeVmrgArea fuel 0 size s).Ends fun t =>
      ∀ rg ∈ t.mm.mmap.vmFreergList, rg.Passed size := by
  have hEnd := getFreeVmrgArea_ends fuel size s
  generalize getFreeVmrgArea fuel 0 size s = call at hEnd ⊢
  cases hEnd with
  | undefined => trivial
  | found newrg rgs hSearch => exact hSearch.passed
  | missed newrg rgs hSearch => exact hSearch.passed

/-- A search that finds nothing large enough changes nothing. -/
theorem getFreeVmrgArea_miss (hMiss : ∀ rg ∈ s.mm.mmap.vmFreergList, rg.Passed size) :
    ∃ fuel, getFreeVmrgArea fuel 0 size s = .fail s := by
  obtain ⟨fuel, hCall⟩ := (Search.miss hMiss ⟨ulong (-1), ulong (-1)⟩).getFreeVmrgArea
  rw [if_pos rfl, s.setVmFreergList_self rfl] at hCall
  exact ⟨fuel, hCall⟩

/-- A search that succeeds has come to an end with the region it returns. -/
theorem getFreeVmrgArea_search {fuel : Nat} {newrg : VmRg} {rgs : List VmRg}
    (hOk : getFreeVmrgArea fuel 0 size s = .ok newrg (s.setVmFreergList rgs)) :
    Search size ⟨ulong (-1), ulong (-1)⟩ s.mm.mmap.vmFreergList newrg rgs := by
  have hEnd := getFreeVmrgArea_ends fuel size s
  rw [hOk] at hEnd
  generalize hCall : Outcome.ok newrg (s.setVmFreergList rgs) = call at hEnd
  cases hEnd with
  | undefined | missed => simp at hCall
  | found newrg' rgs' hSearch =>
      obtain ⟨rfl, hState⟩ := Outcome.ok.inj hCall
      obtain rfl : rgs = rgs' := congrArg (fun t => t.mm.mmap.vmFreergList) hState
      exact hSearch

/-- After one hit, on `rg`, nothing on the list is large enough any more. -/
structure OneHit (size : Int) (before : List VmRg) (rg : VmRg) (after : List VmRg) : Prop where
  passed_before : ∀ other ∈ before, other.Passed size
  passed_after : ∀ other ∈ after, other.Passed size
  left : VmRg.Passed size ⟨rg.rgStart + size, rg.rgEnd⟩ ∨ rg.length = size ∧ after ≠ []

/-- Then the search is first fit. -/
theorem firstFit_of_hit (hSize : 1 ≤ size) {before after : List VmRg} {rg : VmRg}
    (hRgs : s.mm.mmap.vmFreergList = before ++ rg :: after)
    (hBefore : ∀ other ∈ before, other.length < size) (hRoom : size ≤ rg.length)
    (hSum : 0 ≤ rg.rgStart ∧ rg.rgStart + size < 18446744073709551616)
    (hHit : OneHit size before rg after) :
    ∃ fuel newrg rgs, getFreeVmrgArea fuel 0 size s = .ok newrg (s.setVmFreergList rgs) ∧
      FirstFit size newrg s.mm.mmap.vmFreergList rgs := by
  obtain ⟨hPassed, hAfter, hLeft⟩ := hHit
  have hWord : ulong (rg.rgStart + size) = rg.rgStart + size := ulong_of_range (by omega) hSum.2
  have hStart : rg.rgStart ≠ ulong (-1) := by
    have hTop : ulong (-1) = 18446744073709551615 := by decide
    omega
  -- the search reaches the region, takes a piece of it and leaves `left` from there on
  have hFound : ∀ left : List VmRg, Search size ⟨ulong (-1), ulong (-1)⟩ (rg :: after)
      ⟨rg.rgStart, rg.rgStart + size⟩ left →
      ∃ fuel, getFreeVmrgArea fuel 0 size s =
        .ok ⟨rg.rgStart, rg.rgStart + size⟩ (s.setVmFreergList (before ++ left)) := by
    intro left hSearch
    have hWhole := Search.append hPassed hSearch
    rw [← hRgs] at hWhole
    obtain ⟨fuel, hCall⟩ := hWhole.getFreeVmrgArea
    exact ⟨fuel, hCall.trans (if_neg hStart)⟩
  have hLength : rg.length = rg.rgEnd - rg.rgStart := rfl
  rcases lt_or_eq_of_le hRoom with hMore | hExact
  · replace hLeft := hLeft.resolve_right (by omega)
    have hSearch : Search size ⟨ulong (-1), ulong (-1)⟩ (rg :: after)
        ⟨rg.rgStart, rg.rgStart + size⟩ (⟨rg.rgStart + size, rg.rgEnd⟩ :: after) := by
      apply Search.shrink
      · omega
      · rw [hWord]
        exact .pass hLeft (.miss hAfter _)
    obtain ⟨fuel, hCall⟩ := hFound _ hSearch
    exact ⟨fuel, _, _, hCall, .shortened before after rg hRgs hBefore hRoom rfl⟩
  · have hEnd : rg.rgEnd = rg.rgStart + size := by omega
    have hSame : (⟨rg.rgStart, rg.rgStart + size⟩ : VmRg) = rg := by rw [← hEnd]
    have hHit : ulong (rg.rgStart + size) = rg.rgEnd := hWord.trans hEnd.symm
    rw [hSame] at hFound
    cases after with
    | cons nextrg rest =>
        obtain ⟨fuel, hCall⟩ := hFound _ (.clone hHit (.miss hAfter rg))
        exact ⟨fuel, _, _, hCall,
          .usedUp before (nextrg :: rest) rg hRgs hBefore hExact hSame.symm⟩
    | nil =>
        replace hLeft := hLeft.resolve_right (by simp)
        rw [← hEnd] at hLeft
        obtain ⟨fuel, hCall⟩ := hFound _ (.dummy hHit (.pass hLeft (.done rg)))
        have hShort := FirstFit.shortened before [] rg hRgs hBefore hRoom hSame.symm
        rw [← hEnd] at hShort
        exact ⟨fuel, _, _, hCall, hShort⟩

/-- What the first hit would leave of its region. -/
private theorem passed_left_iff {rg : VmRg} (hSize : 1 ≤ size ∧ size < 2147483648)
    (hRg : rg.IsWord) (hRoom : size ≤ rg.length) :
    VmRg.Passed size ⟨rg.rgStart + size, rg.rgEnd⟩ ↔
      rg.rgStart + 2 * size < 18446744073709551616 ∧ rg.length < 2 * size := by
  obtain ⟨⟨hLow, -⟩, hEnd, hHigh⟩ := hRg
  have hLength : rg.length = rg.rgEnd - rg.rgStart := rfl
  have hLeft : (⟨rg.rgStart + size, rg.rgEnd⟩ : VmRg).length = rg.rgEnd - (rg.rgStart + size) := rfl
  have hWord : (⟨rg.rgStart + size, rg.rgEnd⟩ : VmRg).IsWord :=
    ⟨⟨by simp only; omega, by simp only; omega⟩, hEnd, hHigh⟩
  rw [VmRg.passed_iff hSize hWord (by simp only; omega), hLeft]
  simp only
  omega

/-- No region is long enough. -/
private theorem searchesFirstFit_iff_of_none (hSize : 1 ≤ size ∧ size < 2147483648)
    (hList : ∀ rg ∈ s.mm.mmap.vmFreergList, rg.IsWord ∧ rg.rgStart ≤ rg.rgEnd)
    (hNone : ∀ rg ∈ s.mm.mmap.vmFreergList, rg.length < size) :
    SearchesFirstFit s size ↔ CarvesOnce s size := by
  have hPassed : ∀ rg ∈ s.mm.mmap.vmFreergList,
      (rg.Passed size ↔ rg.rgStart + size < 18446744073709551616 ∧ rg.length < size) :=
    fun rg hRg => VmRg.passed_iff hSize (hList rg hRg).1 (hList rg hRg).2
  have hNoRoom : ∀ rg ∈ s.mm.mmap.vmFreergList, ¬ size ≤ rg.length :=
    fun rg hRg => not_le.mpr (hNone rg hRg)
  constructor
  · rintro ⟨hFails, -⟩
    obtain ⟨fuel, hFail⟩ := hFails.mpr hNone
    have hEnds := getFreeVmrgArea_passed fuel size s
    rw [hFail, Outcome.ends_fail] at hEnds
    refine ⟨?_, fun rg hRg => ((hPassed rg hRg).mp (hEnds rg hRg)).1, ?_⟩
    · rw [(sum_pieces_eq_zero hSize.1).mpr hNone]
      exact Nat.zero_le 1
    · intro before rg after hRgs _ hFits
      exact absurd hFits (hNoRoom rg (by simp [hRgs]))
  · rintro ⟨-, hSums, -⟩
    refine ⟨iff_of_true (getFreeVmrgArea_miss fun rg hRg => ?_) hNone, ?_⟩
    · exact (hPassed rg hRg).mpr ⟨hSums rg hRg, hNone rg hRg⟩
    · rintro ⟨rg, hRg, hFits⟩
      exact absurd hFits (hNoRoom rg hRg)

/-! Some region is long enough, and `rg` is the first one -/

section Room

variable (hSize : 1 ≤ size ∧ size < 2147483648)
  (hList : ∀ rg ∈ s.mm.mmap.vmFreergList, rg.IsWord ∧ rg.rgStart ≤ rg.rgEnd)
  {before after : List VmRg} {rg : VmRg} (hRgs : s.mm.mmap.vmFreergList = before ++ rg :: after)
  (hBefore : ∀ other ∈ before, other.length < size) (hRoom : size ≤ rg.length)
include hRgs hBefore hRoom

/-- Whatever a search leaves on the list has been passed. -/
private theorem SearchesFirstFit.oneHit (h : SearchesFirstFit s size) :
    OneHit size before rg after := by
  obtain ⟨fuel, newrg, rgs, hOk, hFirst, -⟩ := h.finds ⟨rg, by simp [hRgs], hRoom⟩
  have hSearch := getFreeVmrgArea_search hOk
  have hEnds := hSearch.passed
  cases hFirst with
  | shortened before' after' rg' hRgs' hBefore' hRoom' hNew =>
      obtain ⟨rfl, rfl, rfl⟩ := first_unique (hRgs.symm.trans hRgs') hBefore hRoom hBefore' hRoom'
      rw [List.forall_mem_append, List.forall_mem_cons] at hEnds
      exact ⟨hEnds.1, hEnds.2.2, Or.inl hEnds.2.1⟩
  | usedUp before' after' rg' hRgs' hBefore' hRoom' hNew =>
      obtain ⟨rfl, rfl, rfl⟩ :=
        first_unique (hRgs.symm.trans hRgs') hBefore hRoom hBefore' hRoom'.le
      rw [List.forall_mem_append] at hEnds
      refine ⟨hEnds.1, hEnds.2, Or.inr ⟨hRoom'.symm, ?_⟩⟩
      -- the last node would have stayed as an empty one
      rintro rfl
      rw [hRgs] at hSearch
      obtain ⟨left, hLeft, hLast⟩ := hSearch.of_append hEnds.1
      exact hLast.ne_nil (List.cons_ne_nil _ _) (List.append_cancel_left hLeft).symm

include hSize hList

private theorem OneHit.searchesFirstFit (h : OneHit size before rg after)
    (hSum : rg.rgStart + size < 18446744073709551616) : SearchesFirstFit s size := by
  have hMem : rg ∈ s.mm.mmap.vmFreergList := by simp [hRgs]
  obtain ⟨fuel, newrg, rgs, hOk, hFirst⟩ :=
    firstFit_of_hit hSize.1 hRgs hBefore hRoom ⟨(hList rg hMem).1.1.1, hSum⟩ h
  refine ⟨iff_of_false ?_ fun hNone => absurd hRoom (not_le.mpr (hNone rg hMem)), fun _ =>
    ⟨fuel, newrg, rgs, hOk, hFirst, hFirst.sum_length⟩⟩
  rintro ⟨fuel', hFail⟩
  have hSame : getFreeVmrgArea fuel 0 size s = getFreeVmrgArea fuel' 0 size s :=
    getFreeVmrgArea_unique (by simp [hOk]) (by simp [hFail])
  simp [hOk, hFail] at hSame

/-- There is one hit when one piece can be cut, from `rg`, and no sum wraps around. -/
private theorem oneHit_iff : OneHit size before rg after ↔ CarvesOnce s size := by
  have hPassed : ∀ other ∈ s.mm.mmap.vmFreergList,
      (other.Passed size ↔ other.rgStart + size < 18446744073709551616 ∧ other.length < size) :=
    fun other hOther => VmRg.passed_iff hSize (hList other hOther).1 (hList other hOther).2
  have hMem : rg ∈ s.mm.mmap.vmFreergList := by simp [hRgs]
  have hLeft := passed_left_iff hSize (hList rg hMem).1 hRoom
  have hCount : (s.mm.mmap.vmFreergList.map (VmRg.pieces size)).sum =
      rg.pieces size + (after.map (VmRg.pieces size)).sum := by
    rw [hRgs, List.map_append, List.sum_append, (sum_pieces_eq_zero hSize.1).mpr hBefore,
      Nat.zero_add, List.map_cons, List.sum_cons]
  rw [hRgs, List.forall_mem_append, List.forall_mem_cons] at hPassed
  obtain ⟨hPassedBefore, -, hPassedAfter⟩ := hPassed
  constructor
  · rintro ⟨hPassBefore, hPassAfter, hPassLeft⟩
    have hShort : ∀ other ∈ after, other.length < size :=
      fun other hOther => ((hPassedAfter other hOther).mp (hPassAfter other hOther)).2
    refine ⟨?_, ?_, ?_⟩
    · have hOne : rg.pieces size ≤ 1 := by
        rw [VmRg.pieces_le_one hSize.1]
        rcases hPassLeft with hPass | ⟨hExact, -⟩
        · exact (hLeft.mp hPass).2
        · omega
      rw [hCount, (sum_pieces_eq_zero hSize.1).mpr hShort]
      omega
    · rw [hRgs, List.forall_mem_append, List.forall_mem_cons]
      refine ⟨fun other hOther => ((hPassedBefore other hOther).mp (hPassBefore other hOther)).1,
        ?_,
        fun other hOther => ((hPassedAfter other hOther).mp (hPassAfter other hOther)).1⟩
      have hEnd := (hList rg hMem).1.2.2
      unfold VmRg.length at hRoom
      omega
    · intro before' rg' after' hRgs' hBefore' hRoom'
      obtain ⟨rfl, rfl, rfl⟩ := first_unique (hRgs.symm.trans hRgs') hBefore hRoom hBefore' hRoom'
      exact hPassLeft.imp_left fun hPass => (hLeft.mp hPass).1
  · rintro ⟨hPieces, hSums, hUsed⟩
    have hSome : 1 ≤ rg.pieces size := by
      by_contra hZero
      exact not_lt.mpr hRoom ((VmRg.pieces_eq_zero hSize.1).mp (by omega))
    rw [hCount] at hPieces
    have hShort := (sum_pieces_eq_zero hSize.1).mp
      (show (after.map (VmRg.pieces size)).sum = 0 by omega)
    have hOne := (VmRg.pieces_le_one hSize.1).mp (show rg.pieces size ≤ 1 by omega)
    rw [hRgs, List.forall_mem_append, List.forall_mem_cons] at hSums
    refine ⟨fun other hOther => ?_, fun other hOther => ?_, ?_⟩
    · exact (hPassedBefore other hOther).mpr ⟨hSums.1 other hOther, hBefore other hOther⟩
    · exact (hPassedAfter other hOther).mpr ⟨hSums.2.2 other hOther, hShort other hOther⟩
    · exact (hUsed before rg after hRgs hBefore hRoom).imp_left
        fun hRange => hLeft.mpr ⟨hRange, hOne⟩

private theorem searchesFirstFit_iff_of_room : SearchesFirstFit s size ↔ CarvesOnce s size := by
  have hIff := oneHit_iff hSize hList hRgs hBefore hRoom
  constructor
  · exact fun hFirst => hIff.mp (hFirst.oneHit hRgs hBefore hRoom)
  · intro hOnce
    have hSum := hOnce.sums rg (by simp [hRgs])
    exact (hIff.mpr hOnce).searchesFirstFit hSize hList hRgs hBefore hRoom hSum

end Room

end Search

/-- The search is first fit exactly when at most one piece can be cut from the
list and no sum wraps around. -/
theorem searchesFirstFit_iff {s : Caller} {size : Int} (hSize : 1 ≤ size ∧ size < 2147483648)
    (hList : ∀ rg ∈ s.mm.mmap.vmFreergList, rg.IsWord ∧ rg.rgStart ≤ rg.rgEnd) :
    SearchesFirstFit s size ↔ CarvesOnce s size := by
  by_cases hRoom : ∃ rg ∈ s.mm.mmap.vmFreergList, size ≤ rg.length
  · obtain ⟨before, rg, after, hRgs, hBefore, hFits⟩ := exists_first_room hRoom
    exact searchesFirstFit_iff_of_room hSize hList hRgs hBefore hFits
  · exact searchesFirstFit_iff_of_none hSize hList (by simpa using hRoom)

/-- A process with three free regions. The second one loses its first 200 bytes. -/
theorem searchesFirstFit_second :
    SearchesFirstFit
      ((⟨initMm .zero, initMemphy .zero 1024 1, initMemphy .zero 4096 1⟩ : Caller).setVmFreergList
        [⟨0, 100⟩, ⟨200, 500⟩, ⟨600, 650⟩]) 200 := by
  refine (searchesFirstFit_iff (by decide) (by decide)).mpr ⟨by decide, by decide, ?_⟩
  intro before rg after hRgs _ _
  have hLow : ∀ other ∈ [(⟨0, 100⟩ : VmRg), ⟨200, 500⟩, ⟨600, 650⟩],
      other.rgStart + 2 * 200 < 18446744073709551616 := by decide
  have hMem : rg ∈ before ++ rg :: after := by simp
  rw [← hRgs] at hMem
  exact Or.inl (hLow rg hMem)

/-- The list that is left when the only region of a process, of 200 bytes, has
been released. A search for 100 bytes takes both halves. -/
theorem search_carves_twice :
    ¬ SearchesFirstFit
      ((⟨initMm .zero, initMemphy .zero 1024 1, initMemphy .zero 4096 1⟩ : Caller).setVmFreergList
        [⟨0, 200⟩, ⟨0, 0⟩]) 100 := by
  intro hFirst
  have hOnce := (searchesFirstFit_iff_of_room (by decide) (by decide)
    (show _ = [] ++ (⟨0, 200⟩ : VmRg) :: [⟨0, 0⟩] from rfl) (by simp) (by decide)).mp hFirst
  exact absurd hOnce.pieces (by decide)

end Btlos
