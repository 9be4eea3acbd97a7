import Btlos.Vm.Area
import Btlos.Library.Cover

/-! What the search for a free region does to the free list. Since it goes on
after a hit, it may carve off several pieces, of which the caller gets the last. -/
namespace Btlos

/-- A region of addresses up to `limit`, possibly empty. -/
def VmRg.Within (rg : VmRg) (limit : Int) : Prop :=
  0 ≤ rg.rgStart ∧ rg.rgStart ≤ rg.rgEnd ∧ rg.rgEnd ≤ limit

/-- A region as the source can store it, in two words. -/
def VmRg.IsWord (rg : VmRg) : Prop :=
  (0 ≤ rg.rgStart ∧ rg.rgStart < 18446744073709551616) ∧
    0 ≤ rg.rgEnd ∧ rg.rgEnd < 18446744073709551616

instance (rg : VmRg) : Decidable rg.IsWord := inferInstanceAs (Decidable (_ ∧ _))

/-- The number of listed regions that hold an address. -/
def coverCount (rgs : List VmRg) (addr : Int) : Nat :=
  Cover.count (Cover.Inside VmRg.rgStart VmRg.rgEnd) rgs addr

/-- The number of pieces of the given size that fit into a region. -/
def VmRg.pieces (size : Int) (rg : VmRg) : Nat := ((rg.rgEnd - rg.rgStart) / size).toNat

/-- The pieces `taken` are carved off a free list `before` and leave `after`. -/
structure Carves (limit size : Int) (before after taken : List VmRg) : Prop where
  within : ∀ rg ∈ after, rg.Within limit
  taken_within : ∀ rg ∈ taken, rg.Within limit
  taken_size : ∀ rg ∈ taken, rg.rgEnd = rg.rgStart + size
  cover : ∀ addr, coverCount before addr = coverCount after addr + coverCount taken addr
  number : taken.length = (before.map (VmRg.pieces size)).sum

variable {limit size : Int} {rgit : VmRg} {rest after taken : List VmRg}

@[simp] theorem coverCount_nil (addr : Int) : coverCount [] addr = 0 := rfl

@[simp] theorem coverCount_append (left right : List VmRg) (addr : Int) :
    coverCount (left ++ right) addr = coverCount left addr + coverCount right addr :=
  Cover.count_append _ left right addr

theorem coverCount_cons (rg : VmRg) (rgs : List VmRg) (addr : Int) :
    coverCount (rg :: rgs) addr =
      (if rg.rgStart ≤ addr ∧ addr < rg.rgEnd then 1 else 0) + coverCount rgs addr :=
  Cover.count_cons _ rg rgs addr

theorem isWord_ulong (first last : Int) : (⟨ulong first, ulong last⟩ : VmRg).IsWord :=
  ⟨ulong_bounds first, ulong_bounds last⟩

theorem carves_nil (limit size : Int) : Carves limit size [] [] [] := by
  refine ⟨?_, ?_, ?_, ?_, ?_⟩ <;> simp

/-- A piece is cut off the front of a region that has room for more. -/
private theorem Carves.split (hSize : 1 ≤ size) (hIn : rgit.Within limit)
    (hFits : rgit.rgStart + size < rgit.rgEnd)
    (h : Carves limit size (⟨rgit.rgStart + size, rgit.rgEnd⟩ :: rest) after taken) :
    Carves limit size (rgit :: rest) after (⟨rgit.rgStart, rgit.rgStart + size⟩ :: taken) := by
  obtain ⟨hLow, hOrder, hHigh⟩ := hIn
  refine ⟨h.within, ?_, ?_, ?_, ?_⟩
  · rw [List.forall_mem_cons]
    exact ⟨⟨hLow, by simp only; omega, by simp only; omega⟩, h.taken_within⟩
  · rw [List.forall_mem_cons]
    exact ⟨rfl, h.taken_size⟩
  · intro addr
    have hCover := h.cover addr
    rw [coverCount_cons] at hCover ⊢
    rw [coverCount_cons]
    simp only at hCover ⊢
    split_ifs at hCover ⊢ <;> omega
  · have hDiv : (rgit.rgEnd - rgit.rgStart) / size =
        (rgit.rgEnd - (rgit.rgStart + size)) / size + 1 := by
      have hSplit := Int.add_mul_ediv_right (rgit.rgEnd - (rgit.rgStart + size)) 1
        (show size ≠ 0 by omega)
      rw [← hSplit]
      congr 1
      omega
    have hPos : 0 ≤ (rgit.rgEnd - (rgit.rgStart + size)) / size :=
      Int.ediv_nonneg (by omega) (by omega)
    rw [List.length_cons, h.number, List.map_cons, List.map_cons, List.sum_cons, List.sum_cons]
    simp only [VmRg.pieces, hDiv]
    omega

/-- A region is taken whole; in its place is the next one, or an empty one. -/
private theorem Carves.whole {next : List VmRg} (hSize : 1 ≤ size) (hIn : rgit.Within limit)
    (hFits : rgit.rgEnd = rgit.rgStart + size) (h : Carves limit size next after taken)
    (hCover : ∀ addr, coverCount next addr = coverCount rest addr)
    (hNumber : (next.map (VmRg.pieces size)).sum = (rest.map (VmRg.pieces size)).sum) :
    Carves limit size (rgit :: rest) after (⟨rgit.rgStart, rgit.rgStart + size⟩ :: taken) := by
  have hPiece : (⟨rgit.rgStart, rgit.rgStart + size⟩ : VmRg) = rgit := by
    rw [← hFits]
  refine ⟨h.within, ?_, ?_, ?_, ?_⟩
  · rw [hPiece, List.forall_mem_cons]
    exact ⟨hIn, h.taken_within⟩
  · rw [hPiece, List.forall_mem_cons]
    exact ⟨hFits, h.taken_size⟩
  · intro addr
    have := h.cover addr
    rw [coverCount_cons, hPiece, coverCount_cons, ← hCover]
    omega
  · have hOne : VmRg.pieces size rgit = 1 := by
      rw [VmRg.pieces, hFits, add_sub_cancel_left, Int.ediv_self (by omega)]
      rfl
    rw [List.length_cons, h.number, List.map_cons, List.sum_cons, hOne, hNumber]
    omega

/-- A region that is too small is passed by. -/
private theorem Carves.pass (hIn : rgit.Within limit)
    (hFits : rgit.rgEnd < rgit.rgStart + size) (h : Carves limit size rest after taken) :
    Carves limit size (rgit :: rest) (rgit :: after) taken := by
  refine ⟨?_, h.taken_within, h.taken_size, ?_, ?_⟩
  · rw [List.forall_mem_cons]
    exact ⟨hIn, h.within⟩
  · intro addr
    have := h.cover addr
    rw [coverCount_cons, coverCount_cons]
    omega
  · have hNone : VmRg.pieces size rgit = 0 := by
      rw [VmRg.pieces, Int.ediv_eq_zero_of_lt (by have := hIn.2.1; omega) (by omega)]
      rfl
    rw [h.number, List.map_cons, List.sum_cons, hNone]
    omega

/-! One round of the search -/

/-- The region is too small for the search, by the sum that it tests. -/
def VmRg.Passed (size : Int) (rg : VmRg) : Prop := rg.rgEnd < ulong (rg.rgStart + size)

section Round

variable {fuel : Nat} {newrg newrg' : VmRg} {before rgs rgs' : List VmRg}

theorem firstFitLoop_pass (h : rgit.Passed size) :
    firstFitLoop size (fuel + 1) newrg (rgit :: rest) =
      (firstFitLoop size fuel newrg rest).map fun result => (result.1, rgit :: result.2) := by
  have hFits : ¬ ulong (rgit.rgStart + size) ≤ rgit.rgEnd := not_le.mpr h
  rw [firstFitLoop, if_neg hFits]

theorem firstFitLoop_shrink (h : ulong (rgit.rgStart + size) < rgit.rgEnd) :
    firstFitLoop size (fuel + 1) newrg (rgit :: rest) =
      firstFitLoop size fuel ⟨rgit.rgStart, ulong (rgit.rgStart + size)⟩
        (⟨ulong (rgit.rgStart + size), rgit.rgEnd⟩ :: rest) := by
  rw [firstFitLoop, if_pos h.le, if_pos h]

theorem firstFitLoop_clone {nextrg : VmRg} (h : ulong (rgit.rgStart + size) = rgit.rgEnd) :
    firstFitLoop size (fuel + 1) newrg (rgit :: nextrg :: rest) =
      firstFitLoop size fuel rgit (nextrg :: rest) := by
  rw [firstFitLoop, if_pos h.le, if_neg h.not_lt, h]

theorem firstFitLoop_dummy (h : ulong (rgit.rgStart + size) = rgit.rgEnd) :
    firstFitLoop size (fuel + 1) newrg [rgit] =
      firstFitLoop size fuel rgit [⟨rgit.rgEnd, rgit.rgEnd⟩] := by
  rw [firstFitLoop, if_pos h.le, if_neg h.not_lt, h]

/-- Whether the search comes to an end does not depend on what it has found. -/
theorem firstFitLoop_isSome (fuel : Nat) (newrg newrg' : VmRg) (rgs : List VmRg) :
    (firstFitLoop size fuel newrg rgs).isSome = (firstFitLoop size fuel newrg' rgs).isSome := by
  induction fuel generalizing newrg newrg' rgs with
  | zero => cases rgs <;> rfl
  | succ fuel ih =>
      cases rgs with
      | nil => rfl
      | cons rgit rest =>
          rcases lt_trichotomy (ulong (rgit.rgStart + size)) rgit.rgEnd with hMore | hExact | hPass
          · rw [firstFitLoop_shrink hMore, firstFitLoop_shrink hMore]
          · cases rest with
            | cons nextrg rest => rw [firstFitLoop_clone hExact, firstFitLoop_clone hExact]
            | nil => rw [firstFitLoop_dummy hExact, firstFitLoop_dummy hExact]
          · rw [firstFitLoop_pass hPass, firstFitLoop_pass hPass, Option.isSome_map,
              Option.isSome_map]
            exact ih newrg newrg' rest

/-- More rounds do not change the result of a search that has returned. -/
theorem firstFitLoop_succ {result : VmRg × List VmRg}
    (h : firstFitLoop size fuel newrg rgs = some result) :
    firstFitLoop size (fuel + 1) newrg rgs = some result := by
  induction fuel generalizing newrg rgs result with
  | zero =>
      cases rgs with
      | nil => exact h
      | cons rgit rest => simp [firstFitLoop] at h
  | succ fuel ih =>
      cases rgs with
      | nil => exact h
      | cons rgit rest =>
          rcases lt_trichotomy (ulong (rgit.rgStart + size)) rgit.rgEnd with hMore | hExact | hPass
          · rw [firstFitLoop_shrink hMore] at h ⊢
            exact ih h
          · cases rest with
            | cons nextrg rest =>
                rw [firstFitLoop_clone hExact] at h ⊢
                exact ih h
            | nil =>
                rw [firstFitLoop_dummy hExact] at h ⊢
                exact ih h
          · rw [firstFitLoop_pass hPass] at h ⊢
            obtain ⟨inner, hLoop, rfl⟩ := Option.map_eq_some_iff.mp h
            rw [ih hLoop]
            rfl

theorem firstFitLoop_add {result : VmRg × List VmRg}
    (h : firstFitLoop size fuel newrg rgs = some result) (more : Nat) :
    firstFitLoop size (fuel + more) newrg rgs = some result := by
  induction more with
  | zero => exact h
  | succ more ih => exact firstFitLoop_succ ih

/-! The search as a relation -/

/-- A search of `rgs` that comes to an end, from the region found so far to the one
found in the end and the list that is left. -/
inductive Search (size : Int) : VmRg → List VmRg → VmRg → List VmRg → Prop where
  | done (newrg : VmRg) : Search size newrg [] newrg []
  | pass {newrg newrg' rgit : VmRg} {rest after : List VmRg} (hPass : rgit.Passed size)
      (hRest : Search size newrg rest newrg' after) :
      Search size newrg (rgit :: rest) newrg' (rgit :: after)
  | shrink {newrg newrg' rgit : VmRg} {rest after : List VmRg}
      (hMore : ulong (rgit.rgStart + size) < rgit.rgEnd)
      (hRest : Search size ⟨rgit.rgStart, ulong (rgit.rgStart + size)⟩
        (⟨ulong (rgit.rgStart + size), rgit.rgEnd⟩ :: rest) newrg' after) :
      Search size newrg (rgit :: rest) newrg' after
  | clone {newrg newrg' rgit nextrg : VmRg} {rest after : List VmRg}
      (hExact : ulong (rgit.rgStart + size) = rgit.rgEnd)
      (hRest : Search size rgit (nextrg :: rest) newrg' after) :
      Search size newrg (rgit :: nextrg :: rest) newrg' after
  | dummy {newrg newrg' rgit : VmRg} {after : List VmRg}
      (hExact : ulong (rgit.rgStart + size) = rgit.rgEnd)
      (hRest : Search size rgit [⟨rgit.rgEnd, rgit.rgEnd⟩] newrg' after) :
      Search size newrg [rgit] newrg' after

/-- What the loop returns comes from a search. -/
theorem firstFitLoop_search (h : firstFitLoop size fuel newrg rgs = some (newrg', rgs')) :
    Search size newrg rgs newrg' rgs' := by
  induction fuel generalizing newrg newrg' rgs rgs' with
  | zero =>
      cases rgs with
      | nil =>
          obtain ⟨rfl, rfl⟩ : newrg = newrg' ∧ [] = rgs' := by simpa [firstFitLoop] using h
          exact .done newrg
      | cons rgit rest => simp [firstFitLoop] at h
  | succ fuel ih =>
      cases rgs with
      | nil =>
          obtain ⟨rfl, rfl⟩ : newrg = newrg' ∧ [] = rgs' := by simpa [firstFitLoop] using h
          exact .done newrg
      | cons rgit rest =>
          rcases lt_trichotomy (ulong (rgit.rgStart + size)) rgit.rgEnd with hMore | hExact | hPass
          · rw [firstFitLoop_shrink hMore] at h
            exact .shrink hMore (ih h)
          · cases rest with
            | cons nextrg rest =>
                rw [firstFitLoop_clone hExact] at h
                exact .clone hExact (ih h)
            | nil =>
                rw [firstFitLoop_dummy hExact] at h
                exact .dummy hExact (ih h)
          · rw [firstFitLoop_pass hPass] at h
            obtain ⟨⟨newrg'', after⟩, hLoop, hPair⟩ := Option.map_eq_some_iff.mp h
            obtain ⟨rfl, rfl⟩ : newrg'' = newrg' ∧ rgit :: after = rgs' := by simpa using hPair
            exact .pass hPass (ih hLoop)

/-- And every search is found with enough rounds. -/
theorem Search.loop (h : Search size newrg rgs newrg' rgs') :
    ∃ fuel, firstFitLoop size fuel newrg rgs = some (newrg', rgs') := by
  induction h with
  | done newrg => exact ⟨0, rfl⟩
  | pass hPass _ ih =>
      obtain ⟨fuel, hLoop⟩ := ih
      refine ⟨fuel + 1, ?_⟩
      rw [firstFitLoop_pass hPass, hLoop]
      rfl
  | shrink hMore _ ih =>
      obtain ⟨fuel, hLoop⟩ := ih
      exact ⟨fuel + 1, by rwa [firstFitLoop_shrink hMore]⟩
  | clone hExact _ ih =>
      obtain ⟨fuel, hLoop⟩ := ih
      exact ⟨fuel + 1, by rwa [firstFitLoop_clone hExact]⟩
  | dummy hExact _ ih =>
      obtain ⟨fuel, hLoop⟩ := ih
      exact ⟨fuel + 1, by rwa [firstFitLoop_dummy hExact]⟩

/-- Regions that are too small stay as they are. -/
theorem Search.append (hBefore : ∀ rg ∈ before, rg.Passed size)
    (h : Search size newrg rgs newrg' rgs') :
    Search size newrg (before ++ rgs) newrg' (before ++ rgs') := by
  induction before with
  | nil => exact h
  | cons rgit before ih =>
      obtain ⟨hHead, hTail⟩ := List.forall_mem_cons.mp hBefore
      exact .pass hHead (ih hTail)

/-- A list of such regions stays as it is. -/
theorem Search.miss (hMiss : ∀ rg ∈ rgs, rg.Passed size) (newrg : VmRg) :
    Search size newrg rgs newrg rgs := by
  have hDone := Search.append hMiss (.done newrg)
  rwa [List.append_nil] at hDone

/-- Behind them the search goes on as if they were not there. -/
theorem Search.of_append (hBefore : ∀ rg ∈ before, rg.Passed size)
    (h : Search size newrg (before ++ rgs) newrg' rgs') :
    ∃ after, rgs' = before ++ after ∧ Search size newrg rgs newrg' after := by
  induction before generalizing rgs' with
  | nil => exact ⟨rgs', rfl, h⟩
  | cons rgit before ih =>
      obtain ⟨hHead, hTail⟩ := List.forall_mem_cons.mp hBefore
      rw [VmRg.Passed] at hHead
      generalize hList : rgit :: before ++ rgs = list at h
      cases h with
      | done => simp at hList
      | pass hPass hRest =>
          obtain ⟨rfl, rfl⟩ := List.cons.inj hList
          obtain ⟨after, rfl, hAfter⟩ := ih hTail hRest
          exact ⟨after, rfl, hAfter⟩
      | shrink hMore =>
          obtain ⟨rfl, -⟩ := List.cons.inj hList
          omega
      | clone hExact | dummy hExact =>
          obtain ⟨rfl, -⟩ := List.cons.inj hList
          omega

/-- The search carves pieces of the requested size off the free list and hands
out the last of them, if there is one. -/
theorem Search.carves (hSize : 1 ≤ size) (hLimit : limit + size < 18446744073709551616)
    (h : Search size newrg rgs newrg' rgs') (hIn : ∀ rg ∈ rgs, rg.Within limit) :
    ∃ taken, Carves limit size rgs rgs' taken ∧ newrg' = taken.getLastD newrg := by
  have hRange : ∀ {rg : VmRg}, rg.Within limit → ulong (rg.rgStart + size) = rg.rgStart + size := by
    rintro rg ⟨hLow, hOrder, hHigh⟩
    exact ulong_of_range (by omega) (by omega)
  induction h with
  | done newrg => exact ⟨[], carves_nil limit size, rfl⟩
  | @pass _ _ rgit _ _ hPass _ ih =>
      obtain ⟨hHead, hRest⟩ := List.forall_mem_cons.mp hIn
      obtain ⟨taken, hCarves, rfl⟩ := ih hRest
      rw [VmRg.Passed, hRange hHead] at hPass
      exact ⟨taken, hCarves.pass hHead hPass, rfl⟩
  | @shrink _ _ rgit _ _ hMore _ ih =>
      obtain ⟨hHead, hRest⟩ := List.forall_mem_cons.mp hIn
      rw [hRange hHead] at hMore ih
      obtain ⟨hLow, hOrder, hHigh⟩ := hHead
      have hLeft : (⟨rgit.rgStart + size, rgit.rgEnd⟩ : VmRg).Within limit :=
        ⟨by simp only; omega, by simp only; omega, hHigh⟩
      obtain ⟨taken, hCarves, rfl⟩ := ih (List.forall_mem_cons.mpr ⟨hLeft, hRest⟩)
      exact ⟨_, hCarves.split hSize ⟨hLow, hOrder, hHigh⟩ hMore, List.getLastD_cons.symm⟩
  | @clone _ _ rgit _ _ _ hExact _ ih =>
      obtain ⟨hHead, hRest⟩ := List.forall_mem_cons.mp hIn
      rw [hRange hHead] at hExact
      obtain ⟨taken, hCarves, rfl⟩ := ih hRest
      have hWhole := hCarves.whole hSize hHead hExact.symm (fun _ => rfl) rfl
      rw [hExact] at hWhole
      exact ⟨_, hWhole, List.getLastD_cons.symm⟩
  | @dummy _ _ rgit after hExact _ ih =>
      obtain ⟨hHead, -⟩ := List.forall_mem_cons.mp hIn
      rw [hRange hHead] at hExact
      have hEmpty : (⟨rgit.rgEnd, rgit.rgEnd⟩ : VmRg).Within limit := by
        obtain ⟨hLow, hOrder, hHigh⟩ := hHead
        exact ⟨by simp only; omega, Int.le_refl _, hHigh⟩
      obtain ⟨taken, hCarves, rfl⟩ := ih (by simpa using hEmpty)
      have hWhole :
          Carves limit size [rgit] after (⟨rgit.rgStart, rgit.rgStart + size⟩ :: taken) := by
        refine hCarves.whole hSize hHead hExact.symm (fun addr => ?_) ?_
        · rw [coverCount_cons, if_neg (by simp only; omega), Nat.zero_add]
        · simp [VmRg.pieces]
      rw [hExact] at hWhole
      exact ⟨_, hWhole, List.getLastD_cons.symm⟩

/-- Whatever is on the list, the search only stores words. -/
theorem Search.words (h : Search size newrg rgs newrg' rgs') (hNew : newrg.IsWord)
    (hRgs : ∀ rg ∈ rgs, rg.IsWord) : newrg'.IsWord ∧ ∀ rg ∈ rgs', rg.IsWord := by
  induction h with
  | done newrg => exact ⟨hNew, hRgs⟩
  | pass hPass _ ih =>
      obtain ⟨hHead, hRest⟩ := List.forall_mem_cons.mp hRgs
      obtain ⟨hLast, hAfter⟩ := ih hNew hRest
      exact ⟨hLast, List.forall_mem_cons.mpr ⟨hHead, hAfter⟩⟩
  | shrink hMore _ ih =>
      obtain ⟨hHead, hRest⟩ := List.forall_mem_cons.mp hRgs
      apply ih
      · exact ⟨hHead.1, ulong_bounds _⟩
      · exact List.forall_mem_cons.mpr ⟨⟨ulong_bounds _, hHead.2⟩, hRest⟩
  | clone hExact _ ih =>
      obtain ⟨hHead, hRest⟩ := List.forall_mem_cons.mp hRgs
      exact ih hHead hRest
  | @dummy _ _ rgit _ hExact _ ih =>
      obtain ⟨hHead, -⟩ := List.forall_mem_cons.mp hRgs
      have hEmpty : (⟨rgit.rgEnd, rgit.rgEnd⟩ : VmRg).IsWord := ⟨hHead.2, hHead.2⟩
      exact ih hHead (by simpa using hEmpty)

/-- The search leaves no region behind that is still large enough. -/
theorem Search.passed (h : Search size newrg rgs newrg' rgs') : ∀ rg ∈ rgs', rg.Passed size := by
  induction h with
  | done newrg => exact List.forall_mem_nil _
  | pass hPass _ ih => exact List.forall_mem_cons.mpr ⟨hPass, ih⟩
  | shrink _ _ ih => exact ih
  | clone _ _ ih => exact ih
  | dummy _ _ ih => exact ih

/-- The last node of a list is never removed. -/
theorem Search.ne_nil (h : Search size newrg rgs newrg' rgs') (hSome : rgs ≠ []) : rgs' ≠ [] := by
  induction h with
  | done newrg => exact hSome
  | pass _ _ _ => exact List.cons_ne_nil _ _
  | shrink _ _ ih => exact ih (List.cons_ne_nil _ _)
  | clone _ _ ih => exact ih (List.cons_ne_nil _ _)
  | dummy _ _ ih => exact ih (List.cons_ne_nil _ _)

/-- A dummy region that ends at 0 stays at the end of the list. -/
theorem Search.getLast? (h : Search size newrg rgs newrg' rgs')
    (hLast : rgs.getLast? = some ⟨0, 0⟩) :
    rgs'.getLast? = some ⟨0, 0⟩ := by
  induction h with
  | done newrg => exact hLast
  | @pass _ _ rgit rest after _ hRest ih =>
      cases rest with
      | nil =>
          cases hRest
          exact hLast
      | cons nextrg rest =>
          have hAfter := ih (by simpa using hLast)
          rw [List.getLast?_cons, hAfter]
          rfl
  | @shrink _ _ rgit rest _ hMore _ ih =>
      apply ih
      cases rest with
      | nil =>
          obtain rfl : rgit = ⟨0, 0⟩ := by simpa using hLast
          have hLow := (ulong_bounds (0 + size)).1
          simp only at hMore
          omega
      | cons nextrg rest => simpa using hLast
  | clone _ _ ih => exact ih (by simpa using hLast)
  | @dummy _ _ rgit _ _ _ ih =>
      obtain rfl : rgit = ⟨0, 0⟩ := by simpa using hLast
      exact ih rfl

end Round

/-- The endings of `get_free_vmrg_area`: with a region, without one, or not at all. -/
inductive SearchEnd (s : Caller) (size : Int) : Outcome Caller VmRg → Prop where
  | found (newrg : VmRg) (rgs : List VmRg)
      (hSearch : Search size ⟨ulong (-1), ulong (-1)⟩ s.mm.mmap.vmFreergList newrg rgs)
      (hStart : newrg.rgStart ≠ ulong (-1)) : SearchEnd s size (.ok newrg (s.setVmFreergList rgs))
  | missed (newrg : VmRg) (rgs : List VmRg)
      (hSearch : Search size ⟨ulong (-1), ulong (-1)⟩ s.mm.mmap.vmFreergList newrg rgs)
      (hStart : newrg.rgStart = ulong (-1)) : SearchEnd s size (.fail (s.setVmFreergList rgs))
  | undefined : SearchEnd s size .undefined

theorem getFreeVmrgArea_ends (fuel : Nat) (size : Int) (s : Caller) :
    SearchEnd s size (getFreeVmrgArea fuel 0 size s) := by
  simp only [getFreeVmrgArea, getVmaByNum_zero]
  split_ifs with hNone
  · have hSearch : Search size ⟨ulong (-1), ulong (-1)⟩ s.mm.mmap.vmFreergList
        ⟨ulong (-1), ulong (-1)⟩ [] := by
      rw [hNone]
      exact .done _
    have hMissed := SearchEnd.missed (s := s) _ _ hSearch rfl
    rwa [s.setVmFreergList_self hNone] at hMissed
  · cases hLoop : firstFitLoop size fuel ⟨ulong (-1), ulong (-1)⟩ s.mm.mmap.vmFreergList with
    | none => exact .undefined
    | some result =>
        have hSearch := firstFitLoop_search hLoop
        simp only
        split_ifs with hStart
        · exact .missed result.1 result.2 hSearch hStart
        · exact .found result.1 result.2 hSearch hStart

/-- A search on a list with regions that comes to an end is found with enough rounds. -/
theorem Search.getFreeVmrgArea {s : Caller} {newrg : VmRg} {rgs : List VmRg}
    (h : Search size ⟨ulong (-1), ulong (-1)⟩ s.mm.mmap.vmFreergList newrg rgs) :
    ∃ fuel, getFreeVmrgArea fuel 0 size s =
      if newrg.rgStart = ulong (-1) then .fail (s.setVmFreergList rgs)
      else .ok newrg (s.setVmFreergList rgs) := by
  obtain ⟨fuel, hLoop⟩ := h.loop
  refine ⟨fuel, ?_⟩
  simp only [Btlos.getFreeVmrgArea, getVmaByNum_zero, hLoop]
  by_cases hNone : s.mm.mmap.vmFreergList = []
  · rw [hNone] at h
    cases h
    rw [if_pos hNone, if_pos rfl, s.setVmFreergList_self hNone]
  · rw [if_neg hNone]

theorem getFreeVmrgArea_add {fuel : Nat} {vmaid size : Int} {s : Caller}
    (h : getFreeVmrgArea fuel vmaid size s ≠ .undefined) (more : Nat) :
    getFreeVmrgArea (fuel + more) vmaid size s = getFreeVmrgArea fuel vmaid size s := by
  cases hArea : getVmaByNum s.mm vmaid with
  | none => simp only [getFreeVmrgArea, hArea]
  | some curVma =>
      simp only [getFreeVmrgArea, hArea] at h ⊢
      split_ifs at h ⊢
      · rfl
      · cases hLoop : firstFitLoop size fuel ⟨ulong (-1), ulong (-1)⟩ curVma.vmFreergList with
        | none => simp [hLoop] at h
        | some result => rw [firstFitLoop_add hLoop more]

/-- So two searches that return agree. -/
theorem getFreeVmrgArea_unique {fuel fuel' : Nat} {vmaid size : Int} {s : Caller}
    (h : getFreeVmrgArea fuel vmaid size s ≠ .undefined)
    (h' : getFreeVmrgArea fuel' vmaid size s ≠ .undefined) :
    getFreeVmrgArea fuel vmaid size s = getFreeVmrgArea fuel' vmaid size s := by
  rw [← getFreeVmrgArea_add h fuel', ← getFreeVmrgArea_add h' fuel, Nat.add_comm]

end Btlos
