import Btlos.Vm.Layout
import Btlos.Library.RingWalk

/-! Whether the search for a free region comes to an end. While it stays with one
node, it walks around the 64-bit words in steps of the size, until it gets to the
end of the region or beyond. -/
namespace Btlos

open Transition

/-- The traversal of the list comes to an end. -/
def SearchReturns (size : Int) (rgs : List VmRg) : Prop :=
  ∃ fuel newrg, (firstFitLoop size fuel newrg rgs).isSome

/-- The number of words, around which sums of `unsigned long` go. -/
def wordCount : Int := 18446744073709551616

/-- The condition under which ALLOC gets past a region: the end of the region is
not above the last address that is reached from its start in steps of the size. -/
def VmRg.GetsPast (size : Int) (rg : VmRg) : Prop :=
  rg.rgEnd ≤ RingWalk.highest wordCount size rg.rgStart

instance (size : Int) (rg : VmRg) : Decidable (rg.GetsPast size) :=
  inferInstanceAs (Decidable (_ ≤ _))

section List

variable {size : Int} {rgit : VmRg} {rest : List VmRg}

/-- One round does not decide whether the search comes to an end. -/
private theorem searchReturns_round {rgs : List VmRg}
    (hRound : ∀ fuel newrg, ∃ newrg', (firstFitLoop size (fuel + 1) newrg (rgit :: rest)).isSome =
      (firstFitLoop size fuel newrg' rgs).isSome) :
    SearchReturns size (rgit :: rest) ↔ SearchReturns size rgs := by
  constructor
  · rintro ⟨fuel, newrg, hSome⟩
    cases fuel with
    | zero => simp [firstFitLoop] at hSome
    | succ fuel =>
        obtain ⟨newrg', hSame⟩ := hRound fuel newrg
        exact ⟨fuel, newrg', hSame ▸ hSome⟩
  · rintro ⟨fuel, newrg, hSome⟩
    obtain ⟨newrg', hSame⟩ := hRound fuel newrg
    refine ⟨fuel + 1, newrg, ?_⟩
    rwa [hSame, firstFitLoop_isSome fuel newrg' newrg]

theorem searchReturns_shrink (h : ulong (rgit.rgStart + size) < rgit.rgEnd) :
    SearchReturns size (rgit :: rest) ↔
      SearchReturns size (⟨ulong (rgit.rgStart + size), rgit.rgEnd⟩ :: rest) :=
  searchReturns_round fun _ _ => ⟨_, by rw [firstFitLoop_shrink h]⟩

/-- A node that the search is done with makes way for the next one. -/
theorem searchReturns_next (hRest : rest ≠ []) (h : rgit.rgEnd ≤ ulong (rgit.rgStart + size)) :
    SearchReturns size (rgit :: rest) ↔ SearchReturns size rest := by
  apply searchReturns_round
  intro fuel newrg
  rcases h.eq_or_lt with hExact | hPass
  · cases rest with
    | nil => exact absurd rfl hRest
    | cons nextrg rest => exact ⟨_, by rw [firstFitLoop_clone hExact.symm]⟩
  · exact ⟨newrg, by rw [firstFitLoop_pass hPass, Option.isSome_map]⟩

theorem position_one_eq (size start : Int) :
    RingWalk.position wordCount size start 1 = ulong (start + size) := RingWalk.position_one

/-- The search is done with a node once a step leads to its end or beyond. -/
theorem searchReturns_of_position (hRest : rest ≠ []) (hReturns : SearchReturns size rest) {n : Nat}
    (hReach : rgit.rgEnd ≤ RingWalk.position wordCount size rgit.rgStart (n + 1)) :
    SearchReturns size (rgit :: rest) := by
  induction n generalizing rgit with
  | zero =>
      rw [Nat.zero_add, position_one_eq] at hReach
      exact (searchReturns_next hRest hReach).mpr hReturns
  | succ n ih =>
      by_cases hDone : rgit.rgEnd ≤ ulong (rgit.rgStart + size)
      · exact (searchReturns_next hRest hDone).mpr hReturns
      · rw [searchReturns_shrink (not_le.mp hDone)]
        apply ih
        rw [RingWalk.position_succ] at hReach
        exact hReach

/-- And if no step does, it stays with the node for ever. -/
theorem exists_position_of_returns (hRest : rest ≠ []) {fuel : Nat} {newrg : VmRg}
    (hSome : (firstFitLoop size fuel newrg (rgit :: rest)).isSome) :
    (∃ n, rgit.rgEnd ≤ RingWalk.position wordCount size rgit.rgStart (n + 1)) ∧
      SearchReturns size rest := by
  induction fuel generalizing newrg rgit with
  | zero => simp [firstFitLoop] at hSome
  | succ fuel ih =>
      by_cases hDone : rgit.rgEnd ≤ ulong (rgit.rgStart + size)
      · refine ⟨⟨0, ?_⟩, (searchReturns_next hRest hDone).mp ⟨_, _, hSome⟩⟩
        rwa [Nat.zero_add, position_one_eq]
      · rw [firstFitLoop_shrink (not_le.mp hDone)] at hSome
        obtain ⟨⟨n, hReach⟩, hReturns⟩ := ih hSome
        refine ⟨⟨n + 1, ?_⟩, hReturns⟩
        rw [RingWalk.position_succ]
        exact hReach

theorem searchReturns_cons_iff (hRest : rest ≠ []) :
    SearchReturns size (rgit :: rest) ↔ rgit.GetsPast size ∧ SearchReturns size rest := by
  have hWords : 0 < wordCount := by decide
  rw [VmRg.GetsPast, ← RingWalk.exists_le_position_iff hWords]
  constructor
  · rintro ⟨fuel, newrg, hSome⟩
    exact exists_position_of_returns hRest hSome
  · rintro ⟨⟨n, hReach⟩, hReturns⟩
    exact searchReturns_of_position hRest hReturns hReach

/-- The empty region at the end of the list is taken again and again when the
size is 0, and is passed otherwise. -/
theorem searchReturns_dummy_iff : SearchReturns size [⟨0, 0⟩] ↔ ulong size ≠ 0 := by
  by_cases hZero : ulong size = 0
  · refine iff_of_false ?_ (not_not.mpr hZero)
    have hExact : ulong ((⟨0, 0⟩ : VmRg).rgStart + size) = (⟨0, 0⟩ : VmRg).rgEnd := by
      rwa [Int.zero_add]
    rintro ⟨fuel, newrg, hSome⟩
    induction fuel generalizing newrg with
    | zero => simp [firstFitLoop] at hSome
    | succ fuel ih =>
        rw [firstFitLoop_dummy hExact] at hSome
        exact ih _ hSome
  · have hLow := (ulong_bounds size).1
    have hPass : VmRg.Passed size ⟨0, 0⟩ := by
      rw [VmRg.Passed, Int.zero_add]
      simp only
      omega
    refine iff_of_true ⟨1, ⟨0, 0⟩, ?_⟩ hZero
    rw [firstFitLoop_pass hPass]
    rfl

/-- A list with such a region at its end. -/
theorem searchReturns_iff {rgs : List VmRg} (hLast : rgs.getLast? = some ⟨0, 0⟩) :
    SearchReturns size rgs ↔ ulong size ≠ 0 ∧ ∀ rg ∈ rgs, rg.GetsPast size := by
  induction rgs with
  | nil => simp at hLast
  | cons rgit rest ih =>
      cases rest with
      | nil =>
          obtain rfl : rgit = ⟨0, 0⟩ := by simpa using hLast
          have hPast : VmRg.GetsPast size ⟨0, 0⟩ := by
            have hGcd : (Int.gcd size wordCount : Int) ≤ wordCount :=
              Int.le_of_dvd (by decide) (Int.gcd_dvd_right size wordCount)
            simp only [VmRg.GetsPast, RingWalk.highest, Int.zero_emod]
            omega
          rw [searchReturns_dummy_iff]
          simp [hPast]
      | cons nextrg rest =>
          rw [searchReturns_cons_iff (by simp), ih (by simpa using hLast), and_left_comm,
            ← List.forall_mem_cons]

end List

/-! The free lists of a process -/

/-- The region that `init_mm` puts on the list is at its end. -/
def Caller.EndsInDummy (s : Caller) : Prop := s.mm.mmap.vmFreergList.getLast? = some ⟨0, 0⟩

section Step

variable {s t : Caller}

theorem Caller.EndsInDummy.brk {rgid size allocAddr : Int} {call : Outcome Caller Int}
    (h : s.EndsInDummy) (hEnd : BrkEnd s rgid size allocAddr call) :
    call.Ends Caller.EndsInDummy := by
  have hKept : ∀ t, (s.setVmEnd (brkRaised s size)).SameVm t → t.EndsInDummy := by
    intro t hSame
    rw [Caller.EndsInDummy, hSame.1]
    exact h
  cases hEnd with
  | undefined => trivial
  | gap => exact h
  | grown t _ _ hSame => exact hKept t hSame
  | refused t _ hSame => exact hKept t hSame

theorem Caller.EndsInDummy.alloc (h : s.EndsInDummy) (fuel : Nat) (junk : Byte)
    (rgid size allocAddr : Int) :
    (alloc fuel junk 0 rgid size allocAddr s).Ends Caller.EndsInDummy := by
  have hEnd := alloc_ends fuel junk rgid size allocAddr s
  generalize Btlos.alloc fuel junk 0 rgid size allocAddr s = call at hEnd ⊢
  cases hEnd with
  | undefined => trivial
  | found newrg rgs hSearch => exact hSearch.getLast? h
  | missed newrg rgs _ hSearch _ hBrk =>
      have hMissed : (s.setVmFreergList rgs).EndsInDummy := hSearch.getLast? h
      exact hMissed.brk hBrk

theorem Caller.EndsInDummy.release (h : s.EndsInDummy) (rgid : Int) :
    (free 0 rgid s).Ends Caller.EndsInDummy := by
  refine free_rule h h ?_
  have hLast : s.mm.mmap.vmFreergList.getLast? = some ⟨0, 0⟩ := h
  change (s.mm.symrgtbl rgid :: s.mm.mmap.vmFreergList).getLast? = some ⟨0, 0⟩
  rw [List.getLast?_cons, hLast]
  rfl

theorem Caller.EndsInDummy.step {label : VmCall × Bool} (h : s.EndsInDummy)
    (step : VmStep s label t) : t.EndsInDummy := by
  obtain ⟨fuel, junk, addr, hCode⟩ := step
  obtain ⟨call, ok⟩ := label
  cases call with
  | pgalloc size regIndex =>
      simp only [VmCall.run, Outcome.code?_bind_ok] at hCode
      exact (h.alloc fuel junk _ _ addr).of_code? hCode
  | pgfreeData regIndex => exact (h.release _).of_code? hCode

end Step

/-- The call returns when the traversal does. -/
theorem getFreeVmrgArea_returns_iff {s : Caller} (hSome : s.mm.mmap.vmFreergList ≠ [])
    (size : Int) :
    (∃ fuel, getFreeVmrgArea fuel 0 size s ≠ .undefined) ↔
      SearchReturns size s.mm.mmap.vmFreergList := by
  have hCall : ∀ fuel, getFreeVmrgArea fuel 0 size s ≠ .undefined ↔
      (firstFitLoop size fuel ⟨ulong (-1), ulong (-1)⟩ s.mm.mmap.vmFreergList).isSome := by
    intro fuel
    simp only [getFreeVmrgArea, getVmaByNum_zero, if_neg hSome]
    cases firstFitLoop size fuel ⟨ulong (-1), ulong (-1)⟩ s.mm.mmap.vmFreergList with
    | none => simp
    | some result =>
        simp only
        split_ifs <;> simp
  constructor
  · rintro ⟨fuel, hReturns⟩
    exact ⟨fuel, _, (hCall fuel).mp hReturns⟩
  · rintro ⟨fuel, newrg, hReturns⟩
    refine ⟨fuel, (hCall fuel).mpr ?_⟩
    rwa [firstFitLoop_isSome fuel _ newrg]

/-- In every state that allocations and releases of any size lead to, the search
of an ALLOC comes to an end exactly when its size is not 0 and it gets past every
region of the list. -/
theorem search_terminates_iff {mram activeMswp : Memphy} {labels : List (VmCall × Bool)}
    {s : Caller} (run : Runs VmStep (freshCaller mram activeMswp) labels s) (size : Int) :
    (∃ fuel, getFreeVmrgArea fuel 0 (cint size) s ≠ .undefined) ↔
      cint size ≠ 0 ∧ ∀ rg ∈ s.mm.mmap.vmFreergList, rg.GetsPast (cint size) := by
  have hLast : s.mm.mmap.vmFreergList.getLast? = some ⟨0, 0⟩ :=
    run.invariant Caller.EndsInDummy rfl fun _ _ _ h step => h.step step
  have hSome : s.mm.mmap.vmFreergList ≠ [] := by
    intro hNone
    simp [hNone] at hLast
  have hZero : ulong (cint size) = 0 ↔ cint size = 0 := by
    have hBounds := cint_bounds size
    unfold ulong
    omega
  rw [getFreeVmrgArea_returns_iff hSome, searchReturns_iff hLast, ne_eq, hZero]

/-- A region of 300 bytes on the list, searched for 100. -/
theorem search_terminates_small : ∃ s,
    Runs VmStep (freshCaller (initMemphy .zero 1024 1) (initMemphy .zero 4096 1))
      [(.pgalloc 300 0, true), (.pgfreeData 0, true)] s ∧
    ∃ fuel, getFreeVmrgArea fuel 0 (cint 100) s ≠ .undefined := by
  have hEval : (exec (boundedVmStep 600 0 0)
      (freshCaller (initMemphy .zero 1024 1) (initMemphy .zero 4096 1))
      [(.pgalloc 300 0, true), (.pgfreeData 0, true)]).any
        (fun s => s.mm.mmap.vmFreergList = [⟨0, 300⟩, ⟨0, 0⟩]) = true := by decide +kernel
  obtain ⟨s, hRun, hList⟩ := (Option.any_eq_true _ _).mp hEval
  have run := Runs.of_exec hRun fun _ _ _ h => (boundedVmStep_step h).1.1
  refine ⟨s, run, (search_terminates_iff run 100).mpr ⟨by decide, ?_⟩⟩
  rw [of_decide_eq_true hList]
  decide +kernel

/-- The first instruction of a process, ALLOC with size 0, never returns. -/
theorem search_of_nothing_hangs :
    ¬ ∃ fuel, getFreeVmrgArea fuel 0 (cint 0)
      (freshCaller (initMemphy .zero 1024 1) (initMemphy .zero 4096 1)) ≠ .undefined := by
  rw [getFreeVmrgArea_returns_iff (by decide)]
  exact fun hReturns => searchReturns_dummy_iff.mp hReturns (by decide)

end Btlos
