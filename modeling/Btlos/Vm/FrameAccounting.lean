import Btlos.Vm.Calls
import Btlos.Library.Ledger

/-! Who holds the frames of RAM. The path of `pg_getpage` that takes a free frame
does not store the new entry, so the first frame taken is lost. -/
namespace Btlos

open Transition

/-! What is lost once a frame has been taken -/

/-- RAM no longer knows all its frames: frame 0 is neither free nor recorded, or
RAM is used up and no entry records a frame other than 0. -/
structure Leaky (s : Caller) : Prop where
  fpn : ∀ pgn, pagingFpn (s.mm.pgd pgn) = 0
  recorded : ∀ pgn, pagingPagePresent (s.mm.pgd pgn) = true → pagingPteFpn (s.mm.pgd pgn) = 0
  taken : 0 ∉ s.mram.freeFpList
  frames : 1 ≤ s.mram.numfp
  lost : ((∀ pgn, pagingPagePresent (s.mm.pgd pgn) = false) ∧
      ∀ pages, s.mm.lruPgn = .nodes pages →
        (pages.length : Int) + s.mram.freeFpList.length ≤ s.mram.numfp) ∨
    s.mram.freeFpList = [] ∧ 2 ≤ s.mram.numfp

theorem pagingFpn_pteSwappedTo (vicpte : BitVec 32) (frame : Int) :
    pagingFpn (pteSwappedTo vicpte frame) = 0 := by
  rw [pteSwappedTo, pagingFpn_pteEvicted, cint]
  omega

theorem length_enlist_le (pgn : Int) (pages : List Int) :
    (pgn :: pages.erase pgn).length ≤ pages.length + 1 := by
  rw [List.length_cons]
  have := List.length_erase_le (a := pgn) (l := pages)
  omega

/-- Further requests for pages do not bring the frame back. -/
theorem Leaky.page {s : Caller} (h : Leaky s) (junk : Byte) (pgn : Int) :
    (pgGetpage junk pgn s).Ends Leaky := by
  have hEnd := pgGetpage_cases junk pgn s
  generalize pgGetpage junk pgn s = call at hEnd ⊢
  cases hEnd with
  | undefined => trivial
  | badPage | noVictim => exact h
  | resident pages hPgn hPresent hLru =>
      refine ⟨h.fpn, h.recorded, h.taken, h.frames, Or.inr ?_⟩
      apply h.lost.resolve_left
      intro hAbsent
      rw [hAbsent.1 pgn] at hPresent
      cases hPresent
  | freeFrame frame rest pages hPgn hPresent hFrame hLru =>
      refine ⟨h.fpn, h.recorded, ?_, h.frames, Or.inl ?_⟩
      · exact fun hMem => h.taken (by rw [hFrame]; exact List.mem_cons_of_mem _ hMem)
      · obtain ⟨hAbsent, hRoom⟩ := h.lost.resolve_right (by simp [hFrame])
        refine ⟨hAbsent, ?_⟩
        rintro pages' ⟨⟩
        have hBefore := hRoom pages hLru
        have hLength := length_enlist_le pgn pages
        rw [hFrame, List.length_cons] at hBefore
        push_cast at hBefore ⊢
        simp only [Memphy.numfp] at hBefore ⊢
        omega
  | noSwapFrame pages victim hPgn hPresent hFrame hLru hSwap =>
      refine ⟨h.fpn, h.recorded, h.taken, h.frames, h.lost.imp_left ?_⟩
      rintro ⟨hAbsent, hRoom⟩
      refine ⟨hAbsent, fun pages' hLru' => ?_⟩
      have hBefore := hRoom _ hLru
      obtain rfl : pages = pages' := by
        simp only [Caller.setLru] at hLru'
        split_ifs at hLru'
        exact PgnList.nodes.inj hLru'
      simp only [List.length_append, Caller.setLru] at hBefore ⊢
      omega
  | replaced pages victim frame rest mram mswp hPgn hPresent hFrame hLru hPages hSwap hRam hStorage
      hMswp =>
      have hTwo : 2 ≤ s.mram.numfp := by
        rcases h.lost with ⟨-, hRoom⟩ | ⟨-, hTwo⟩
        · have hBefore := hRoom _ hLru
          have hSome : 0 < pages.length := List.length_pos_iff.mpr hPages
          simp only [List.length_append, hFrame, List.length_nil, List.length_singleton] at hBefore
          omega
        · exact hTwo
      have hVictim := h.fpn victim
      refine ⟨fun other => ?_, fun other hOther => ?_, ?_, ?_, Or.inr ⟨?_, ?_⟩⟩
      · simp only [Function.update_apply]
        split_ifs
        · rw [pagingFpn_pteSetFpn, hVictim]
          rfl
        · exact pagingFpn_pteSwappedTo _ _
        · exact h.fpn other
      · simp only [Function.update_apply] at hOther ⊢
        split_ifs at hOther ⊢ with hPgn' hVictim'
        · rw [pagingPteFpn_pteSetFpn, hVictim]
          rfl
        · simp [pteSwappedTo] at hOther
        · exact h.recorded other hOther
      · rw [hRam.freeFpList]
        exact h.taken
      · rw [hRam.numfp]
        exact h.frames
      · rw [hRam.freeFpList]
        exact hFrame
      · rw [hRam.numfp]
        exact hTwo

theorem leaky_frameInvariant : FrameInvariant Leaky where
  samePaging := by
    rintro s t ⟨hPgd, hLru, hMram, -⟩ h
    obtain ⟨hFpn, hRecorded, hTaken, hFrames, hLost⟩ := h
    rw [← hPgd] at hFpn hRecorded hLost
    rw [← hMram] at hTaken hFrames hLost
    rw [← hLru] at hLost
    exact ⟨hFpn, hRecorded, hTaken, hFrames, hLost⟩
  page := fun junk pgn s h => h.page junk pgn
  contents := by
    rintro s mram hSame ⟨hFpn, hRecorded, hTaken, hFrames, hLost⟩
    rw [← hSame.freeFpList] at hTaken hLost
    rw [← hSame.numfp] at hFrames hLost
    exact ⟨hFpn, hRecorded, hTaken, hFrames, hLost⟩

/-! Before a frame has been taken -/

/-- No entry and no recent page yet, and RAM as it came from `init_memphy`. -/
structure Untouched (memramsz : Int) (s : Caller) : Prop where
  pgd : s.mm.pgd = fun _ => 0#32
  lru : s.mm.lruPgn = .nodes []
  mram : (initMemphy .zero memramsz 1).SameFrames s.mram

variable {memramsz : Int}

theorem Untouched.samePaging {s t : Caller} (h : Untouched memramsz s) (hSame : s.SamePaging t) :
    Untouched memramsz t := by
  obtain ⟨hPgd, hLru, hMram, -⟩ := hSame
  refine ⟨hPgd.trans h.pgd, hLru.trans h.lru, ?_⟩
  rw [hMram]
  exact h.mram

/-- The first request finds an absent page: without a free frame it fails, and
otherwise it takes frame 0. -/
theorem Untouched.page {s : Caller} (h : Untouched memramsz s) (junk : Byte) (pgn : Int) :
    (pgGetpage junk pgn s).Ends fun t =>
      (s.mram.freeFpList = [] → Untouched memramsz t) ∧
      (0 ≤ pgn ∧ pgn < pagingMaxPgn → s.mram.freeFpList ≠ [] → Leaky t) := by
  have hAbsent : ∀ other, pagingPagePresent (s.mm.pgd other) = false := by
    rw [h.pgd]
    exact fun _ => pagingPagePresent_zero
  have hEnd := pgGetpage_cases junk pgn s
  generalize pgGetpage junk pgn s = call at hEnd ⊢
  cases hEnd with
  | undefined => trivial
  | badPage hPgn => exact ⟨fun _ => h, fun hGood => by omega⟩
  | noVictim _ _ hFrame _ => exact ⟨fun _ => h, fun _ hNe => absurd hFrame hNe⟩
  | resident _ _ hPresent _ =>
      rw [hAbsent] at hPresent
      cases hPresent
  | noSwapFrame pages victim _ _ _ hLru _ | replaced pages victim _ _ _ _ _ _ _ hLru =>
      rw [h.lru] at hLru
      simp at hLru
  | freeFrame frame rest pages hPgn hPresent hFrame hLru =>
      refine ⟨fun hNone => absurd hFrame (by simp [hNone]), fun _ _ => ?_⟩
      obtain ⟨rfl, hRest, hCount⟩ := initMemphy_freeFpList_cons
        (h.mram.freeFpList.symm.trans hFrame)
      rw [← h.mram.numfp] at hCount
      obtain rfl : pages = [] := (PgnList.nodes.inj (h.lru.symm.trans hLru)).symm
      refine ⟨fun other => ?_, fun other hOther => ?_, hRest, ?_, Or.inl ⟨hAbsent, ?_⟩⟩
      · simp only [Caller.setLru, h.pgd]
        decide
      · exact absurd hOther (by simp [Caller.setLru, hAbsent])
      · simp only [Memphy.numfp] at hCount ⊢
        omega
      · rintro pages' ⟨⟩
        simp only [Memphy.numfp, List.erase_nil, List.length_singleton] at hCount ⊢
        omega

/-- Without any frame in RAM, no call ever gets a page. -/
theorem untouched_frameInvariant : FrameInvariant fun s : Caller =>
    Untouched memramsz s ∧ s.mram.freeFpList = [] where
  samePaging := by
    rintro s t hSame ⟨h, hNone⟩
    refine ⟨h.samePaging hSame, ?_⟩
    rw [hSame.2.2.1]
    exact hNone
  page := by
    rintro junk pgn s ⟨h, hNone⟩
    refine (h.page junk pgn).mono fun t ht => ⟨ht.1 hNone, ?_⟩
    rw [(ht.1 hNone).mram.freeFpList, ← h.mram.freeFpList]
    exact hNone
  contents := by
    rintro s mram hSame ⟨h, hNone⟩
    exact ⟨⟨h.pgd, h.lru, h.mram.trans hSame⟩, hSame.freeFpList.trans hNone⟩

/-- A call in the first state of a process either leaves it there, or a frame is lost. -/
theorem Untouched.run {s t : Caller} (h : Untouched memramsz s) (u : Uninit) (call : MemCall)
    (hCall : (call.run u s).state? = some t) :
    (s.mram.freeFpList = [] ∨ ¬ ReachesPaging s call → Untouched memramsz t) ∧
      (s.mram.freeFpList ≠ [] → ReachesPaging s call → Leaky t) := by
  by_cases hReaches : ReachesPaging s call
  · constructor
    · intro hNone
      have hEmpty := hNone.resolve_right (not_not.mpr hReaches)
      refine (Outcome.ends_iff.mp (MemCall.run_reaches untouched_frameInvariant ?_ u hReaches)
        t hCall).1
      intro junk pgn middle _ _ hSame
      refine untouched_frameInvariant.page junk pgn middle ⟨h.samePaging hSame, ?_⟩
      rw [hSame.2.2.1]
      exact hEmpty
    · intro hSome _
      refine Outcome.ends_iff.mp (MemCall.run_reaches leaky_frameInvariant ?_ u hReaches) t hCall
      intro junk pgn middle hLow hHigh hSame
      refine ((h.samePaging hSame).page junk pgn).mono fun last hLast => hLast.2 ⟨hLow, hHigh⟩ ?_
      rw [hSame.2.2.1]
      exact hSome
  · refine ⟨fun _ => ?_, fun _ hYes => absurd hYes hReaches⟩
    exact h.samePaging (Outcome.ends_iff.mp (MemCall.run_samePaging u hReaches) t hCall)

/-! Several processes -/

/-- Processes on one RAM and one active swap device, some of which have finished. -/
structure Processes (Proc : Type*) extends System Proc where
  finished : Proc → Bool

/-- What a process can do: make a memory call, or run to the end of its program,
at which point `cpu_routine` frees its control block and nothing else. -/
inductive ProcCall where
  | mem (call : MemCall)
  | finish

namespace Processes

variable {Proc : Type*}

def initial (memramsz memswpsz : Int) : Processes Proc :=
  ⟨System.initial memramsz memswpsz, fun _ => false⟩

/-- The frame held by a present page of a process that has not finished. -/
def frameHolder (s : Processes Proc) (page : Proc × Int) : Option Int :=
  let pte := (s.mm page.1).pgd page.2
  if s.finished page.1 = false ∧ pagingPagePresent pte then some (pagingPteFpn pte) else none

/-- Each frame of RAM is free or held by exactly one present page of exactly one
process that has not finished. -/
def FramesAccounted (s : Processes Proc) : Prop :=
  Ledger.Balanced s.mram.frames s.mram.freeFpList s.frameHolder

/-- The condition under which a call loses no frame: RAM has no free frame that
it could take, or it does not ask for a page. -/
def KeepsFrames (s : Processes Proc) : Proc × ProcCall → Prop
  | (proc, .mem call) => s.mram.freeFpList = [] ∨ ¬ ReachesPaging (s.caller proc) call
  | (_, .finish) => True

variable [DecidableEq Proc]

/-- A step of a process that has not finished. -/
def FrameStep (s : Processes Proc) (label : Proc × ProcCall) (t : Processes Proc) : Prop :=
  s.finished label.1 = false ∧
    match label.2 with
    | .mem call => ∃ u s', (call.run u (s.caller label.1)).state? = some s' ∧
        t = { s with toSystem := s.put label.1 s' }
    | .finish => t = { s with finished := Function.update s.finished label.1 true }

/-- A step together with something that its call shows. -/
def ShownStep {Shown : Type*} (shown : Uninit → MemCall → Caller → List Shown) (s : Processes Proc)
    (label : Proc × ProcCall × List Shown) (t : Processes Proc) : Prop :=
  s.finished label.1 = false ∧
    match label.2.1 with
    | .mem call => ∃ u s', (call.run u (s.caller label.1)).state? = some s' ∧
        label.2.2 = shown u call (s.caller label.1) ∧ t = { s with toSystem := s.put label.1 s' }
    | .finish => label.2.2 = [] ∧
        t = { s with finished := Function.update s.finished label.1 true }

/-- Every step shows something. -/
theorem frameStep_iff {Shown : Type*} (shown : Uninit → MemCall → Caller → List Shown)
    {s t : Processes Proc} {label : Proc × ProcCall} :
    FrameStep s label t ↔ ∃ made, ShownStep shown s (label.1, label.2, made) t := by
  obtain ⟨proc, call⟩ := label
  cases call with
  | mem call =>
      constructor
      · rintro ⟨hLive, u, s', hState, hPut⟩
        exact ⟨shown u call (s.caller proc), hLive, u, s', hState, rfl, hPut⟩
      · rintro ⟨made, hLive, u, s', hState, -, hPut⟩
        exact ⟨hLive, u, s', hState, hPut⟩
  | finish =>
      constructor
      · rintro ⟨hLive, hPut⟩
        exact ⟨[], hLive, rfl, hPut⟩
      · rintro ⟨made, hLive, -, hPut⟩
        exact ⟨hLive, hPut⟩

/-- So every run is one of such steps. -/
theorem exists_shown_run {Shown : Type*} (shown : Uninit → MemCall → Caller → List Shown)
    {s t : Processes Proc} {labels : List (Proc × ProcCall)} (run : Runs FrameStep s labels t) :
    ∃ made, Runs (ShownStep shown) s made t ∧
      made.map (fun label => (label.1, label.2.1)) = labels := by
  induction run with
  | nil => exact ⟨[], Runs.nil, rfl⟩
  | snoc prior last ih =>
      obtain ⟨made, run', rfl⟩ := ih
      obtain ⟨shows, last'⟩ := (frameStep_iff shown).mp last
      exact ⟨_, Runs.snoc run' last', by rw [List.map_append, List.map_singleton]⟩

/-- A memory call of `ShownStep` as a function, for given uninitialised variables. -/
def shownStep {Shown : Type*} [DecidableEq Shown]
    (shown : Uninit → MemCall → Caller → List Shown) (u : Uninit) (s : Processes Proc)
    (label : Proc × ProcCall × List Shown) : Option (Processes Proc) :=
  match label.2.1 with
  | .mem call =>
      if s.finished label.1 = false ∧ label.2.2 = shown u call (s.caller label.1) then
        (call.run u (s.caller label.1)).state?.map fun s' =>
          { s with toSystem := s.put label.1 s' }
      else none
  | .finish => none

theorem shownStep_step {Shown : Type*} [DecidableEq Shown]
    {shown : Uninit → MemCall → Caller → List Shown} {u : Uninit} {s t : Processes Proc}
    {label : Proc × ProcCall × List Shown} (h : shownStep shown u s label = some t) :
    ShownStep shown s label t := by
  obtain ⟨proc, call, made⟩ := label
  cases call with
  | finish => cases h
  | mem call =>
      simp only [shownStep] at h
      split_ifs at h with hMade
      obtain ⟨s', hState, rfl⟩ := Option.map_eq_some_iff.mp h
      exact ⟨hMade.1, u, s', hState, hMade.2, rfl⟩

/-- What a step does to the processes: nothing, or one memory call, of which the other
processes see the devices only. -/
theorem FrameStep.cases {s t : Processes Proc} {label : Proc × ProcCall}
    (step : FrameStep s label t) :
    (∀ proc, t.caller proc = s.caller proc) ∨
    ∃ call u s', label.2 = .mem call ∧ (call.run u (s.caller label.1)).state? = some s' ∧
      t.caller label.1 = s' ∧
      ∀ other, other ≠ label.1 → t.caller other = ⟨s.mm other, s'.mram, s'.activeMswp⟩ := by
  obtain ⟨proc, call⟩ := label
  obtain ⟨-, hCall⟩ := step
  cases call with
  | finish =>
      obtain rfl := hCall
      exact Or.inl fun _ => rfl
  | mem call =>
      obtain ⟨u, s', hState, rfl⟩ := hCall
      refine Or.inr ⟨call, u, s', rfl, hState, s.toSystem.caller_put proc s', ?_⟩
      intro other hOther
      have hMm : (s.toSystem.put proc s').mm other = s.mm other := by
        rw [System.put_mm, if_neg hOther]
      rw [System.caller, hMm]
      rfl

/-- The first call of a process, run on given uninitialised variables. -/
theorem exists_frameStep {memramsz memswpsz : Int} {u : Uninit} {call : MemCall}
    {test : Caller → Bool} (hEval : (call.run u
      ((initial memramsz memswpsz : Processes Unit).caller ())).state?.any test = true) :
    ∃ s : Processes Unit, FrameStep (initial memramsz memswpsz) ((), .mem call) s ∧
      test (s.caller ()) = true := by
  let start : Processes Unit := initial memramsz memswpsz
  obtain ⟨s', hState, hTest⟩ := (Option.any_eq_true _ _).mp hEval
  refine ⟨{ start with toSystem := start.put () s' }, ⟨rfl, u, s', hState, rfl⟩, ?_⟩
  have hCaller : (start.put () s').caller () = s' := start.toSystem.caller_put () s'
  rwa [hCaller]

/-- Every process is still in its first state. -/
structure Idle (memramsz : Int) (s : Processes Proc) : Prop where
  mram : (initMemphy .zero memramsz 1).SameFrames s.mram
  untouched : ∀ proc, Untouched memramsz (s.caller proc)

omit [DecidableEq Proc] in
theorem idle_initial (memramsz memswpsz : Int) :
    (initial memramsz memswpsz : Processes Proc).Idle memramsz :=
  ⟨.rfl, fun _ => ⟨rfl, rfl, .rfl⟩⟩

omit [DecidableEq Proc] in
theorem Idle.accounted {s : Processes Proc} (h : s.Idle memramsz) : s.FramesAccounted := by
  have hHolder : s.frameHolder = fun _ => none := by
    funext page
    have hPgd : (s.mm page.1).pgd = fun _ => 0#32 := (h.untouched page.1).pgd
    rw [frameHolder, hPgd]
    simp
  have hFrames : s.mram.frames = {fpn | fpn ∈ s.mram.freeFpList} := by
    ext fpn
    rw [h.mram.freeFpList]
    have hInit : fpn ∈ (initMemphy .zero memramsz 1).freeFpList ↔
        fpn ∈ (initMemphy .zero memramsz 1).frames := mem_initMemphy_freeFpList
    rw [h.mram.frames]
    exact hInit.symm
  rw [FramesAccounted, hHolder, hFrames]
  apply Ledger.balanced_initial
  rw [h.mram.freeFpList]
  exact initMemphy_freeFpList_nodup memramsz 1

/-- Once a frame is lost, the frames are out of balance. -/
theorem not_accounted_of_leaky {s : Processes Proc} (proc : Proc) (h : Leaky (s.caller proc))
    (hOthers : ∀ other, other ≠ proc → (s.mm other).pgd = fun _ => 0#32) :
    ¬ s.FramesAccounted := by
  have hHeld : ∀ page frame, s.frameHolder page = some frame →
      page.1 = proc ∧ pagingPagePresent ((s.mm page.1).pgd page.2) = true ∧ frame = 0 := by
    intro page frame hPage
    rw [frameHolder] at hPage
    obtain ⟨⟨-, hPresent⟩, hFrame⟩ := Option.ite_none_right_eq_some.mp hPage
    have hProc : page.1 = proc := by
      by_contra hNe
      rw [hOthers page.1 hNe, pagingPagePresent_zero] at hPresent
      cases hPresent
    refine ⟨hProc, hPresent, ?_⟩
    rw [← Option.some.inj hFrame]
    rw [hProc] at hPresent ⊢
    exact h.recorded page.2 hPresent
  have hFrames := h.frames
  simp only [System.caller_mram] at hFrames
  rcases h.lost with ⟨hAbsent, -⟩ | ⟨hNone, hTwo⟩
  · have hDomain : 0 ∈ s.mram.frames := ⟨Int.le_refl _, hFrames⟩
    apply Ledger.not_balanced_of_lost hDomain h.taken
    intro page hPage
    obtain ⟨hProc, hPresent, -⟩ := hHeld page 0 hPage
    rw [hProc] at hPresent
    exact absurd (hPresent.symm.trans (hAbsent page.2)) (by decide)
  · have hDomain : 1 ∈ s.mram.frames := ⟨by decide, hTwo⟩
    apply Ledger.not_balanced_of_lost hDomain
    · rw [show s.mram.freeFpList = [] from hNone]
      exact List.not_mem_nil
    · intro page hPage
      exact absurd (hHeld page 1 hPage).2.2 (by decide)

theorem Idle.step {s t : Processes Proc} {label : Proc × ProcCall} (h : s.Idle memramsz)
    (last : FrameStep s label t) :
    (s.KeepsFrames label → t.Idle memramsz) ∧ (¬ s.KeepsFrames label → ¬ t.FramesAccounted) := by
  obtain ⟨proc, call⟩ := label
  obtain ⟨-, hCall⟩ := last
  cases call with
  | finish =>
      obtain rfl := hCall
      exact ⟨fun _ => ⟨h.mram, h.untouched⟩, fun hNot => absurd trivial hNot⟩
  | mem call =>
      obtain ⟨u, s', hState, rfl⟩ := hCall
      obtain ⟨hKept, hLost⟩ := (h.untouched proc).run u call hState
      constructor
      · intro hKeeps
        have hUntouched := hKept hKeeps
        refine ⟨hUntouched.mram, fun other => ?_⟩
        have hOther : (s.put proc s').mm other = if other = proc then s'.mm else s.mm other :=
          s.toSystem.put_mm proc other s'
        refine ⟨?_, ?_, hUntouched.mram⟩
        · simp only [System.caller_mm, hOther]
          split_ifs
          · exact hUntouched.pgd
          · exact (h.untouched other).pgd
        · simp only [System.caller_mm, hOther]
          split_ifs
          · exact hUntouched.lru
          · exact (h.untouched other).lru
      · intro hNot
        obtain ⟨hSome, hReaches⟩ := not_or.mp hNot
        have hLeaky := hLost hSome (not_not.mp hReaches)
        refine not_accounted_of_leaky proc ?_ fun other hOther => ?_
        · exact (s.toSystem.caller_put proc s').symm ▸ hLeaky
        · exact (congrArg Mm.pgd (s.toSystem.put_mm proc other s')).trans
            (by rw [if_neg hOther]; exact (h.untouched other).pgd)

/-- The frames of RAM stay accounted for in a run exactly as long as no call asks
for a page while RAM has a free frame. -/
theorem framesAccounted_iff_keepsFrames (memramsz memswpsz : Int)
    (labels : List (Proc × ProcCall)) (s : Processes Proc) :
    Runs (Keeping FrameStep FramesAccounted) (initial memramsz memswpsz) labels s ↔
      Runs (Guarded FrameStep KeepsFrames) (initial memramsz memswpsz) labels s := by
  have hStart : (initial memramsz memswpsz : Processes Proc).Idle memramsz :=
    idle_initial memramsz memswpsz
  apply Runs.keeping_iff_guarded (Idle memramsz) hStart.accounted hStart
  · intro s label t hIdle _ last hAccounted
    apply (hIdle.step last).1
    by_contra hNot
    exact (hIdle.step last).2 hNot hAccounted
  · intro s label t hIdle _ last
    refine ⟨fun hAccounted => ?_, fun hKeeps => ((hIdle.step last).1 hKeeps).accounted⟩
    by_contra hNot
    exact (hIdle.step last).2 hNot hAccounted

/-- One allocation on a RAM of four frames loses a frame. -/
theorem frame_lost : ∃ s : Processes Unit,
    Runs FrameStep (initial 1024 4096) [((), .mem (.pgalloc 100 0))] s ∧
      ¬ s.FramesAccounted := by
  have hEval : ((MemCall.pgalloc 100 0).run ⟨2, 0, 0, 0⟩
      ((initial 1024 4096 : Processes Unit).caller ())).state?.any (fun _ => true) = true := by
    decide +kernel
  obtain ⟨s, last, -⟩ := exists_frameStep hEval
  refine ⟨s, Runs.one last, ((idle_initial 1024 4096).step last).2 fun hKeeps => ?_⟩
  rcases hKeeps with hNone | hNot
  · exact absurd hNone (by decide +kernel)
  · refine hNot ⟨⟨2, (initial 1024 4096 : Processes Unit).caller (), ?_⟩, by decide +kernel,
      by decide +kernel⟩
    rfl

end Processes

end Btlos
