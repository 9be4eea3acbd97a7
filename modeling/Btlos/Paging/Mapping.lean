import Btlos.Paging.SwapAccounting

/-! What a request for a page leaves behind: the mapping it answers with when it
succeeds, and the state as it was when it fails. -/
namespace Btlos

open Transition

namespace System

variable {Proc : Type*}

/-! Requests that fail -/

/-- A request that returns -1 leaves everything as it was. -/
def FailsCleanly (sys : System Proc) (proc : Proc) (pgn : Int) : Prop :=
  ∀ junk t, pgGetpage junk pgn (sys.caller proc) = .fail t → t = sys.caller proc

instance (sys : System Proc) (proc : Proc) (pgn : Int) : Decidable (sys.LacksSwapFrame proc pgn) :=
  inferInstanceAs (Decidable (_ ∧ _))

/-- Without a frame on swap the victim is already off the list when the request
gives up. -/
theorem pgGetpage_lacksSwapFrame {s : Caller} {pgn victim : Int} {pages : List Int} (junk : Byte)
    (hPgn : 0 ≤ pgn ∧ pgn < pagingMaxPgn) (hPresent : pagingPagePresent (s.mm.pgd pgn) = false)
    (hFrame : s.mram.freeFpList = []) (hLru : s.mm.lruPgn = .nodes (pages ++ [victim]))
    (hSwap : s.activeMswp.freeFpList = []) :
    pgGetpage junk pgn s = .fail (s.setLru (if pages = [] then .freed else .nodes pages)) := by
  have hGood : ¬ (pgn < 0 ∨ pgn ≥ pagingMaxPgn) := by omega
  simp only [pgGetpage, if_neg hGood, hPresent, Bool.false_eq_true, if_false, pgMakePresent,
    memphyGetFreefp, hFrame, pgReplace, hLru, findVictimPage_concat, Outcome.lift_ok,
    Outcome.bind_ok, Caller.setLru, hSwap, Outcome.lift_fail, Outcome.bind_fail]

theorem victim?_isSome {lruPgn : PgnList} (h : lruPgn.victim?.isSome) :
    ∃ pages victim, lruPgn = .nodes (pages ++ [victim]) := by
  cases lruPgn with
  | freed => simp [PgnList.victim?] at h
  | nodes pages =>
      rcases List.eq_nil_or_concat pages with rfl | ⟨pages, victim, rfl⟩
      · simp [PgnList.victim?] at h
      · exact ⟨pages, victim, by rw [List.concat_eq_append]⟩

theorem not_failsCleanly {sys : System Proc} {proc : Proc} {pgn : Int}
    (h : sys.LacksSwapFrame proc pgn) : ¬ sys.FailsCleanly proc pgn := by
  obtain ⟨⟨hLow, hHigh, hPresent, hFrame, hVictim⟩, hSwap⟩ := h
  obtain ⟨pages, victim, hLru⟩ := victim?_isSome hVictim
  intro hClean
  have hSame := hClean 0 _ (pgGetpage_lacksSwapFrame (s := sys.caller proc) 0 ⟨hLow, hHigh⟩ hPresent
    hFrame hLru hSwap)
  have hList : (if pages = [] then PgnList.freed else .nodes pages) = .nodes (pages ++ [victim]) :=
    (congrArg (fun s => s.mm.lruPgn) hSame).trans hLru
  split_ifs at hList
  have hLength := congrArg List.length (PgnList.nodes.inj hList)
  simp at hLength

/-- A failed request changes nothing exactly when it does not fail for want of a
swap frame. -/
theorem failsCleanly_iff (sys : System Proc) (proc : Proc) (pgn : Int) :
    sys.FailsCleanly proc pgn ↔ ¬ sys.LacksSwapFrame proc pgn := by
  constructor
  · exact fun hClean hLacks => not_failsCleanly hLacks hClean
  · intro hHas junk t hFail
    have hEnd := pgGetpage_cases junk pgn (sys.caller proc)
    rw [hFail] at hEnd
    generalize hCall : (Outcome.fail t : Outcome Caller Int) = call at hEnd
    cases hEnd with
    | undefined | resident | freeFrame | replaced => simp at hCall
    | badPage | noVictim => exact Outcome.fail.inj hCall
    | noSwapFrame pages victim hPgn hPresent hFrame hLru hSwap =>
        exact absurd ⟨evicts_of_victim hPgn hPresent hFrame hLru, hSwap⟩ hHas

/-- RAM of two frames and no swap: the third page takes the first one off the
list of recent pages and is refused. -/
theorem failed_request_drops_page :
    ∃ sys : System Unit,
      Runs PageStep (initial 512 0) [((), 0), ((), 1)] sys ∧ ¬ sys.FailsCleanly () 2 := by
  have hEval : (exec (pageStep 0) (initial 512 0 : System Unit) [((), 0), ((), 1)]).any
      (fun sys => sys.LacksSwapFrame () 2) = true := by decide +kernel
  obtain ⟨sys, hRun, hLacks⟩ := (Option.any_eq_true _ _).mp hEval
  exact ⟨sys, Runs.of_exec hRun fun _ _ _ h => ⟨0, h⟩, not_failsCleanly (of_decide_eq_true hLacks)⟩

/-! Requests that succeed -/

/-- The entry of the page is present and decodes to the frame. -/
def Maps (sys : System Proc) (proc : Proc) (pgn fpn : Int) : Prop :=
  pagingPagePresent ((sys.mm proc).pgd pgn) = true ∧ pagingFpn ((sys.mm proc).pgd pgn) = fpn

/-- The next request for the page gives the frame, and changes no free list and
no entry. -/
def AnswersAgain (sys : System Proc) (proc : Proc) (pgn fpn : Int) : Prop :=
  ∀ junk, ∃ t, pgGetpage junk pgn (sys.caller proc) = .ok fpn t ∧
    t.mram.freeFpList = sys.mram.freeFpList ∧
    t.activeMswp.freeFpList = sys.activeMswp.freeFpList ∧ t.mm.pgd = (sys.mm proc).pgd

/-- The request takes a free frame of RAM. -/
def TakesFrame (sys : System Proc) (proc : Proc) (pgn : Int) : Prop :=
  pagingPagePresent ((sys.mm proc).pgd pgn) = false ∧ sys.mram.freeFpList ≠ []

/-- The request moves this page of its process to swap. -/
def MovesOut (sys : System Proc) (label page : Proc × Int) : Prop :=
  label.1 = page.1 ∧ sys.Evicts label.1 label.2 ∧ sys.activeMswp.freeFpList ≠ [] ∧
    (sys.mm label.1).lruPgn.victim? = some page.2

/-- The request of the process takes the only page off its list of recent pages
and fails, and the head of the list is left on a freed node. -/
def FreesList (sys : System Proc) (proc : Proc) (label : Proc × Int) : Prop :=
  label.1 = proc ∧ sys.LacksSwapFrame label.1 label.2 ∧
    ∃ victim, (sys.mm label.1).lruPgn = .nodes [victim]

/-- A present page is answered from its entry as long as the list of recent
pages is intact. -/
theorem answersAgain_iff {sys : System Proc} {proc : Proc} {pgn fpn : Int}
    (hPgn : 0 ≤ pgn ∧ pgn < pagingMaxPgn) (hMaps : sys.Maps proc pgn fpn) :
    sys.AnswersAgain proc pgn fpn ↔ (sys.mm proc).lruPgn ≠ .freed := by
  obtain ⟨hPresent, hFpn⟩ := hMaps
  have hGood : ¬ (pgn < 0 ∨ pgn ≥ pagingMaxPgn) := by omega
  constructor
  · intro hAnswers hFreed
    obtain ⟨t, hCall, -⟩ := hAnswers 0
    simp [pgGetpage, if_neg hGood, hPresent, hFreed] at hCall
  · intro hIntact junk
    cases hLru : (sys.mm proc).lruPgn with
    | freed => exact absurd hLru hIntact
    | nodes pages =>
        refine ⟨(sys.caller proc).setLru (.nodes (pgn :: pages.erase pgn)), ?_, rfl, rfl, rfl⟩
        simp [pgGetpage, if_neg hGood, hPresent, hLru, enlistPgnNode_nodes, hFpn]

variable [DecidableEq Proc]

instance (sys : System Proc) (label page : Proc × Int) : Decidable (sys.MovesOut label page) :=
  inferInstanceAs (Decidable (_ ∧ _))

section Step

variable {sys sys' : System Proc} {label : Proc × Int} {proc : Proc} {pgn : Int}

/-- A request that does not move a present page out leaves its entry alone. -/
theorem PageStep.entry (step : PageStep sys label sys') (hStays : ¬ sys.MovesOut label (proc, pgn))
    (hPresent : pagingPagePresent ((sys.mm proc).pgd pgn) = true) :
    (sys'.mm proc).pgd pgn = (sys.mm proc).pgd pgn := by
  obtain ⟨call, s', hEnd, hState, rfl⟩ := step.cases
  rw [put_mm]
  split_ifs with hProc
  · subst hProc
    cases hEnd with
    | undefined => simp at hState
    | badPage | resident | freeFrame | noVictim | noSwapFrame =>
        obtain rfl := Option.some.inj hState
        rfl
    | replaced pages victim frame rest mram mswp hPgn hAbsent hFrame hLru hPages hSwap hRam hStorage
        hMswp =>
        obtain rfl := Option.some.inj hState
        have hPage : pgn ≠ label.2 := by
          rintro rfl
          rw [System.caller_mm, hPresent] at hAbsent
          cases hAbsent
        have hVictim : pgn ≠ victim := by
          rintro rfl
          rw [System.caller_mm] at hLru
          refine hStays ⟨rfl, evicts_of_victim hPgn hAbsent hFrame hLru, ?_, ?_⟩
          · exact fun hNone => by simp [hNone] at hSwap
          · simp [hLru]
        simp only [System.caller_mm]
        rw [Function.update_of_ne hPage, Function.update_of_ne hVictim]
  · rfl

/-- The list of recent pages is lost in one way only, and for good. -/
theorem PageStep.freed_iff (step : PageStep sys label sys') :
    (sys'.mm proc).lruPgn = .freed ↔ (sys.mm proc).lruPgn = .freed ∨ sys.FreesList proc label := by
  obtain ⟨call, s', hEnd, hState, rfl⟩ := step.cases
  rw [put_mm]
  split_ifs with hProc
  · subst hProc
    cases hEnd with
    | undefined => simp at hState
    | badPage hPgn =>
        obtain rfl := Option.some.inj hState
        have hNot : ¬ sys.FreesList label.1 label :=
          fun hFrees => not_evicts_of_badPage hPgn hFrees.2.1.1
        simp [hNot]
    | resident pages hPgn hPresent hLru =>
        obtain rfl := Option.some.inj hState
        have hNot : ¬ sys.FreesList label.1 label :=
          fun hFrees => not_evicts_of_present hPresent hFrees.2.1.1
        rw [System.caller_mm] at hLru
        simp [hNot, hLru, Caller.setLru]
    | freeFrame frame rest pages hPgn hPresent hFrame hLru =>
        obtain rfl := Option.some.inj hState
        have hNot : ¬ sys.FreesList label.1 label :=
          fun hFrees => not_evicts_of_free hFrame hFrees.2.1.1
        rw [System.caller_mm] at hLru
        simp [hNot, hLru, Caller.setLru]
    | noVictim hPgn hPresent hFrame hLru =>
        obtain rfl := Option.some.inj hState
        rw [System.caller_mm] at hLru
        simp [FreesList, hLru]
    | noSwapFrame pages victim hPgn hPresent hFrame hLru hSwap =>
        obtain rfl := Option.some.inj hState
        rw [System.caller_mm] at hLru
        have hLacks : sys.LacksSwapFrame label.1 label.2 :=
          ⟨evicts_of_victim hPgn hPresent hFrame hLru, hSwap⟩
        have hOnly : (∃ other, pages ++ [victim] = [other]) ↔ pages = [] := by
          cases pages <;> simp
        simp only [Caller.setLru, FreesList, hLacks, hLru, PgnList.nodes.injEq, hOnly, true_and]
        split_ifs with hPages <;> simp [hPages]
    | replaced pages victim frame rest mram mswp hPgn hAbsent hFrame hLru hPages hSwap hRam hStorage
        hMswp =>
        obtain rfl := Option.some.inj hState
        rw [System.caller_mm] at hLru
        have hNot : ¬ sys.FreesList label.1 label := by
          rintro ⟨-, ⟨-, hNone⟩, -⟩
          rw [System.caller_activeMswp, hNone] at hSwap
          cases hSwap
        simp [hNot, hLru]
  · have hNot : ¬ sys.FreesList proc label := fun hFrees => hProc hFrees.1.symm
    simp [hNot]

end Step

/-- Where the request took no free frame, the entry it answered from is stored,
and the list of recent pages is left intact. -/
theorem maps_iff {sys : System Proc} {proc : Proc} {pgn fpn : Int} {junk : Byte} {s' : Caller}
    (hCall : pgGetpage junk pgn (sys.caller proc) = .ok fpn s') :
    ((sys.put proc s').Maps proc pgn fpn ↔ ¬ sys.TakesFrame proc pgn) ∧
      (0 ≤ pgn ∧ pgn < pagingMaxPgn) ∧ s'.mm.lruPgn ≠ .freed := by
  have hEnd := pgGetpage_cases junk pgn (sys.caller proc)
  rw [hCall] at hEnd
  generalize hOk : Outcome.ok fpn s' = call at hEnd
  rw [Maps, put_mm_self, TakesFrame]
  cases hEnd with
  | undefined | badPage | noVictim | noSwapFrame => simp at hOk
  | resident pages hPgn hPresent hLru =>
      obtain ⟨rfl, rfl⟩ := Outcome.ok.inj hOk
      rw [System.caller_mm] at hPresent
      exact ⟨by simp [Caller.setLru, hPresent], hPgn, by simp [Caller.setLru]⟩
  | freeFrame frame rest pages hPgn hPresent hFrame hLru =>
      obtain ⟨rfl, rfl⟩ := Outcome.ok.inj hOk
      rw [System.caller_mm] at hPresent
      rw [System.caller_mram] at hFrame
      exact ⟨by simp [Caller.setLru, hPresent, hFrame], hPgn, by simp [Caller.setLru]⟩
  | replaced pages victim frame rest mram mswp hPgn hAbsent hFrame hLru hPages hSwap hRam hStorage
      hMswp =>
      obtain ⟨rfl, rfl⟩ := Outcome.ok.inj hOk
      have hBounds := pagingFpn_bounds ((sys.mm proc).pgd victim)
      have hZero : pagingFpn ((sys.mm proc).pgd victim) / 256 % 4 = 0 := by omega
      rw [System.caller_mram] at hFrame
      exact ⟨by simp [pagingFpn_pteSetFpn, hZero, hFrame], hPgn, by simp⟩

/-- A page that was answered with a frame is mapped to it, and answered with it
again after any requests that do not move it out, exactly when the first request
took no free frame and no later one of the process lost its list of recent
pages. -/
theorem mapping_stable_iff {sys finish : System Proc} {proc : Proc} {pgn fpn : Int} {junk : Byte}
    {s' : Caller} {labels : List (Proc × Int)}
    (hCall : pgGetpage junk pgn (sys.caller proc) = .ok fpn s')
    (run : Runs (Guarded PageStep fun s label => ¬ s.MovesOut label (proc, pgn))
      (sys.put proc s') labels finish) :
    (sys.put proc s').Maps proc pgn fpn ∧ finish.AnswersAgain proc pgn fpn ↔
      ¬ sys.TakesFrame proc pgn ∧
        Runs (Guarded PageStep fun s label => ¬ s.FreesList proc label)
          (sys.put proc s') labels finish := by
  obtain ⟨hMaps, hPgn, hIntact⟩ := maps_iff hCall
  rw [← hMaps]
  refine and_congr_right fun hStart => ?_
  have hFinish : finish.Maps proc pgn fpn := by
    refine run.invariant (fun s => s.Maps proc pgn fpn) hStart ?_
    rintro s label t ⟨hPresent, hFpn⟩ ⟨step, hStays⟩
    have hEntry := step.entry hStays hPresent
    exact ⟨hEntry ▸ hPresent, hEntry ▸ hFpn⟩
  rw [answersAgain_iff hPgn hFinish]
  constructor
  · intro hKept
    refine run.of_guarded.guarded_of_good_end (fun s => (s.mm proc).lruPgn = .freed) ?_ hKept
    exact fun s label t step => step.freed_iff.mpr
  · intro hGuarded
    refine hGuarded.invariant (fun s => (s.mm proc).lruPgn ≠ .freed) ?_ ?_
    · rw [put_mm_self]
      exact hIntact
    · rintro s label t hBefore ⟨step, hNot⟩
      exact fun hFreed => (step.freed_iff.mp hFreed).elim hBefore hNot

/-- Two RAM frames and four swap frames. Page 2 gets its frame by replacement, and
keeps it over a request for page 1. -/
theorem mapping_stable_replaced : ∃ (sys finish : System Unit) (s' : Caller),
    Runs PageStep (initial 512 1024) [((), 0), ((), 1)] sys ∧
    pgGetpage 0 2 (sys.caller ()) = .ok 0 s' ∧
    Runs PageStep (sys.put () s') [((), 1)] finish ∧
    (sys.put () s').Maps () 2 0 ∧ finish.AnswersAgain () 2 0 := by
  let quietStep : System Unit → Unit × Int → Option (System Unit) := fun s label =>
    if ¬ s.MovesOut label ((), 2) ∧ ¬ s.LacksSwapFrame () label.2 then pageStep 0 s label else none
  have hEval : (exec (pageStep 0) (initial 512 1024) [((), 0), ((), 1)]).any (fun sys =>
      decide (sys.mram.freeFpList = []) &&
        (pgGetpage 0 2 (sys.caller ())).ok?.any fun result =>
          decide (result.1 = 0) &&
            (exec quietStep (sys.put () result.2) [((), 1)]).isSome) = true := by
    decide +kernel
  obtain ⟨sys, hPrior, hCalls⟩ := (Option.any_eq_true _ _).mp hEval
  rw [Bool.and_eq_true, decide_eq_true_eq] at hCalls
  obtain ⟨hFull, hCalls⟩ := hCalls
  obtain ⟨⟨fpn, s'⟩, hCall, hLater⟩ := (Option.any_eq_true _ _).mp hCalls
  rw [Bool.and_eq_true, decide_eq_true_eq] at hLater
  obtain ⟨rfl, hLater⟩ := hLater
  obtain ⟨finish, hRun⟩ := Option.isSome_iff_exists.mp hLater
  have hOk := Outcome.ok?_eq_some.mp hCall
  have hQuiet : ∀ s label t, quietStep s label = some t → PageStep s label t ∧
      ¬ s.MovesOut label ((), 2) ∧ ¬ s.FreesList () label := by
    intro s label t hStep
    obtain ⟨⟨hStays, hHas⟩, hStep⟩ := Option.ite_none_right_eq_some.mp hStep
    exact ⟨⟨0, hStep⟩, hStays, fun hFrees => hHas hFrees.2.1⟩
  have run := Runs.of_exec hRun hQuiet
  refine ⟨sys, finish, s', Runs.of_exec hPrior fun _ _ _ h => ⟨0, h⟩, hOk,
    run.mono fun _ _ _ h => h.1, ?_⟩
  refine (mapping_stable_iff hOk (run.mono fun _ _ _ h => ⟨h.1, h.2.1⟩)).mpr ⟨?_, ?_⟩
  · exact fun hTakes => hTakes.2 hFull
  · exact run.mono fun _ _ _ h => ⟨h.1, h.2.2⟩

/-- The first page of a process gets frame 0, and its entry stays empty. -/
theorem mapping_not_stored : ∃ s' : Caller,
    pgGetpage 0 0 ((initial 1024 4096 : System Unit).caller ()) = .ok 0 s' ∧
      ¬ ((initial 1024 4096 : System Unit).put () s').Maps () 0 0 := by
  have hEval : (pgGetpage 0 0 ((initial 1024 4096 : System Unit).caller ())).ok?.any
      (fun result => decide (result.1 = 0)) = true := by decide +kernel
  obtain ⟨⟨fpn, s'⟩, hCall, hZero⟩ := (Option.any_eq_true _ _).mp hEval
  obtain rfl : fpn = 0 := of_decide_eq_true hZero
  have hOk := Outcome.ok?_eq_some.mp hCall
  refine ⟨s', hOk, fun hMaps => (maps_iff hOk).1.mp hMaps ?_⟩
  exact ⟨by decide +kernel, by decide +kernel⟩

end System

end Btlos
