import Btlos.Paging.Getpage

/-! An abstract model of `pg_getpage`: which requests for a page are granted. It
knows which pages are present, the list of recent pages, and how many frames are
free, but neither entries nor frame numbers nor bytes. -/
namespace Btlos

/-- What the granting of requests depends on. -/
structure PageView where
  present : Int → Bool
  recent : PgnList
  ramFrames : Nat
  swapFrames : Nat

def Caller.pageView (s : Caller) : PageView :=
  ⟨fun pgn => pagingPagePresent (s.mm.pgd pgn), s.mm.lruPgn, s.mram.freeFpList.length,
    s.activeMswp.freeFpList.length⟩

/-- Whether a request is granted, and the view after it; nothing for a request
that follows a pointer to a freed node. -/
def PageView.request (view : PageView) (pgn : Int) : Option (Bool × PageView) :=
  match view.recent with
  | .freed => none
  | .nodes pages =>
      if view.present pgn then
        some (true, { view with recent := .nodes (pgn :: pages.erase pgn) })
      else if view.ramFrames ≠ 0 then
        some (true, { view with
          recent := .nodes (pgn :: pages.erase pgn), ramFrames := view.ramFrames - 1 })
      else
        match pages.getLast? with
        | none => some (false, view)
        | some victim =>
            if view.swapFrames = 0 then
              some (false, { view with
                recent := if pages.dropLast = [] then .freed else .nodes pages.dropLast })
            else if pages.dropLast = [] then none
            else
              some (true, { view with
                present := Function.update (Function.update view.present victim false) pgn true
                recent := .nodes (pgn :: pages.dropLast.erase pgn)
                swapFrames := view.swapFrames - 1 })

/-- The return code of a call, and the view it leaves. -/
def viewAfter {Value : Type*} (call : Outcome Caller Value) : Option (Bool × PageView) :=
  call.code?.map fun result => (result.1, result.2.pageView)

@[simp] theorem viewAfter_ok {Value : Type*} (value : Value) (s : Caller) :
    viewAfter (.ok value s) = some (true, s.pageView) := rfl

@[simp] theorem viewAfter_fail {Value : Type*} (s : Caller) :
    viewAfter (.fail s : Outcome Caller Value) = some (false, s.pageView) := rfl

@[simp] theorem viewAfter_undefined {Value : Type*} :
    viewAfter (.undefined : Outcome Caller Value) = none := rfl

theorem viewAfter_eq_true {Value : Type*} {call : Outcome Caller Value} {view : PageView}
    (h : viewAfter call = some (true, view)) :
    ∃ value t, call = .ok value t ∧ t.pageView = view := by
  cases call with
  | ok value t => exact ⟨value, t, rfl, by simpa using h⟩
  | fail t => simp at h
  | undefined => simp at h

theorem viewAfter_eq_false {Value : Type*} {call : Outcome Caller Value} {view : PageView}
    (h : viewAfter call = some (false, view)) : ∃ t, call = .fail t ∧ t.pageView = view := by
  cases call with
  | ok value t => simp at h
  | fail t => exact ⟨t, rfl, by simpa using h⟩
  | undefined => simp at h

/-- On random-access devices the code does what the abstract model says. -/
theorem pgGetpage_view (junk : Byte) {pgn : Int} {s : Caller}
    (hPgn : 0 ≤ pgn ∧ pgn < pagingMaxPgn) (hRam : s.mram.rdmflg = true)
    (hSwap : s.activeMswp.rdmflg = true) :
    viewAfter (pgGetpage junk pgn s) = s.pageView.request pgn := by
  have hEnd := pgGetpage_cases junk pgn s
  cases hLru : s.mm.lruPgn with
  | freed =>
      generalize pgGetpage junk pgn s = call at hEnd
      have hRequest : s.pageView.request pgn = none := by
        simp [PageView.request, Caller.pageView, hLru]
      rw [hRequest]
      cases hEnd with
      | undefined => rfl
      | badPage hBad => omega
      | noVictim _ _ _ hNodes => simp [hLru] at hNodes
      | resident _ _ _ hNodes | noSwapFrame _ _ _ _ _ hNodes => simp [hLru] at hNodes
      | freeFrame _ _ _ _ _ _ hNodes => simp [hLru] at hNodes
      | replaced _ _ _ _ _ _ _ _ _ hNodes => simp [hLru] at hNodes
  | nodes pages =>
      have hReturns := pgGetpage_returns junk pgn hRam hSwap hLru
      generalize pgGetpage junk pgn s = call at hEnd hReturns
      cases hEnd with
      | badPage hBad => omega
      | resident pages' _ hPresent hNodes =>
          obtain rfl := PgnList.nodes.inj (hLru.symm.trans hNodes)
          simp [PageView.request, Caller.pageView, hLru, hPresent, Caller.setLru]
      | freeFrame frame rest pages' _ hPresent hFrame hNodes =>
          obtain rfl := PgnList.nodes.inj (hLru.symm.trans hNodes)
          simp [PageView.request, Caller.pageView, hLru, hPresent, hFrame, Caller.setLru]
      | noVictim _ hPresent hFrame hNodes =>
          obtain rfl := PgnList.nodes.inj (hLru.symm.trans hNodes)
          simp [PageView.request, Caller.pageView, hLru, hPresent, hFrame]
      | noSwapFrame pages' victim _ hPresent hFrame hNodes hFree =>
          obtain rfl := PgnList.nodes.inj (hLru.symm.trans hNodes)
          simp [PageView.request, Caller.pageView, hLru, hPresent, hFrame, hFree, Caller.setLru]
      | replaced pages' victim frame rest mram mswp _ hPresent hFrame hNodes hPages hFree hRam' _
          hMswp =>
          obtain rfl := PgnList.nodes.inj (hLru.symm.trans hNodes)
          have hFrames : mram.freeFpList = [] := hRam'.freeFpList.trans hFrame
          have hSwapFrames : mswp.freeFpList = rest := hMswp.freeFpList
          have hNow : (fun other =>
            pagingPagePresent (Function.update (Function.update s.mm.pgd victim
              (pteSwappedTo (s.mm.pgd victim) frame)) pgn
                (pteSetFpn (s.mm.pgd pgn) (pagingFpn (s.mm.pgd victim))) other)) =
              Function.update (Function.update (fun other => pagingPagePresent (s.mm.pgd other))
                victim false) pgn true := by
            funext other
            simp only [Function.update_apply]
            split_ifs
            · exact pagingPagePresent_pteSetFpn _ _
            · exact pagingPagePresent_pteEvicted _ _ _
            · rfl
          simp [PageView.request, Caller.pageView, hLru, hPresent, hFrame, hFree, hPages, hFrames,
            hSwapFrames, hNow]
      | undefined =>
          -- the victim was the only page of the list
          obtain ⟨hPresent, hFrame, hFree, hOne⟩ : ¬ pagingPagePresent (s.mm.pgd pgn) = true ∧
              s.mram.freeFpList = [] ∧ s.activeMswp.freeFpList ≠ [] ∧ pages.length = 1 := by
            simpa [not_or] using hReturns
          obtain ⟨victim, rfl⟩ := List.length_eq_one_iff.mp hOne
          simp [PageView.request, Caller.pageView, hLru, hPresent, hFrame, hFree]

end Btlos
