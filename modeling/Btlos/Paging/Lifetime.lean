import Btlos.Paging.System

/-! How long the frames last. A request that brings a page into RAM takes a frame, of
RAM first and then of the swap device, and no request ever gives one back. -/
namespace Btlos

open Transition

/-- How a request for a page ends: the page was present, it was brought into RAM, or the
request failed. -/
inductive RequestEnd where
  | resident
  | loaded
  | refused
deriving DecidableEq

def RequestEnd.of (ok present : Bool) : RequestEnd :=
  if ok then if present then .resident else .loaded else .refused

theorem RequestEnd.of_true_true : RequestEnd.of true true = .resident := rfl

theorem RequestEnd.of_true_false : RequestEnd.of true false = .loaded := rfl

namespace System

variable {Proc : Type*} [DecidableEq Proc]

/-- A call of `pg_getpage` by any process, or anything else, which leaves the page
tables, the lists of recent pages and the free frames alone. -/
inductive PagingStep : System Proc → Option (Proc × Int × RequestEnd) → System Proc → Prop where
  | request {sys : System Proc} {ok : Bool} {s' : Caller} (proc : Proc) (pgn : Int) (junk : Byte)
      (hCode : (pgGetpage junk pgn (sys.caller proc)).code? = some (ok, s')) :
      PagingStep sys
        (some (proc, pgn, .of ok (pagingPagePresent ((sys.mm proc).pgd pgn)))) (sys.put proc s')
  | elsewhere {sys sys' : System Proc} (hPgd : ∀ proc, (sys'.mm proc).pgd = (sys.mm proc).pgd)
      (hLru : ∀ proc, (sys'.mm proc).lruPgn = (sys.mm proc).lruPgn)
      (hRam : sys.mram.SameFrames sys'.mram) (hSwap : sys.activeMswp.SameFrames sys'.activeMswp) :
      PagingStep sys none sys'

/-- How many pages have been brought into RAM. -/
def loads (labels : List (Option (Proc × Int × RequestEnd))) : Nat :=
  labels.countP fun label => label.any fun request => request.2.2 = .loaded

/-- The state of the frames after so many loads, out of `ram` and `swap` frames. -/
structure Used (ram swap : Nat) (sys : System Proc) (loads : Nat) : Prop where
  total : loads ≤ ram + swap
  ramFrames : sys.mram.freeFpList.length = ram - loads
  swapFrames : sys.activeMswp.freeFpList.length = swap - (loads - ram)
  present : ∀ proc pgn, pagingPagePresent ((sys.mm proc).pgd pgn) = true → ram < loads

/-- Until RAM is used up every request for a page of the process is a load, whether or
not the page has been brought into RAM before. -/
def Rations (ram : Nat) (before : List (Option (Proc × Int × RequestEnd)))
    (label : Option (Proc × Int × RequestEnd)) : Prop :=
  ∀ proc pgn outcome, label = some (proc, pgn, outcome) →
    (loads before ≤ ram → outcome ≠ .resident) ∧
      (loads before < ram → 0 ≤ pgn ∧ pgn < pagingMaxPgn → outcome = .loaded)

omit [DecidableEq Proc] in
theorem loads_concat (labels : List (Option (Proc × Int × RequestEnd)))
    (label : Option (Proc × Int × RequestEnd)) :
    loads (labels ++ [label]) =
      loads labels + if label.any (fun request => request.2.2 = .loaded) then 1 else 0 := by
  rw [loads, List.countP_append, List.countP_singleton]
  rfl

section Step

variable {ram swap count : Nat} {sys sys' : System Proc}

private theorem used_put {proc : Proc} {s' : Caller} (hTotal : count ≤ ram + swap)
    (hRam : s'.mram.freeFpList.length = ram - count)
    (hSwap : s'.activeMswp.freeFpList.length = swap - (count - ram))
    (hOwn : ∀ pgn, pagingPagePresent (s'.mm.pgd pgn) = true → ram < count)
    (hOthers : ∀ other pgn, pagingPagePresent ((sys.mm other).pgd pgn) = true → ram < count) :
    (sys.put proc s').Used ram swap count := by
  refine ⟨hTotal, hRam, hSwap, fun other pgn hPresent => ?_⟩
  rw [put_mm] at hPresent
  split_ifs at hPresent
  · exact hOwn pgn hPresent
  · exact hOthers other pgn hPresent

/-- What a request does to the frames. -/
private theorem Used.request (h : sys.Used ram swap count) {proc : Proc} {pgn : Int} {junk : Byte}
    {ok : Bool} {s' : Caller}
    (hCode : (pgGetpage junk pgn (sys.caller proc)).code? = some (ok, s'))
    {outcome : RequestEnd}
    (hOutcome : outcome = .of ok (pagingPagePresent ((sys.mm proc).pgd pgn))) :
    (sys.put proc s').Used ram swap (count + if outcome = .loaded then 1 else 0) ∧
      (count ≤ ram → outcome ≠ .resident) ∧
      (count < ram → 0 ≤ pgn ∧ pgn < pagingMaxPgn → outcome = .loaded) := by
  have hEnd := pgGetpage_cases junk pgn (sys.caller proc)
  obtain ⟨hTotal, hRam, hSwap, hPresent⟩ := h
  generalize pgGetpage junk pgn (sys.caller proc) = call at hCode hEnd
  cases hEnd with
  | undefined => cases hCode
  | badPage hBad =>
      obtain ⟨rfl, rfl⟩ : false = ok ∧ sys.caller proc = s' := by simpa using hCode
      obtain rfl : outcome = .refused := hOutcome
      exact ⟨used_put hTotal hRam hSwap (hPresent proc) hPresent, fun _ => by simp,
        fun _ hGood => by omega⟩
  | resident pages hPgn hHere hLru =>
      obtain ⟨rfl, rfl⟩ : true = ok ∧ _ = s' := by simpa using hCode
      have hMany : ram < count := hPresent proc pgn hHere
      have hHere' : pagingPagePresent ((sys.mm proc).pgd pgn) = true := hHere
      obtain rfl : outcome = .resident := by rw [hOutcome, hHere', RequestEnd.of_true_true]
      exact ⟨used_put hTotal hRam hSwap (hPresent proc) hPresent,
        fun hFew => absurd hMany hFew.not_gt, fun hFew => absurd hMany hFew.not_gt⟩
  | freeFrame frame rest pages hPgn hAbsent hFrame hLru =>
      obtain ⟨rfl, rfl⟩ : true = ok ∧ _ = s' := by simpa using hCode
      have hAbsent' : pagingPagePresent ((sys.mm proc).pgd pgn) = false := hAbsent
      obtain rfl : outcome = .loaded := by rw [hOutcome, hAbsent', RequestEnd.of_true_false]
      have hFrame' : sys.mram.freeFpList = frame :: rest := hFrame
      rw [hFrame', List.length_cons] at hRam
      rw [if_pos rfl]
      refine ⟨used_put (by omega) ?_ ?_ ?_ ?_, fun _ => by simp, fun _ _ => rfl⟩
      · change rest.length = ram - (count + 1)
        omega
      · change sys.activeMswp.freeFpList.length = swap - (count + 1 - ram)
        omega
      · exact fun other hOther => (hPresent proc other hOther).trans (Nat.lt_succ_self _)
      · exact fun other pgn' hOther => (hPresent other pgn' hOther).trans (Nat.lt_succ_self _)
  | noVictim hPgn hAbsent hFrame hLru =>
      obtain ⟨rfl, rfl⟩ : false = ok ∧ sys.caller proc = s' := by simpa using hCode
      have hFrame' : sys.mram.freeFpList = [] := hFrame
      rw [hFrame', List.length_nil] at hRam
      obtain rfl : outcome = .refused := hOutcome
      refine ⟨used_put hTotal ?_ hSwap (hPresent proc) hPresent, fun _ => by simp,
        fun hFew => by omega⟩
      rw [caller_mram, hFrame']
      exact hRam
  | noSwapFrame pages victim hPgn hAbsent hFrame hLru hNone =>
      obtain ⟨rfl, rfl⟩ : false = ok ∧ _ = s' := by simpa using hCode
      have hFrame' : sys.mram.freeFpList = [] := hFrame
      rw [hFrame', List.length_nil] at hRam
      obtain rfl : outcome = .refused := hOutcome
      refine ⟨used_put hTotal ?_ hSwap (hPresent proc) hPresent, fun _ => by simp,
        fun hFew => by omega⟩
      change sys.mram.freeFpList.length = ram - count
      rw [hFrame']
      exact hRam
  | replaced pages victim frame rest mram mswp hPgn hAbsent hFrame hLru hPages
      hFree hSame _ hMswp =>
      obtain ⟨rfl, rfl⟩ : true = ok ∧ _ = s' := by simpa using hCode
      have hAbsent' : pagingPagePresent ((sys.mm proc).pgd pgn) = false := hAbsent
      obtain rfl : outcome = .loaded := by rw [hOutcome, hAbsent', RequestEnd.of_true_false]
      have hFrame' : sys.mram.freeFpList = [] := hFrame
      have hFree' : sys.activeMswp.freeFpList = frame :: rest := hFree
      have hNone : mram.freeFpList = [] := hSame.freeFpList.trans hFrame
      have hRest : mswp.freeFpList = rest := hMswp.freeFpList
      rw [hFrame', List.length_nil] at hRam
      rw [hFree', List.length_cons] at hSwap
      rw [if_pos rfl]
      refine ⟨used_put (by omega) ?_ ?_ ?_ ?_, fun _ => by simp, fun _ _ => rfl⟩
      · rw [hNone, List.length_nil]
        omega
      · rw [hRest]
        omega
      · exact fun _ _ => by omega
      · exact fun _ _ _ => by omega

theorem Used.step (h : sys.Used ram swap count) {label : Option (Proc × Int × RequestEnd)}
    (step : PagingStep sys label sys') :
    sys'.Used ram swap
      (count + if label.any (fun request => request.2.2 = .loaded) then 1 else 0) := by
  cases step with
  | request proc pgn junk hCode => simpa using (h.request hCode rfl).1
  | elsewhere hPgd hLru hRam hSwap =>
      refine ⟨h.total, ?_, ?_, fun proc pgn hPresent => ?_⟩
      · rw [hRam.freeFpList]
        exact h.ramFrames
      · rw [hSwap.freeFpList]
        exact h.swapFrames
      · rw [hPgd] at hPresent
        exact h.present proc pgn hPresent

end Step

/-- The number of frames of a device of this size. -/
def frameCount (maxSize : Int) : Nat := (maxSize.tdiv pagingPagesz).toNat

omit [DecidableEq Proc] in
theorem used_initial (memramsz memswpsz : Int) :
    (initial memramsz memswpsz : System Proc).Used (frameCount memramsz) (frameCount memswpsz)
      0 where
  total := Nat.zero_le _
  ramFrames := by
    change (initMemphy .zero memramsz 1).freeFpList.length = _
    rw [initMemphy_freeFpList, formatNodes_length]
    rfl
  swapFrames := by
    change (initMemphy .zero memswpsz 1).freeFpList.length = _
    rw [initMemphy_freeFpList, formatNodes_length, Nat.zero_sub]
    rfl
  present proc pgn hPresent := by
    have hAbsent : pagingPagePresent (((initial memramsz memswpsz : System Proc).mm proc).pgd pgn) =
        false := pagingPagePresent_zero
    rw [hAbsent] at hPresent
    cases hPresent

/-- Whatever the processes request and in whatever order: each load takes a frame for
good, first of RAM and then of the swap device, and until RAM is used up every request
is a load. So there are never more loads than frames. -/
theorem frames_used_run {memramsz memswpsz : Int} {sys : System Proc}
    {labels : List (Option (Proc × Int × RequestEnd))}
    (run : Runs PagingStep (initial memramsz memswpsz) labels sys) :
    sys.Used (frameCount memramsz) (frameCount memswpsz) (loads labels) ∧
      EachStep (Rations (frameCount memramsz)) labels := by
  induction run with
  | nil => exact ⟨used_initial memramsz memswpsz, eachStep_nil⟩
  | snoc prior last ih =>
      obtain ⟨hUsed, hRations⟩ := ih
      rw [loads_concat, eachStep_concat]
      refine ⟨hUsed.step last, hRations, ?_⟩
      rintro proc pgn outcome rfl
      cases last with
      | request _ _ junk hCode => exact (hUsed.request hCode rfl).2

/-- The same page twice, on a RAM of two frames: both requests are loads, and RAM is
used up. -/
theorem frames_used_run_twice : ∃ sys : System Unit,
    Runs PagingStep (initial 512 1024) [some ((), 0, .loaded), some ((), 0, .loaded)] sys ∧
      sys.Used 2 4 2 := by
  let start : Caller := (initial 512 1024 : System Unit).caller ()
  have hEval : ((pgGetpage 0 0 start).code?.any fun first =>
      first.1 && !pagingPagePresent (first.2.mm.pgd 0) &&
        (pgGetpage 0 0 first.2).code?.any fun second => second.1) = true := by
    decide +kernel
  obtain ⟨⟨ok, s⟩, hFirst, hTest⟩ := (Option.any_eq_true _ _).mp hEval
  rw [Bool.and_eq_true, Bool.and_eq_true, Bool.not_eq_true'] at hTest
  obtain ⟨⟨hOk, hAbsent⟩, hMore⟩ := hTest
  obtain ⟨⟨ok', t⟩, hSecond, hOk'⟩ := (Option.any_eq_true _ _).mp hMore
  obtain rfl : ok = true := hOk
  obtain rfl : ok' = true := hOk'
  let middle : System Unit := (initial 512 1024).put () s
  have first : PagingStep (initial 512 1024) (some ((), 0, .loaded)) middle :=
    .request () 0 0 hFirst
  have second : PagingStep middle (some ((), 0, .loaded)) (middle.put () t) := by
    have hStep : PagingStep middle _ (middle.put () t) := .request () 0 0 hSecond
    have hPresent : pagingPagePresent ((middle.mm ()).pgd 0) = false := hAbsent
    rwa [hPresent, RequestEnd.of_true_false] at hStep
  have run := Runs.cons first (Runs.one second)
  exact ⟨_, run, (frames_used_run run).1⟩

end System

end Btlos
