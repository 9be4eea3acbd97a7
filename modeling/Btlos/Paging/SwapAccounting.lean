import Btlos.Paging.System
import Btlos.Library.Ledger

/-! Who holds the frames of the active swap device. A swap frame is issued when
a victim is evicted; nothing takes it back when the page returns to RAM. -/
namespace Btlos

open Transition

/-- The page is on swap: marked as swapped and not present. -/
def swappedOut (pte : BitVec 32) : Bool := pagingPageSwapped pte && !pagingPagePresent pte

/-- The swap frame recorded in an entry, from the offset that `pte_set_swap` stored. -/
def pteSwapFrame (pte : BitVec 32) : Int := pagingPteSwpoff pte / 256

theorem swappedOut_zero : swappedOut 0#32 = false := by decide

@[simp] theorem swappedOut_pteSetFpn (pte : BitVec 32) (fpn : Int) :
    swappedOut (pteSetFpn pte fpn) = false := by
  simp [swappedOut]

@[simp] theorem swappedOut_pteSwappedTo (vicpte : BitVec 32) (frame : Int) :
    swappedOut (pteSwappedTo vicpte frame) = true := by
  simp [swappedOut, pteSwappedTo]

theorem swappedOut_of_present {pte : BitVec 32} (h : pagingPagePresent pte = true) :
    swappedOut pte = false := by
  simp [swappedOut, h]

/-- The offset field has room for 8192 frames. -/
theorem pteSwapFrame_pteSwappedTo (vicpte : BitVec 32) (frame : Int) :
    pteSwapFrame (pteSwappedTo vicpte frame) = frame % 8192 := by
  rw [pteSwapFrame, pteSwappedTo, pagingPteSwpoff_pteEvicted, cint]
  omega

namespace System

variable {Proc : Type*}

/-- The swap frame that a page of a process holds, if it is on swap. -/
def swapHolder (sys : System Proc) (page : Proc × Int) : Option Int :=
  let pte := (sys.mm page.1).pgd page.2
  if swappedOut pte then some (pteSwapFrame pte) else none

/-- The pages that are on swap, of all processes. -/
def swappedPages (sys : System Proc) : Set (Proc × Int) := {page | (sys.swapHolder page).isSome}

/-- Each swap frame is free or holds exactly one page that is on swap, and each
such page has exactly one frame. -/
def SwapBalanced (sys : System Proc) : Prop :=
  Ledger.Balanced sys.activeMswp.frames sys.activeMswp.freeFpList sys.swapHolder

/-- The request is about to evict a page. -/
def Evicts (sys : System Proc) (proc : Proc) (pgn : Int) : Prop :=
  0 ≤ pgn ∧ pgn < pagingMaxPgn ∧ pagingPagePresent ((sys.mm proc).pgd pgn) = false ∧
    sys.mram.freeFpList = [] ∧ (sys.mm proc).lruPgn.victim?.isSome

instance (sys : System Proc) (proc : Proc) (pgn : Int) : Decidable (sys.Evicts proc pgn) :=
  inferInstanceAs (Decidable (_ ∧ _))

/-! Which endings of a request come after a victim has been chosen -/

section Evicts

variable {sys : System Proc} {proc : Proc} {pgn : Int}

theorem not_evicts_of_badPage (h : pgn < 0 ∨ pgn ≥ pagingMaxPgn) : ¬ sys.Evicts proc pgn := by
  rintro ⟨hLow, hHigh, -⟩
  omega

theorem not_evicts_of_present (h : pagingPagePresent ((sys.mm proc).pgd pgn) = true) :
    ¬ sys.Evicts proc pgn := by
  rintro ⟨-, -, hAbsent, -⟩
  rw [hAbsent] at h
  cases h

theorem not_evicts_of_free {frame : Int} {rest : List Int}
    (h : sys.mram.freeFpList = frame :: rest) :
    ¬ sys.Evicts proc pgn := by
  rintro ⟨-, -, -, hNone, -⟩
  rw [hNone] at h
  cases h

theorem not_evicts_of_empty (h : (sys.mm proc).lruPgn = .nodes []) : ¬ sys.Evicts proc pgn := by
  rintro ⟨-, -, -, -, hVictim⟩
  simp [h, PgnList.victim?] at hVictim

theorem evicts_of_victim {pages : List Int} {victim : Int} (hPgn : 0 ≤ pgn ∧ pgn < pagingMaxPgn)
    (hPresent : pagingPagePresent ((sys.mm proc).pgd pgn) = false)
    (hFrame : sys.mram.freeFpList = []) (hLru : (sys.mm proc).lruPgn = .nodes (pages ++ [victim])) :
    sys.Evicts proc pgn := by
  refine ⟨hPgn.1, hPgn.2, hPresent, hFrame, ?_⟩
  rw [hLru, PgnList.victim?_concat, Option.isSome_some]

end Evicts

/-- The request needs a swap frame and there is none. -/
def LacksSwapFrame (sys : System Proc) (proc : Proc) (pgn : Int) : Prop :=
  sys.Evicts proc pgn ∧ sys.activeMswp.freeFpList = []

/-- The swap frames are balanced, and a request fails for lack of one only when
as many pages are on swap as the device has frames. -/
def SwapAccounted (sys : System Proc) : Prop :=
  sys.SwapBalanced ∧ ∀ proc pgn, sys.LacksSwapFrame proc pgn →
    sys.swappedPages.ncard = sys.activeMswp.frames.ncard

/-- The condition under which a request loses no swap frame: when it is about to
evict a victim, the requested page is not itself on swap, the victim is another
page, and the number of the swap frame fits the offset field of an entry. -/
def KeepsSwapFrames (sys : System Proc) (label : Proc × Int) : Prop :=
  sys.Evicts label.1 label.2 →
    ∀ victim ∈ (sys.mm label.1).lruPgn.victim?, ∀ frame ∈ sys.activeMswp.freeFpList.head?,
      swappedOut ((sys.mm label.1).pgd label.2) = false ∧ victim ≠ label.2 ∧ frame < 8192

instance (sys : System Proc) (label : Proc × Int) : Decidable (sys.KeepsSwapFrames label) :=
  inferInstanceAs (Decidable (_ → _))

/-- Listed pages are listed once and are not on swap, and as long as RAM has a
free frame no page is on swap. -/
structure LruOffSwap (sys : System Proc) : Prop where
  nodup : ∀ proc pages, (sys.mm proc).lruPgn = .nodes pages → pages.Nodup
  listed : ∀ proc pages, (sys.mm proc).lruPgn = .nodes pages →
    ∀ pgn ∈ pages, swappedOut ((sys.mm proc).pgd pgn) = false
  freeRam : sys.mram.freeFpList ≠ [] → ∀ proc pgn, swappedOut ((sys.mm proc).pgd pgn) = false

theorem SwapBalanced.accounted {sys : System Proc} (h : sys.SwapBalanced) :
    sys.SwapAccounted := by
  refine ⟨h, fun proc pgn hLacks => ?_⟩
  have hEmpty : sys.activeMswp.freeFpList = [] := hLacks.2
  have hFull : Ledger.Balanced sys.activeMswp.frames [] sys.swapHolder := by
    rw [← hEmpty]
    exact h
  exact hFull.ncard_holders

theorem swapBalanced_initial (memramsz memswpsz : Int) :
    (initial memramsz memswpsz : System Proc).SwapBalanced := by
  have hHolder : (initial memramsz memswpsz : System Proc).swapHolder = fun _ => none := by
    funext page
    simp [swapHolder, initial, initMm, FreshMm.zero, swappedOut_zero]
  have hFrames : (initial memramsz memswpsz : System Proc).activeMswp.frames =
      {fpn | fpn ∈ (initMemphy .zero memswpsz 1).freeFpList} := by
    ext fpn
    exact mem_initMemphy_freeFpList.symm
  rw [SwapBalanced, hHolder, hFrames]
  exact Ledger.balanced_initial (initMemphy_freeFpList_nodup memswpsz 1)

theorem lruOffSwap_initial (memramsz memswpsz : Int) :
    (initial memramsz memswpsz : System Proc).LruOffSwap := by
  refine ⟨?_, ?_, ?_⟩
  · intro proc pages h
    obtain rfl : [] = pages := by simpa [initial, initMm, FreshMm.zero] using h
    exact List.nodup_nil
  · intro proc pages _ pgn _
    simp [initial, initMm, FreshMm.zero, swappedOut_zero]
  · intro _ proc pgn
    simp [initial, initMm, FreshMm.zero, swappedOut_zero]

variable [DecidableEq Proc]

/-- Putting back a process keeps the list invariant when it holds of that
process and RAM has gained no free frame. -/
theorem LruOffSwap.put {sys : System Proc} (h : sys.LruOffSwap) (proc : Proc) (s : Caller)
    (hNodup : ∀ pages, s.mm.lruPgn = .nodes pages → pages.Nodup)
    (hListed : ∀ pages, s.mm.lruPgn = .nodes pages →
      ∀ pgn ∈ pages, swappedOut (s.mm.pgd pgn) = false)
    (hFree : s.mram.freeFpList ≠ [] →
      sys.mram.freeFpList ≠ [] ∧ ∀ pgn, swappedOut (s.mm.pgd pgn) = false) :
    (sys.put proc s).LruOffSwap := by
  refine ⟨?_, ?_, ?_⟩
  · intro other pages hLru
    rw [put_mm] at hLru
    split_ifs at hLru with hOther
    · exact hNodup pages hLru
    · exact h.nodup other pages hLru
  · intro other pages hLru pgn hMem
    rw [put_mm] at hLru ⊢
    split_ifs at hLru ⊢ with hOther
    · exact hListed pages hLru pgn hMem
    · exact h.listed other pages hLru pgn hMem
  · intro hRam other pgn
    obtain ⟨hBefore, hOwn⟩ := hFree hRam
    rw [put_mm]
    split_ifs with hOther
    · exact hOwn pgn
    · exact h.freeRam hBefore other pgn

theorem LruOffSwap.step {sys sys' : System Proc} {label : Proc × Int} (h : sys.LruOffSwap)
    (last : PageStep sys label sys') : sys'.LruOffSwap := by
  obtain ⟨proc, pgn⟩ := label
  obtain ⟨call, s', hEnd, hState, rfl⟩ := last.cases
  have hNodup := h.nodup proc
  have hListed := h.listed proc
  have hFree := fun hRam => h.freeRam hRam proc
  cases hEnd with
  | badPage _ =>
      obtain rfl : sys.caller proc = s' := by simpa using hState
      rwa [put_caller]
  | noVictim _ _ _ _ =>
      obtain rfl : sys.caller proc = s' := by simpa using hState
      rwa [put_caller]
  | resident pages hPgn hPresent hLru =>
      obtain rfl := Option.some.inj hState
      refine h.put proc _ ?_ ?_ fun hRam => ⟨hRam, hFree hRam⟩
      · rintro pages' ⟨⟩
        exact nodup_enlist (hNodup pages hLru) pgn
      · rintro pages' ⟨⟩ other hMem
        rcases List.mem_cons.mp hMem with rfl | hRest
        · exact swappedOut_of_present hPresent
        · exact hListed pages hLru other (List.mem_of_mem_erase hRest)
  | freeFrame frame rest pages hPgn hPresent hFrame hLru =>
      obtain rfl := Option.some.inj hState
      have hRam : sys.mram.freeFpList ≠ [] := by
        rw [show sys.mram.freeFpList = frame :: rest from hFrame]
        exact List.cons_ne_nil _ _
      refine h.put proc _ ?_ ?_ fun _ => ⟨hRam, hFree hRam⟩
      · rintro pages' ⟨⟩
        exact nodup_enlist (hNodup pages hLru) pgn
      · rintro pages' ⟨⟩ other _
        exact hFree hRam other
  | noSwapFrame pages victim hPgn hPresent hFrame hLru hSwap =>
      obtain rfl := Option.some.inj hState
      have hKept : ∀ pages', (if pages = [] then PgnList.freed else .nodes pages) = .nodes pages' →
          pages' = pages := by
        intro pages' hEq
        split_ifs at hEq
        exact (PgnList.nodes.inj hEq).symm
      refine h.put proc _ ?_ ?_ fun hRam => absurd hFrame hRam
      · intro pages' hLru'
        rw [hKept pages' hLru']
        exact (List.nodup_append.mp (hNodup _ hLru)).1
      · intro pages' hLru' other hMem
        rw [hKept pages' hLru'] at hMem
        exact hListed _ hLru other (List.mem_append_left _ hMem)
  | replaced pages victim frame rest mram mswp hPgn hPresent hFrame hLru hPages hSwap hRam hStorage
      hMswp =>
      obtain rfl := Option.some.inj hState
      obtain ⟨hPagesNodup, -, hApart⟩ := List.nodup_append.mp (hNodup _ hLru)
      refine h.put proc _ ?_ ?_ fun hNe => absurd (hRam.freeFpList.trans hFrame) hNe
      · rintro pages' ⟨⟩
        exact nodup_enlist hPagesNodup pgn
      · rintro pages' ⟨⟩ other hMem
        rcases List.mem_cons.mp hMem with rfl | hRest
        · simp
        · have hOther := List.mem_of_mem_erase hRest
          have hNe : other ≠ pgn := by
            rintro rfl
            exact hPagesNodup.not_mem_erase hRest
          have hNeVictim : other ≠ victim := hApart other hOther victim (by simp)
          simp only [Function.update_of_ne hNe, Function.update_of_ne hNeVictim]
          exact hListed _ hLru other (List.mem_append_left _ hOther)
  | undefined => simp at hState

/-- How an eviction changes the holders of swap frames: the victim gets the
frame that its entry has room to record, and the requested page drops the one
it may have had. -/
private theorem swapHolder_replaced (sys : System Proc) {proc : Proc} {pgn victim frame : Int}
    {s : Caller} {pte : BitVec 32}
    (hPgd : s.mm.pgd = Function.update
      (Function.update (sys.mm proc).pgd victim (pteSwappedTo pte frame)) pgn
      (pteSetFpn ((sys.mm proc).pgd pgn) (pagingFpn pte))) :
    (sys.put proc s).swapHolder =
      Function.update (Function.update sys.swapHolder (proc, victim) (some (frame % 8192)))
        (proc, pgn) none := by
  funext page
  obtain ⟨other, number⟩ := page
  rw [swapHolder, put_mm]
  by_cases hProc : other = proc
  · subst hProc
    rw [if_pos rfl, hPgd]
    by_cases hPgn : number = pgn
    · simp [hPgn]
    by_cases hVictim : number = victim
    · subst hVictim
      simp [hPgn, pteSwapFrame_pteSwappedTo]
    · simp [hPgn, hVictim, swapHolder]
  · simp [hProc, swapHolder]

private theorem SwapBalanced.put {sys : System Proc} (h : sys.SwapBalanced) {proc : Proc}
    {s : Caller} (hPgd : s.mm.pgd = (sys.mm proc).pgd) (hMswp : s.activeMswp = sys.activeMswp) :
    (sys.put proc s).SwapBalanced := by
  have hHolder : (sys.put proc s).swapHolder = sys.swapHolder := by
    funext page
    have hPage : ((sys.put proc s).mm page.1).pgd = (sys.mm page.1).pgd := by
      rw [put_mm]
      split_ifs with hProc
      · rw [hPgd, hProc]
      · rfl
    rw [swapHolder, swapHolder, hPage]
  rw [SwapBalanced, hHolder, put_activeMswp, hMswp]
  exact h

/-- One request keeps the swap frames balanced exactly when it meets the condition. -/
theorem SwapBalanced.step_iff {sys sys' : System Proc} {label : Proc × Int}
    (hLru : sys.LruOffSwap) (h : sys.SwapBalanced) (last : PageStep sys label sys') :
    sys'.SwapBalanced ↔ sys.KeepsSwapFrames label := by
  obtain ⟨proc, pgn⟩ := label
  obtain ⟨call, s', hEnd, hState, rfl⟩ := last.cases
  -- every ending but an eviction leaves the swap side alone and meets the condition
  have hSame : ¬ (sys.Evicts proc pgn ∧ sys.activeMswp.freeFpList ≠ []) →
      s'.mm.pgd = (sys.mm proc).pgd → s'.activeMswp = sys.activeMswp →
      ((sys.put proc s').SwapBalanced ↔ sys.KeepsSwapFrames (proc, pgn)) := by
    intro hNot hPgd hMswp
    apply iff_of_true (h.put hPgd hMswp)
    intro hEvicts victim _ frame hFrame
    refine absurd ⟨hEvicts, ?_⟩ hNot
    rintro hEmpty
    simp [hEmpty] at hFrame
  cases hEnd with
  | badPage hPgn =>
      obtain rfl := Option.some.inj hState
      exact hSame (fun hBoth => not_evicts_of_badPage hPgn hBoth.1) rfl rfl
  | resident pages hPgn hPresent _ =>
      obtain rfl := Option.some.inj hState
      exact hSame (fun hBoth => not_evicts_of_present hPresent hBoth.1) rfl rfl
  | freeFrame frame rest pages hPgn hPresent hFrame _ =>
      obtain rfl := Option.some.inj hState
      exact hSame (fun hBoth => not_evicts_of_free hFrame hBoth.1) rfl rfl
  | noVictim hPgn hPresent hFrame hEmpty =>
      obtain rfl := Option.some.inj hState
      exact hSame (fun hBoth => not_evicts_of_empty hEmpty hBoth.1) rfl rfl
  | noSwapFrame pages victim hPgn hPresent hFrame _ hSwap =>
      obtain rfl := Option.some.inj hState
      exact hSame (fun hBoth => hBoth.2 hSwap) rfl rfl
  | replaced pages victim frame rest mram mswp hPgn hPresent hFrame hPages _ hSwap _ _ hMswp =>
      obtain rfl := Option.some.inj hState
      rw [caller_mm] at hPages hPresent
      rw [caller_activeMswp] at hSwap
      have hVictim : (sys.mm proc).lruPgn.victim? = some victim := by
        rw [hPages, PgnList.victim?_concat]
      have hFree : sys.swapHolder (proc, victim) = none := by
        simp [swapHolder, hLru.listed proc _ hPages victim (by simp)]
      have hBefore : Ledger.Balanced sys.activeMswp.frames (frame :: rest) sys.swapHolder := by
        rw [← hSwap]
        exact h
      have hFrames : mswp.frames = sys.activeMswp.frames := hMswp.frames
      rw [SwapBalanced, swapHolder_replaced sys rfl, put_activeMswp, hFrames, hMswp.freeFpList,
        hBefore.exchange_iff hFree]
      have hRange : 0 ≤ frame := (h.pool_mem frame (by simp [hSwap])).1
      have hEvicts : sys.Evicts proc pgn := evicts_of_victim hPgn hPresent hFrame hPages
      have hOnSwap : sys.swapHolder (proc, pgn) = none ↔
          swappedOut ((sys.mm proc).pgd pgn) = false := by
        simp [swapHolder]
      have hRecord : frame % 8192 = frame ↔ frame < 8192 := by omega
      have hPages : (proc, victim) ≠ (proc, pgn) ↔ victim ≠ pgn := by simp
      rw [hOnSwap, hRecord, hPages]
      simp [KeepsSwapFrames, hEvicts, hVictim, hSwap]
  | undefined => simp at hState

/-- The swap frames of a run stay accounted for exactly as long as no request
evicts a page in favour of one that is on swap, evicts the page it asks for, or
uses a swap frame whose number is cut off in the entry. -/
theorem swapAccounted_iff_keepsSwapFrames (memramsz memswpsz : Int)
    (labels : List (Proc × Int)) (sys : System Proc) :
    Runs (Keeping PageStep SwapAccounted) (initial memramsz memswpsz) labels sys ↔
      Runs (Guarded PageStep KeepsSwapFrames) (initial memramsz memswpsz) labels sys := by
  refine Runs.keeping_iff_guarded LruOffSwap
    (swapBalanced_initial memramsz memswpsz).accounted (lruOffSwap_initial memramsz memswpsz)
    (fun _ _ _ hLru _ last _ => hLru.step last) ?_
  intro s label t hLru hAccounted last
  rw [← SwapBalanced.step_iff hLru hAccounted.1 last]
  exact ⟨And.left, SwapBalanced.accounted⟩

/-- Two RAM frames, four swap frames, and the pages 0, 1 and 2. The fourth
request brings page 0 back, and its swap frame is lost. -/
theorem swapFrame_lost :
    ∃ sys : System Unit,
      Runs PageStep (initial 512 1024) [((), 0), ((), 1), ((), 2), ((), 0)] sys ∧
        ¬ sys.SwapAccounted := by
  let guardedStep : System Unit → Unit × Int → Option (System Unit) := fun s label =>
    if s.KeepsSwapFrames label then pageStep 0 s label else none
  have hEval : (exec guardedStep (initial 512 1024) [((), 0), ((), 1), ((), 2)]).any
      (fun s => !decide (s.KeepsSwapFrames ((), 0)) && (pageStep 0 s ((), 0)).isSome) = true := by
    decide +kernel
  obtain ⟨middle, hPrior, hLast⟩ := (Option.any_eq_true _ _).mp hEval
  rw [Bool.and_eq_true, Bool.not_eq_true', decide_eq_false_iff_not,
    Option.isSome_iff_exists] at hLast
  obtain ⟨hLost, finish, hFinish⟩ := hLast
  have prior : Runs (Guarded PageStep KeepsSwapFrames) (initial 512 1024)
      [((), 0), ((), 1), ((), 2)] middle := by
    apply Runs.of_exec hPrior
    intro s label t h
    obtain ⟨hKeeps, hStep⟩ := Option.ite_none_right_eq_some.mp h
    exact ⟨⟨0, hStep⟩, hKeeps⟩
  have last : PageStep middle ((), 0) finish := ⟨0, hFinish⟩
  refine ⟨finish, Runs.snoc prior.of_guarded last, fun hAccounted => hLost ?_⟩
  have hMiddle : middle.LruOffSwap ∧ middle.SwapBalanced := by
    refine prior.invariant (fun s => s.LruOffSwap ∧ s.SwapBalanced)
      ⟨lruOffSwap_initial 512 1024, swapBalanced_initial 512 1024⟩ ?_
    rintro s label t ⟨hLru, hBalanced⟩ ⟨step, hKeeps⟩
    exact ⟨hLru.step step, (hBalanced.step_iff hLru step).mpr hKeeps⟩
  exact (hMiddle.2.step_iff hMiddle.1 last).mp hAccounted.1

end System

end Btlos
