import Btlos.Paging.PageView
import Btlos.Vm.Cells
import Btlos.Vm.Discipline
import Btlos.Vm.FrameAccounting

/-! The return code of READ. `pgread` goes on to the store whatever the read
returns, and reports the return code of the read. -/
namespace Btlos

open Transition

/-- READ returns 0 just when the byte was read and that byte was stored. A failed
read stores nothing, and a failed store is reported. -/
structure Caller.ReportsOutcome (s : Caller) (source offset destination : Int) : Prop where
  zero_iff : ∀ junk data t, pgread junk data source offset destination s = .ok () t ↔
    ∃ byte middle, read junk 0 (cint source) (cint offset) s = .ok byte middle ∧
      pgwrite junk byte destination 0 middle = .ok () t
  failed_read : ∀ junk data middle t, read junk 0 (cint source) (cint offset) s = .fail middle →
    (pgread junk data source offset destination s).state? = some t →
      t.mram.storage = s.mram.storage
  failed_store : ∀ junk data byte middle t,
    read junk 0 (cint source) (cint offset) s = .ok byte middle →
      pgwrite junk byte destination 0 middle = .fail t →
        pgread junk data source offset destination s = .fail t

/-! Which accesses are granted -/

/-- The page that an access goes to, if its check lets it through; nothing for an
access past the end of the symbol table. -/
def Caller.pageOf (s : Caller) (rgid offset : Int) : Option (Option Int) :=
  match accessAddr 0 rgid offset s with
  | .ok addr _ => some (some (pagingPgn addr))
  | .fail _ => some none
  | .undefined => none

def PageView.access (view : PageView) : Option Int → Option (Bool × PageView)
  | none => some (false, view)
  | some pgn => view.request pgn

/-- Whether an access to a symbol is granted when the pages are as in `view`, and
the view after it. -/
def Caller.grants (s : Caller) (rgid offset : Int) (view : PageView) : Option (Bool × PageView) :=
  (s.pageOf rgid offset).bind view.access

/-- The condition under which READ reports its outcome: the access to the source and
the access to the destination after it are both granted or both refused. -/
def Caller.GrantsAlike (s : Caller) (source offset destination : Int) : Prop :=
  ∀ granted view granted' view',
    s.grants (cint source) (cint offset) s.pageView = some (granted, view) →
      s.grants (cint destination) 0 view = some (granted', view') → granted' = granted

instance (s : Caller) (source offset destination : Int) :
    Decidable (s.GrantsAlike source offset destination) :=
  decidable_of_iff (∀ first ∈ s.grants (cint source) (cint offset) s.pageView,
      ∀ second ∈ s.grants (cint destination) 0 first.2, second.1 = first.1)
    ⟨fun h granted view _ _ hFirst hSecond => h (granted, view) hFirst _ hSecond,
      fun h _ hFirst _ hSecond => h _ _ _ _ hFirst hSecond⟩

/-- What makes an access that has got its page succeed: random-access devices, free
frames that lie in RAM, and no page of RAM recorded without a frame. -/
structure Caller.Ready (s : Caller) : Prop where
  ramRandom : s.mram.rdmflg = true
  swapRandom : s.activeMswp.rdmflg = true
  frames : ∀ frame ∈ s.mram.freeFpList, 0 ≤ frame ∧ frame < s.mram.numfp
  decodes : DecodesZero s
  present : ∀ pgn, pagingPagePresent (s.mm.pgd pgn) = true → 1 ≤ s.mram.numfp
  recent : s.mm.lruPgn ≠ .nodes [] → 1 ≤ s.mram.numfp

/-- What the calls of one process leave for the others. -/
structure Follows (s t : Caller) : Prop where
  ready : t.Ready
  drained : s.mram.freeFpList = [] → t.mram.freeFpList = []
  numfp : t.mram.numfp = s.mram.numfp

section Ready

variable {s t u : Caller}

theorem Follows.refl (h : s.Ready) : Follows s s := ⟨h, id, rfl⟩

theorem Follows.trans (h : Follows s t) (h' : Follows t u) : Follows s u :=
  ⟨h'.ready, fun hNone => h'.drained (h.drained hNone), h'.numfp.trans h.numfp⟩

theorem Caller.Ready.page (h : s.Ready) (junk : Byte) (pgn : Int) :
    (pgGetpage junk pgn s).Ends (Follows s) := by
  have hEnd := pgGetpage_cases junk pgn s
  have hCells := pgGetpage_keepsCells h.decodes hEnd
  generalize pgGetpage junk pgn s = call at hEnd hCells ⊢
  cases hEnd with
  | undefined => trivial
  | badPage | noVictim => exact .refl h
  | resident pages hPgn hPresent hLru =>
      refine ⟨⟨h.ramRandom, h.swapRandom, h.frames, hCells.decodes, h.present, fun _ => ?_⟩, id,
        rfl⟩
      exact h.present pgn hPresent
  | freeFrame frame rest pages hPgn hPresent hFrame hLru =>
      have hFrames := h.frames
      rw [hFrame, List.forall_mem_cons] at hFrames
      refine ⟨⟨h.ramRandom, h.swapRandom, hFrames.2, hCells.decodes, h.present, fun _ => ?_⟩,
        hCells.drained, rfl⟩
      have hFirst : 0 ≤ frame ∧ frame < s.mram.numfp := hFrames.1
      change 1 ≤ s.mram.numfp
      omega
  | noSwapFrame pages victim hPgn hPresent hFrame hLru hSwap =>
      refine ⟨⟨h.ramRandom, h.swapRandom, h.frames, hCells.decodes, h.present, fun _ => ?_⟩, id,
        rfl⟩
      exact h.recent (by simp [hLru])
  | replaced pages victim frame rest mram mswp hPgn hPresent hFrame hLru hPages hSwap hRam hStorage
      hMswp =>
      have hSome : 1 ≤ s.mram.numfp := h.recent (by simp [hLru])
      have hNone : mram.freeFpList = [] := hRam.freeFpList.trans hFrame
      have hNumfp : mram.numfp = s.mram.numfp := hRam.numfp
      refine ⟨⟨hRam.rdmflg.trans h.ramRandom, hMswp.rdmflg.trans h.swapRandom, ?_, hCells.decodes,
        fun _ _ => ?_, fun _ => ?_⟩, fun _ => hNone, hNumfp⟩
      · simp [hNone]
      · exact hSome.trans hNumfp.ge
      · exact hSome.trans hNumfp.ge

theorem follows_frameInvariant (s : Caller) : FrameInvariant (Follows s) where
  samePaging := by
    rintro t u ⟨hPgd, hLru, hMram, hMswp⟩ ⟨hReady, hDrained, hNumfp⟩
    obtain ⟨hRam, hSwap, hFrames, hDecodes, hPresent, hRecent⟩ := hReady
    rw [DecodesZero] at hDecodes
    rw [← hMram] at hRam hFrames hDecodes hPresent hRecent hDrained hNumfp
    rw [← hMswp] at hSwap
    rw [← hPgd] at hDecodes hPresent
    rw [← hLru] at hRecent
    exact ⟨⟨hRam, hSwap, hFrames, hDecodes, hPresent, hRecent⟩, hDrained, hNumfp⟩
  page := fun junk pgn t h => (h.ready.page junk pgn).mono fun _ h' => h.trans h'
  contents := by
    rintro t mram hSame ⟨hReady, hDrained, hNumfp⟩
    obtain ⟨hRam, hSwap, hFrames, hDecodes, hPresent, hRecent⟩ := hReady
    rw [DecodesZero] at hDecodes
    rw [← hSame.freeFpList] at hFrames hDecodes hDrained
    rw [← hSame.numfp] at hFrames hPresent hRecent hNumfp
    exact ⟨⟨hSame.rdmflg.trans hRam, hSwap, hFrames, hDecodes, hPresent, hRecent⟩, hDrained, hNumfp⟩

/-- Whole frames fit on their device. -/
theorem Memphy.numfp_mul_le {mp : Memphy} {n : Int} (hPos : 1 ≤ n) (hLe : n ≤ mp.numfp) :
    n * 256 ≤ mp.maxsz := by
  have hNumfp : mp.numfp = mp.maxsz.tdiv 256 := rfl
  rw [hNumfp, Int.tdiv_eq_ediv, Int.sign_eq_one_of_pos (by decide : (0 : Int) < 256)] at hLe
  split_ifs at hLe <;> omega

/-- The bytes of a page that was granted lie in RAM. -/
theorem Caller.Ready.page_bytes (h : s.Ready) {junk : Byte} {pgn fpn off : Int}
    (hPage : pgGetpage junk pgn s = .ok fpn t) (hOff : 0 ≤ off ∧ off < 256) :
    0 ≤ phyAddr fpn off ∧ phyAddr fpn off < t.mram.maxsz := by
  have hEnd := pgGetpage_cases junk pgn s
  have hFollows := h.page junk pgn
  have hFpn : fpn = s.mram.freeFpList.headD 0 / 256 % 4 :=
    (pgGetpage_bringsIn hPage).frame.trans (h.decodes.frameOf_eq pgn)
  rw [hPage] at hEnd hFollows
  have hListed : t.mm.lruPgn ≠ .nodes [] := by
    generalize hCall : Outcome.ok fpn t = call at hEnd
    cases hEnd with
    | undefined | badPage | noVictim | noSwapFrame => simp at hCall
    | resident | freeFrame | replaced =>
        obtain ⟨-, rfl⟩ := Outcome.ok.inj hCall
        simp [Caller.setLru]
  have hOne := Memphy.numfp_mul_le (Int.le_refl 1) (hFollows.ready.recent hListed)
  rw [phyAddr_eq (by omega) hOff]
  cases hFree : s.mram.freeFpList with
  | nil =>
      rw [hFree, List.headD_nil] at hFpn
      omega
  | cons frame rest =>
      obtain ⟨hLow, hHigh⟩ := h.frames frame (by simp [hFree])
      rw [← hFollows.numfp] at hHigh
      have hFits := Memphy.numfp_mul_le (show 1 ≤ frame + 1 by omega) hHigh
      rw [hFree, List.headD_cons] at hFpn
      omega

/-! The two accesses of READ -/

/-- What a request for a page and a read leave, besides the return code. -/
structure ReadKeeps (s t : Caller) : Prop where
  ready : t.Ready
  sameVm : s.SameVm t
  storage : t.mram.storage = s.mram.storage

/-- The endings of a request for a page, as the view of the pages says. -/
inductive PageEnd (s : Caller) (pgn : Int) : Outcome Caller Int → Prop where
  | granted (fpn : Int) (t : Caller) (hRequest : s.pageView.request pgn = some (true, t.pageView))
      (hKeeps : ReadKeeps s t)
      (hBytes : ∀ off, 0 ≤ off ∧ off < 256 → 0 ≤ phyAddr fpn off ∧ phyAddr fpn off < t.mram.maxsz) :
      PageEnd s pgn (.ok fpn t)
  | refused (t : Caller) (hRequest : s.pageView.request pgn = some (false, t.pageView))
      (hKeeps : ReadKeeps s t) : PageEnd s pgn (.fail t)
  | undefined (hRequest : s.pageView.request pgn = none) : PageEnd s pgn .undefined

theorem Caller.Ready.page_end (h : s.Ready) (junk : Byte) {pgn : Int}
    (hPgn : 0 ≤ pgn ∧ pgn < pagingMaxPgn) : PageEnd s pgn (pgGetpage junk pgn s) := by
  have hView := pgGetpage_view junk hPgn h.ramRandom h.swapRandom
  have hFollows := h.page junk pgn
  have hCells := pgGetpage_keepsCells h.decodes (pgGetpage_cases junk pgn s)
  have hVm := pgGetpage_sameVm junk pgn s
  cases hPage : pgGetpage junk pgn s with
  | undefined =>
      rw [hPage] at hView
      exact .undefined hView.symm
  | fail t =>
      rw [hPage] at hView hFollows hCells hVm
      exact .refused t hView.symm ⟨hFollows.ready, hVm, hCells.storage⟩
  | ok fpn t =>
      have hBytes : ∀ off, 0 ≤ off ∧ off < 256 →
          0 ≤ phyAddr fpn off ∧ phyAddr fpn off < t.mram.maxsz := fun _ => h.page_bytes hPage
      rw [hPage] at hView hFollows hCells hVm
      exact .granted fpn t hView.symm ⟨hFollows.ready, hVm, hCells.storage⟩ hBytes

theorem pageOf_sameVm (h : s.SameVm t) (rgid offset : Int) :
    t.pageOf rgid offset = s.pageOf rgid offset := by
  simp only [Caller.pageOf, accessAddr, getSymrgByid, h.2, getVmaByNum_zero]
  split_ifs <;> simp only [Outcome.bind_fail, Outcome.bind_undefined, Outcome.bind_ok]
  split_ifs <;> rfl

/-- The endings of an access before it goes to its byte, as its check and the view
of the pages say. -/
inductive AccessEnd (s : Caller) (rgid offset : Int) : Outcome Caller Int → Prop where
  | granted (phy : Int) (t : Caller)
      (hGrants : s.grants rgid offset s.pageView = some (true, t.pageView))
      (hKeeps : ReadKeeps s t) (hByte : 0 ≤ phy ∧ phy < t.mram.maxsz) :
      AccessEnd s rgid offset (.ok phy t)
  | refused (t : Caller) (hGrants : s.grants rgid offset s.pageView = some (false, t.pageView))
      (hKeeps : ReadKeeps s t) : AccessEnd s rgid offset (.fail t)
  | undefined (hGrants : s.grants rgid offset s.pageView = none) :
      AccessEnd s rgid offset .undefined

theorem Caller.Ready.access_end (h : s.Ready) (junk : Byte) (rgid offset : Int) :
    AccessEnd s rgid offset (accessPhy junk rgid offset s) := by
  rw [accessPhy]
  rcases accessAddr_cases rgid offset s with hCall | hCall | ⟨-, hCall⟩
  · rw [hCall]
    apply AccessEnd.undefined
    rw [Caller.grants, Caller.pageOf, hCall]
    rfl
  · rw [hCall]
    refine .refused s ?_ ⟨h, .rfl, rfl⟩
    rw [Caller.grants, Caller.pageOf, hCall]
    rfl
  · generalize cint ((s.mm.symrgtbl rgid).rgStart + offset) = addr at hCall
    have hGrants : s.grants rgid offset s.pageView = s.pageView.request (pagingPgn addr) := by
      rw [Caller.grants, Caller.pageOf, hCall]
      rfl
    have hEnd := h.page_end junk (pagingPgn_bounds addr)
    rw [hCall, Outcome.bind_ok]
    generalize pgGetpage junk (pagingPgn addr) s = call at hEnd ⊢
    cases hEnd with
    | undefined hRequest => exact .undefined (hGrants.trans hRequest)
    | refused t hRequest hKeeps => exact .refused t (hGrants.trans hRequest) hKeeps
    | granted fpn t hRequest hKeeps hBytes =>
        exact .granted _ t (hGrants.trans hRequest) hKeeps (hBytes _ (pagingOffst_bounds addr))

/-- A read is granted or refused as the access is. -/
theorem Caller.Ready.read (h : s.Ready) (junk : Byte) (rgid offset : Int) :
    viewAfter (read junk 0 rgid offset s) = s.grants rgid offset s.pageView ∧
      (read junk 0 rgid offset s).Ends (ReadKeeps s) := by
  have hEnd := h.access_end junk rgid offset
  rw [read_eq]
  generalize accessPhy junk rgid offset s = call at hEnd ⊢
  cases hEnd with
  | undefined hGrants => exact ⟨hGrants.symm, trivial⟩
  | refused t hGrants hKeeps => exact ⟨hGrants.symm, hKeeps⟩
  | granted phy t hGrants hKeeps hByte =>
      have hIn : ¬ (phy < 0 ∨ phy ≥ t.mram.maxsz) := by omega
      rw [Outcome.bind_ok, memphyRead, if_pos hKeeps.ready.ramRandom, if_neg hIn]
      exact ⟨hGrants.symm, hKeeps⟩

/-- So is a write, which changes nothing in RAM when it is refused. -/
theorem Caller.Ready.write (h : s.Ready) (junk : Byte) (rgid offset : Int) (value : Byte) :
    viewAfter (write junk 0 rgid offset value s) = s.grants rgid offset s.pageView ∧
      ∀ t, write junk 0 rgid offset value s = .fail t → t.mram.storage = s.mram.storage := by
  have hEnd := h.access_end junk rgid offset
  rw [write_eq]
  generalize accessPhy junk rgid offset s = call at hEnd ⊢
  cases hEnd with
  | undefined hGrants => exact ⟨hGrants.symm, by simp⟩
  | refused t hGrants hKeeps =>
      refine ⟨hGrants.symm, fun t' hFail => ?_⟩
      obtain rfl := Outcome.fail.inj hFail
      exact hKeeps.storage
  | granted phy t hGrants hKeeps hByte =>
      have hIn : ¬ (phy < 0 ∨ phy ≥ t.mram.maxsz) := by omega
      rw [Outcome.bind_ok, memphyWrite, if_neg hIn, if_pos hKeeps.ready.ramRandom, if_neg hIn]
      exact ⟨hGrants.symm, by simp⟩

/-- The store after a read. -/
theorem ReadKeeps.store (h : ReadKeeps s t) (junk data : Byte) (destination : Int) :
    viewAfter (pgwrite junk data destination 0 t) = s.grants (cint destination) 0 t.pageView := by
  have hView := (h.ready.write junk (cint destination) 0 data).1
  rw [Caller.grants, pageOf_sameVm h.sameVm] at hView
  exact hView

/-- A store that is refused after a read is not reported, and one after a read that
failed stores any byte there is. -/
theorem Caller.Ready.grantsAlike (h : s.Ready) {source offset destination : Int}
    (hReports : s.ReportsOutcome source offset destination) :
    s.GrantsAlike source offset destination := by
  intro granted view granted' view' hSource hDestination
  obtain ⟨hFirst, hKept⟩ := h.read 0#8 (cint source) (cint offset)
  rw [hSource] at hFirst
  cases granted with
  | true =>
      obtain ⟨byte, middle, hOk, rfl⟩ := viewAfter_eq_true hFirst
      rw [hOk] at hKept
      cases granted' with
      | true => rfl
      | false =>
          obtain ⟨t, hFail, -⟩ :=
            viewAfter_eq_false ((hKept.store 0#8 byte destination).trans hDestination)
          have hReported := hReports.failed_store 0#8 0#8 byte middle t hOk hFail
          rw [pgread, hOk] at hReported
          simp [hFail] at hReported
  | false =>
      obtain ⟨middle, hFail, rfl⟩ := viewAfter_eq_false hFirst
      rw [hFail] at hKept
      cases granted' with
      | false => rfl
      | true =>
          -- the byte that is stored may be any byte, so also one that was not there before
          let cell := ramCell middle (cint destination) 0
          let data := middle.mram.storage cell + 1#8
          obtain ⟨_, t, hOk, -⟩ :=
            viewAfter_eq_true ((hKept.store 0#8 data destination).trans hDestination)
          have hStored : t.mram.storage = Function.update middle.mram.storage cell data :=
            (write_ok hKept.ready.decodes hOk).1
          have hReturns : (pgread 0#8 data source offset destination s).state? = some t := by
            rw [pgread, hFail]
            simp [hOk]
          have hSame := hReports.failed_read 0#8 data middle t hFail hReturns
          rw [hStored, ← hKept.storage] at hSame
          have hCell := congrFun hSame cell
          rw [Function.update_self] at hCell
          exact absurd hCell (by simp [data])

section Alike

variable {source offset destination : Int} (h : s.Ready)
  (hAlike : s.GrantsAlike source offset destination)
include h hAlike

theorem Caller.Ready.store_granted {junk data byte : Byte} {middle : Caller}
    (hOk : Btlos.read junk 0 (cint source) (cint offset) s = .ok byte middle) :
    pgwrite junk data destination 0 middle ≠ .fail t := by
  intro hFail
  obtain ⟨hFirst, hKept⟩ := h.read junk (cint source) (cint offset)
  rw [hOk] at hFirst hKept
  have hStore := hKept.store junk data destination
  rw [hFail] at hStore
  exact Bool.noConfusion (hAlike _ _ _ _ hFirst.symm hStore.symm)

theorem Caller.Ready.store_refused {junk data : Byte} {value : Unit} {middle : Caller}
    (hFail : Btlos.read junk 0 (cint source) (cint offset) s = .fail middle) :
    pgwrite junk data destination 0 middle ≠ .ok value t := by
  intro hOk
  obtain ⟨hFirst, hKept⟩ := h.read junk (cint source) (cint offset)
  rw [hFail] at hFirst hKept
  have hStore := hKept.store junk data destination
  rw [hOk] at hStore
  exact Bool.noConfusion (hAlike _ _ _ _ hFirst.symm hStore.symm)

theorem Caller.Ready.reportsOutcome : s.ReportsOutcome source offset destination := by
  refine ⟨fun junk data t => ?_, fun junk data middle t hFail hState => ?_, ?_⟩
  · rw [pgread]
    cases hOk : Btlos.read junk 0 (cint source) (cint offset) s with
    | undefined => simp
    | fail middle =>
        cases hStore : pgwrite junk data destination 0 middle <;> simp [hStore]
    | ok byte middle =>
        cases hStore : pgwrite junk byte destination 0 middle with
        | fail t' => exact absurd hStore (h.store_granted hAlike hOk)
        | ok value t' => simp [hStore]
        | undefined => simp [hStore]
  · have hKept := (h.read junk (cint source) (cint offset)).2
    rw [hFail] at hKept
    rw [pgread, hFail] at hState
    cases hStore : pgwrite junk data destination 0 middle with
    | undefined => simp [hStore] at hState
    | ok value t' => exact absurd hStore (h.store_refused hAlike hFail)
    | fail t' =>
        obtain rfl : t' = t := by simpa [hStore] using hState
        exact ((hKept.ready.write junk _ _ data).2 t' hStore).trans hKept.storage
  · exact fun junk data byte middle t hOk hFail => absurd hFail (h.store_granted hAlike hOk)

end Alike

theorem Caller.Ready.reportsOutcome_iff (h : s.Ready) (source offset destination : Int) :
    s.ReportsOutcome source offset destination ↔ s.GrantsAlike source offset destination :=
  ⟨h.grantsAlike, h.reportsOutcome⟩

theorem Follows.memCall (h : s.Ready) {u : Uninit} {call : MemCall}
    (hState : (call.run u s).state? = some t) : Follows s t :=
  Outcome.ends_iff.mp ((follows_frameInvariant s).memCall u call (.refl h)) t hState

/-- What the calls of one process leave is enough for the others. -/
theorem Caller.Ready.follows (h : s.Ready) (hFollows : Follows t u) (hMram : t.mram = s.mram) :
    Caller.Ready ⟨s.mm, u.mram, u.activeMswp⟩ where
  ramRandom := hFollows.ready.ramRandom
  swapRandom := hFollows.ready.swapRandom
  frames := hFollows.ready.frames
  decodes := fun pgn hPresent => by
    obtain ⟨hNone, hZero⟩ := h.decodes pgn hPresent
    rw [← hMram] at hNone
    exact ⟨hFollows.drained hNone, hZero⟩
  present := fun pgn hPresent => by
    have hNumfp : u.mram.numfp = t.mram.numfp := hFollows.numfp
    rw [hMram] at hNumfp
    exact (h.present pgn hPresent).trans hNumfp.ge
  recent := fun hListed => by
    have hNumfp : u.mram.numfp = t.mram.numfp := hFollows.numfp
    rw [hMram] at hNumfp
    exact (h.recent hListed).trans hNumfp.ge

end Ready

/-! Whole runs of several processes -/

namespace Processes

variable {Proc : Type*} [DecidableEq Proc] {memramsz memswpsz : Int}

omit [DecidableEq Proc] in
theorem ready_initial (proc : Proc) :
    ((initial memramsz memswpsz : Processes Proc).caller proc).Ready := by
  have hAbsent : ∀ pgn, pagingPagePresent
      (((initial memramsz memswpsz : Processes Proc).caller proc).mm.pgd pgn) = false :=
    fun _ => pagingPagePresent_zero
  refine ⟨rfl, rfl, fun _ hFrame => mem_initMemphy_freeFpList.mp hFrame, ?_, ?_, ?_⟩
  · intro pgn hPresent
    rw [hAbsent] at hPresent
    cases hPresent
  · intro pgn hPresent
    rw [hAbsent] at hPresent
    cases hPresent
  · exact fun hListed => absurd rfl hListed

theorem ready_step {s t : Processes Proc} {label : Proc × ProcCall}
    (h : ∀ proc, (s.caller proc).Ready) (step : FrameStep s label t) :
    ∀ proc, (t.caller proc).Ready := by
  intro other
  rcases step.cases with hSame | ⟨call, u, s', -, hState, hOwn, hOthers⟩
  · rw [hSame]
    exact h other
  · have hFollows := Follows.memCall (h label.1) hState
    by_cases hOther : other = label.1
    · rw [hOther, hOwn]
      exact hFollows.ready
    · rw [hOthers other hOther]
      exact (h other).follows hFollows rfl

theorem ready_run {labels : List (Proc × ProcCall)} {s : Processes Proc}
    (run : Runs FrameStep (initial memramsz memswpsz) labels s) (proc : Proc) :
    (s.caller proc).Ready :=
  run.invariant (fun s => ∀ proc, (s.caller proc).Ready) ready_initial
    (fun _ _ _ h step => ready_step h step) proc

/-- In every reachable state, READ reports its outcome exactly when the two
accesses have the same fate. -/
theorem reports_outcome_iff {labels : List (Proc × ProcCall)} {s : Processes Proc}
    (run : Runs FrameStep (initial memramsz memswpsz) labels s) (proc : Proc)
    (source offset destination : Int) :
    (s.caller proc).ReportsOutcome source offset destination ↔
      (s.caller proc).GrantsAlike source offset destination :=
  (ready_run run proc).reportsOutcome_iff source offset destination

/-- A read within one live region reports its outcome. -/
theorem reports_outcome_same : ∃ s : Processes Unit,
    Runs FrameStep (initial 1024 4096) [((), .mem (.pgalloc 100 0))] s ∧
      (s.caller ()).ReportsOutcome 0 5 0 := by
  have hEval : ((MemCall.pgalloc 100 0).run ⟨2, 0, 0, 0⟩
      ((initial 1024 4096 : Processes Unit).caller ())).state?.any
        (fun s => s.GrantsAlike 0 5 0) = true := by
    decide +kernel
  obtain ⟨s, step, hAlike⟩ := exists_frameStep hEval
  exact ⟨s, Runs.one step,
    (reports_outcome_iff (Runs.one step) () 0 5 0).mpr (of_decide_eq_true hAlike)⟩

/-- A read into a symbol without a region returns 0 and stores nothing; a read out
of one stores what happened to be in the variable. -/
theorem read_swallows_failure : ∃ (s : Processes Unit) (byte : Byte) (middle t : Caller),
    Runs FrameStep (initial 1024 4096) [((), .mem (.pgalloc 100 0))] s ∧
    read 0 0 0 5 (s.caller ()) = .ok byte middle ∧ pgwrite 0 byte 1 0 middle = .fail t ∧
    pgread 0 0 0 5 1 (s.caller ()) = .ok () t ∧ ¬ (s.caller ()).ReportsOutcome 0 5 1 ∧
    ¬ (s.caller ()).ReportsOutcome 1 0 0 := by
  have hEval : ((MemCall.pgalloc 100 0).run ⟨2, 0, 0, 0⟩
      ((initial 1024 4096 : Processes Unit).caller ())).state?.any (fun s =>
        ¬ s.GrantsAlike 1 0 0 ∧ (read 0 0 0 5 s).ok?.any fun result =>
          (pgwrite 0 result.1 1 0 result.2).code?.any fun stored => stored.1 = false) = true := by
    decide +kernel
  obtain ⟨s, step, hTest⟩ := exists_frameStep hEval
  obtain ⟨hAlike, hRead⟩ := of_decide_eq_true hTest
  obtain ⟨⟨byte, middle⟩, hOk, hStore⟩ := (Option.any_eq_true _ _).mp hRead
  obtain ⟨⟨stored, t⟩, hCode, hStored⟩ := (Option.any_eq_true _ _).mp hStore
  obtain rfl : stored = false := of_decide_eq_true hStored
  have hOk' : read 0 0 0 5 (s.caller ()) = .ok byte middle := Outcome.ok?_eq_some.mp hOk
  have hFail : pgwrite 0 byte 1 0 middle = .fail t := Outcome.code?_eq_false.mp hCode
  have hReturns : pgread 0 0 0 5 1 (s.caller ()) = .ok () t := by
    have hIgnored : pgread 0 0 0 5 1 (s.caller ()) = (pgwrite 0 byte 1 0 middle).ignoreCode () := by
      rw [pgread, show read 0 0 (cint 0) (cint 5) (s.caller ()) = .ok byte middle from hOk']
    rw [hIgnored, hFail]
    rfl
  refine ⟨s, byte, middle, t, Runs.one step, hOk', hFail, hReturns, fun hReports => ?_, ?_⟩
  · rw [hReports.failed_store 0 0 byte middle t hOk' hFail] at hReturns
    cases hReturns
  · rwa [(ready_run (Runs.one step) ()).reportsOutcome_iff]

end Processes

end Btlos
