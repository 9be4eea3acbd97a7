import Mathlib.Data.List.ReduceOption
import Btlos.Paging.Lifetime
import Btlos.Vm.ReadOutcome

/-! What the virtual memory of all processes amounts to: the page of an access and the
process play no part in where it goes. There are four banks of 256 bytes, and which of
them is in use depends on the number of frames taken so far. -/
namespace Btlos

open Transition

/-- An access to a byte, at a virtual address of some process. -/
inductive Touch where
  | fetch (addr : Int) (data : Byte)
  | store (addr : Int) (data : Byte)
deriving DecidableEq

/-- The bytes of RAM, and how many of its frames have been taken. -/
structure Banks where
  cell : Int → Byte
  taken : Nat

namespace Banks

def empty : Banks := ⟨fun _ => 0, 0⟩

/-- The bank in use, for a RAM of this many frames. -/
def bank (frames : Nat) (banks : Banks) : Nat :=
  if banks.taken < frames then banks.taken / 256 % 4 else 0

/-- The byte for a virtual address. -/
def index (frames : Nat) (banks : Banks) (addr : Int) : Int :=
  banks.bank frames * 256 + addr % 256

/-- A page comes into RAM. -/
def load (frames : Nat) (banks : Banks) : Banks :=
  { banks with taken := min (banks.taken + 1) frames }

end Banks

/-- A step of the banks: an access, or a page that comes into RAM without one. -/
inductive BankStep (frames : Nat) : Banks → Option Touch → Banks → Prop where
  | load (banks : Banks) : BankStep frames banks none (banks.load frames)
  | fetch (banks : Banks) (addr : Int) :
      BankStep frames banks (some (.fetch addr (banks.cell (banks.index frames addr))))
        (banks.load frames)
  | store (banks : Banks) (addr : Int) (data : Byte) :
      BankStep frames banks (some (.store addr data))
        ({ banks with
          cell := Function.update banks.cell (banks.index frames addr) data }.load frames)

/-- The virtual address that an access to a symbol goes to. -/
def Caller.address (s : Caller) (rgid offset : Int) : Int :=
  cint ((s.mm.symrgtbl rgid).rgStart + offset)

/-- The access that `pgwrite` makes, if it succeeds. -/
def storeTouches (junk data : Byte) (destination offset : Int) (s : Caller) : List Touch :=
  match pgwrite junk data destination offset s with
  | .ok _ _ => [.store (s.address (cint destination) (cint offset)) data]
  | _ => []

/-- The accesses that a call makes. -/
def MemCall.touches (u : Uninit) : MemCall → Caller → List Touch
  | pgalloc _ _, _ => []
  | pgfreeData _, _ => []
  | pgread source offset destination, s =>
      match read u.junk 0 (cint source) (cint offset) s with
      | .ok data t =>
          .fetch (s.address (cint source) (cint offset)) data ::
            storeTouches u.junk data destination 0 t
      | .fail t => storeTouches u.junk u.data destination 0 t
      | .undefined => []
  | pgwrite data destination offset, s => storeTouches u.junk data destination offset s

section Shows

variable {frames : Nat} {s t : Caller} {banks : Banks}

/-- The device looks like these banks. -/
structure Memphy.Shows (frames : Nat) (mram : Memphy) (banks : Banks) : Prop where
  storage : mram.storage = banks.cell
  free : mram.freeFpList = formatNodes banks.taken (frames - banks.taken)
  taken_le : banks.taken ≤ frames

/-- The accesses have been made since RAM looked like the banks at the beginning. -/
def Caller.Touched (frames : Nat) (banks : Banks) (touches : List Touch) (s : Caller) : Prop :=
  DecodesZero s ∧ ∃ trace banks', Runs (BankStep frames) banks trace banks' ∧
    trace.reduceOption = touches ∧ s.mram.Shows frames banks'

theorem Memphy.Shows.sameFrames {mram mram' : Memphy} (h : mram.Shows frames banks)
    (hSame : mram.SameFrames mram') (hStorage : mram'.storage = mram.storage) :
    mram'.Shows frames banks :=
  ⟨hStorage.trans h.storage, hSame.freeFpList.trans h.free, h.taken_le⟩

/-- A frame is taken, as long as there is one. -/
theorem Memphy.Shows.pop {mram mram' : Memphy} (h : mram.Shows frames banks)
    (hFree : mram'.freeFpList = mram.freeFpList.tail) (hStorage : mram'.storage = mram.storage) :
    mram'.Shows frames (banks.load frames) := by
  have hLe := h.taken_le
  refine ⟨hStorage.trans h.storage, ?_, Nat.min_le_right _ _⟩
  rw [hFree, h.free]
  rcases hLe.eq_or_lt with hAll | hSome
  · simp [Banks.load, hAll, formatNodes]
  · obtain ⟨more, hMore⟩ : ∃ more, frames - banks.taken = more + 1 :=
      ⟨frames - banks.taken - 1, by omega⟩
    have hTaken : (banks.load frames).taken = banks.taken + 1 := Nat.min_eq_left hSome
    have hRest : frames - (banks.taken + 1) = more := by omega
    rw [hMore, formatNodes, List.tail_cons, hTaken, hRest]
    rfl

/-- The bank in use is the one that the next free frame decodes to. -/
theorem Memphy.Shows.bank_eq {mram : Memphy} (h : mram.Shows frames banks) :
    mram.freeFpList.headD 0 / 256 % 4 = banks.bank frames := by
  rw [h.free, Banks.bank]
  split_ifs with hSome
  · obtain ⟨more, hMore⟩ : ∃ more, frames - banks.taken = more + 1 :=
      ⟨frames - banks.taken - 1, by omega⟩
    rw [hMore, formatNodes, List.headD_cons]
    rfl
  · have hNone : frames - banks.taken = 0 := by omega
    rw [hNone]
    rfl

theorem ramCell_eq_index (h : s.mram.Shows frames banks) (rgid offset : Int) :
    ramCell s rgid offset = banks.index frames (s.address rgid offset) := by
  rw [ramCell, h.bank_eq]
  rfl

theorem Caller.Touched.refl (hDecodes : DecodesZero s) (h : s.mram.Shows frames banks) :
    s.Touched frames banks [] :=
  ⟨hDecodes, [], banks, Runs.nil, rfl, h⟩

/-- One more step. -/
theorem Caller.Touched.snoc {touches : List Touch} {trace : List (Option Touch)}
    {step : Option Touch}
    {banks' banks'' : Banks} (hTrace : Runs (BankStep frames) banks trace banks')
    (hTouches : trace.reduceOption = touches) (last : BankStep frames banks' step banks'')
    (hDecodes : DecodesZero t) (hShows : t.mram.Shows frames banks'') :
    t.Touched frames banks (touches ++ step.toList) := by
  refine ⟨hDecodes, trace ++ [step], banks'', Runs.snoc hTrace last, ?_, hShows⟩
  rw [List.reduceOption_append, hTouches, List.reduceOption_singleton]

/-- What a request for a page does to the banks. -/
theorem shows_page {pgn : Int} {call : Outcome Caller Int} (hDecodes : DecodesZero s)
    (h : s.mram.Shows frames banks) (hEnd : PgEnd s pgn call) :
    (∀ t, call = .fail t → t.mram.Shows frames banks) ∧
      ∀ fpn t, call = .ok fpn t → t.mram.Shows frames (banks.load frames) := by
  have hFull : s.mram.freeFpList = [] → ∀ mram : Memphy, mram.freeFpList = [] →
      mram.storage = s.mram.storage → mram.Shows frames (banks.load frames) := by
    intro hNone mram hNone' hStorage
    apply h.pop
    · rw [hNone, hNone']
      rfl
    · exact hStorage
  cases hEnd with
  | undefined => exact ⟨fun t hFail => (by cases hFail), fun fpn t hOk => (by cases hOk)⟩
  | badPage | noVictim | noSwapFrame =>
      refine ⟨fun t hFail => ?_, fun fpn t hOk => by cases hOk⟩
      obtain rfl := Outcome.fail.inj hFail
      exact h
  | resident pages hPgn hPresent hLru =>
      refine ⟨fun t hFail => (by cases hFail), fun fpn t hOk => ?_⟩
      obtain ⟨-, rfl⟩ := Outcome.ok.inj hOk
      have hNone := (hDecodes pgn hPresent).1
      exact hFull hNone _ hNone rfl
  | freeFrame frame rest pages hPgn hPresent hFrame hLru =>
      refine ⟨fun t hFail => (by cases hFail), fun fpn t hOk => ?_⟩
      obtain ⟨-, rfl⟩ := Outcome.ok.inj hOk
      apply h.pop
      · rw [hFrame]
        rfl
      · rfl
  | replaced pages victim frame rest mram mswp hPgn hPresent hFrame hLru hPages hSwap hRam hStorage
      hMswp =>
      refine ⟨fun t hFail => (by cases hFail), fun fpn t hOk => ?_⟩
      obtain ⟨-, rfl⟩ := Outcome.ok.inj hOk
      exact hFull hFrame mram (hRam.freeFpList.trans hFrame) hStorage

/-- So allocations and releases make no access. -/
theorem touched_pagingInvariant (frames : Nat) (banks : Banks) (touches : List Touch) :
    PagingInvariant (Caller.Touched frames banks touches) where
  samePaging := by
    rintro s t ⟨hPgd, -, hMram, -⟩ ⟨hDecodes, trace, banks', hTrace, hTouches, hShows⟩
    refine ⟨?_, trace, banks', hTrace, hTouches, ?_⟩
    · rw [DecodesZero, hPgd, hMram]
      exact hDecodes
    · rw [hMram]
      exact hShows
  page := by
    rintro junk pgn s ⟨hDecodes, trace, banks', hTrace, hTouches, hShows⟩
    have hEnd := pgGetpage_cases junk pgn s
    obtain ⟨hFail, hOk⟩ := shows_page hDecodes hShows hEnd
    have hKeeps := pgGetpage_keepsCells hDecodes hEnd
    cases hCall : pgGetpage junk pgn s with
    | undefined => trivial
    | fail t =>
        rw [hCall] at hKeeps
        exact ⟨hKeeps.decodes, trace, banks', hTrace, hTouches, hFail t hCall⟩
    | ok fpn t =>
        rw [hCall] at hKeeps
        have hLoaded : t.Touched frames banks (touches ++ (none : Option Touch).toList) :=
          .snoc hTrace hTouches (.load banks') hKeeps.decodes (hOk fpn t hCall)
        simpa using hLoaded

theorem access_shows (hDecodes : DecodesZero s) (h : s.mram.Shows frames banks) (junk : Byte)
    (rgid offset : Int) :
    (∀ t, accessPhy junk rgid offset s = .fail t → DecodesZero t ∧ t.mram.Shows frames banks) ∧
      ∀ phy t, accessPhy junk rgid offset s = .ok phy t →
        DecodesZero t ∧ t.mram.Shows frames (banks.load frames) := by
  rw [accessPhy]
  rcases accessAddr_cases rgid offset s with hCall | hCall | ⟨-, hCall⟩
  · rw [hCall]
    exact ⟨fun t hFail => (by cases hFail), fun phy t hOk => (by cases hOk)⟩
  · rw [hCall]
    refine ⟨fun t hFail => ?_, fun phy t hOk => (by cases hOk)⟩
    obtain rfl := Outcome.fail.inj hFail
    exact ⟨hDecodes, h⟩
  · rw [hCall, Outcome.bind_ok]
    have hEnd := pgGetpage_cases junk (pagingPgn (cint ((s.mm.symrgtbl rgid).rgStart + offset))) s
    obtain ⟨hRefused, hGranted⟩ := shows_page hDecodes h hEnd
    have hKeeps := pgGetpage_keepsCells hDecodes hEnd
    cases hPage : pgGetpage junk (pagingPgn (cint ((s.mm.symrgtbl rgid).rgStart + offset))) s with
    | undefined => exact ⟨fun t hFail => (by cases hFail), fun phy t hOk => (by cases hOk)⟩
    | fail middle =>
        rw [hPage] at hKeeps
        refine ⟨fun t hFail => ?_, fun phy t hOk => (by cases hOk)⟩
        obtain rfl := Outcome.fail.inj hFail
        exact ⟨hKeeps.decodes, hRefused middle hPage⟩
    | ok fpn middle =>
        rw [hPage] at hKeeps
        refine ⟨fun t hFail => (by cases hFail), fun phy t hOk => ?_⟩
        obtain ⟨-, rfl⟩ := Outcome.ok.inj hOk
        exact ⟨hKeeps.decodes, hGranted fpn middle hPage⟩

theorem DecodesZero.sameFrames {mram : Memphy} (h : DecodesZero s)
    (hSame : s.mram.SameFrames mram) :
    DecodesZero { s with mram := mram } := by
  intro pgn hPresent
  exact (h pgn hPresent).imp_left hSame.freeFpList.trans

/-- Out of the device's range, so that only the page has come into RAM. -/
private theorem touched_load (hDecodes : DecodesZero t)
    (h : t.mram.Shows frames (banks.load frames)) :
    t.Touched frames banks [] :=
  .snoc Runs.nil rfl (.load banks) hDecodes h

theorem read_touched (hDecodes : DecodesZero s) (h : s.mram.Shows frames banks) (junk : Byte)
    (rgid offset : Int) :
    (∀ t, read junk 0 rgid offset s = .fail t → t.Touched frames banks []) ∧
      ∀ data t, read junk 0 rgid offset s = .ok data t →
        t.Touched frames banks [.fetch (s.address rgid offset) data] := by
  obtain ⟨hRefused, hGranted⟩ := access_shows hDecodes h junk rgid offset
  have hValue : ∀ data t, read junk 0 rgid offset s = .ok data t →
      data = banks.cell (banks.index frames (s.address rgid offset)) := by
    intro data t hOk
    rw [(read_ok hDecodes hOk).1, h.storage, ramCell_eq_index h]
  rw [read_eq] at hValue ⊢
  cases hPhy : accessPhy junk rgid offset s with
  | undefined => exact ⟨fun t hFail => (by cases hFail), fun data t hOk => (by cases hOk)⟩
  | fail middle =>
      refine ⟨fun t hFail => ?_, fun data t hOk => (by cases hOk)⟩
      obtain rfl := Outcome.fail.inj hFail
      obtain ⟨hMiddle, hShows⟩ := hRefused middle hPhy
      exact .refl hMiddle hShows
  | ok phy middle =>
      obtain ⟨hMiddle, hShows⟩ := hGranted phy middle hPhy
      have hEnds := memphyRead_ends middle.mram phy
      rw [hPhy] at hValue
      rw [Outcome.bind_ok] at hValue ⊢
      generalize memphyRead middle.mram phy = byte at hEnds hValue ⊢
      cases byte with
      | undefined => exact ⟨fun t hFail => (by cases hFail), fun data t hOk => (by cases hOk)⟩
      | fail mram =>
          refine ⟨fun t hFail => ?_, fun data t hOk => (by cases hOk)⟩
          obtain rfl := Outcome.fail.inj hFail
          exact touched_load (hMiddle.sameFrames hEnds.1) (hShows.sameFrames hEnds.1 hEnds.2)
      | ok data mram =>
          refine ⟨fun t hFail => (by cases hFail), fun data' t hOk => ?_⟩
          have hData := hValue data' t hOk
          obtain ⟨rfl, rfl⟩ := Outcome.ok.inj hOk
          have hFetch : BankStep frames banks
              (some (.fetch (s.address rgid offset) data)) (banks.load frames) := by
            rw [hData]
            exact .fetch banks _
          exact .snoc Runs.nil rfl hFetch (hMiddle.sameFrames hEnds.1)
            (hShows.sameFrames hEnds.1 hEnds.2)

theorem write_touched (hDecodes : DecodesZero s) (h : s.mram.Shows frames banks) (junk data : Byte)
    (rgid offset : Int) :
    (∀ t, write junk 0 rgid offset data s = .fail t → t.Touched frames banks []) ∧
      ∀ value t, write junk 0 rgid offset data s = .ok value t →
        t.Touched frames banks [.store (s.address rgid offset) data] := by
  obtain ⟨hRefused, hGranted⟩ := access_shows hDecodes h junk rgid offset
  have hStored : ∀ value t, write junk 0 rgid offset data s = .ok value t →
      t.mram.storage =
          Function.update banks.cell (banks.index frames (s.address rgid offset)) data ∧
        DecodesZero t := by
    intro value t hOk
    obtain ⟨hStorage, -, hDecodes'⟩ := write_ok hDecodes hOk
    rw [hStorage, h.storage, ramCell_eq_index h]
    exact ⟨rfl, hDecodes'⟩
  rw [write_eq] at hStored ⊢
  cases hPhy : accessPhy junk rgid offset s with
  | undefined => exact ⟨fun t hFail => (by cases hFail), fun value t hOk => (by cases hOk)⟩
  | fail middle =>
      refine ⟨fun t hFail => ?_, fun value t hOk => (by cases hOk)⟩
      obtain rfl := Outcome.fail.inj hFail
      obtain ⟨hMiddle, hShows⟩ := hRefused middle hPhy
      exact .refl hMiddle hShows
  | ok phy middle =>
      obtain ⟨hMiddle, hShows⟩ := hGranted phy middle hPhy
      rw [hPhy] at hStored
      rw [Outcome.bind_ok] at hStored ⊢
      by_cases hHas : middle.mram.Has phy
      · rw [memphyWrite_inside hHas] at hStored ⊢
        refine ⟨fun t hFail => (by cases hFail), fun value t hOk => ?_⟩
        obtain ⟨hStorage, hDecodes'⟩ := hStored value t hOk
        obtain ⟨-, rfl⟩ := Outcome.ok.inj hOk
        have hSame := (middle.mram.sameFrames_accessed phy).store
          (Function.update middle.mram.storage phy data)
        exact .snoc Runs.nil rfl (.store banks _ data) hDecodes'
          ⟨hStorage, hSame.freeFpList.trans hShows.free, hShows.taken_le⟩
      · rw [memphyWrite_outside hHas]
        refine ⟨fun t hFail => ?_, fun value t hOk => (by cases hOk)⟩
        obtain rfl := Outcome.fail.inj hFail
        exact touched_load hMiddle hShows

/-- A call that goes on from the banks as they are by now. -/
theorem Caller.Touched.ends {Value : Type*} {call : Outcome Caller Value}
    {touches more : List Touch}
    (h : s.Touched frames banks touches)
    (hNext : ∀ banks', DecodesZero s → s.mram.Shows frames banks' →
      call.Ends (Caller.Touched frames banks' more)) :
    call.Ends (Caller.Touched frames banks (touches ++ more)) := by
  obtain ⟨hDecodes, trace, banks', hTrace, rfl, hShows⟩ := h
  apply (hNext banks' hDecodes hShows).mono
  rintro t ⟨hDecodes', trace', banks'', hTrace', rfl, hShows'⟩
  exact ⟨hDecodes', trace ++ trace', banks'', hTrace.trans hTrace',
    List.reduceOption_append .., hShows'⟩

/-- The access of `pgwrite`, whether or not it succeeds. -/
theorem pgwrite_touched (hDecodes : DecodesZero s) (h : s.mram.Shows frames banks)
    (junk data : Byte) (destination offset : Int) :
    (pgwrite junk data destination offset s).Ends
      (Caller.Touched frames banks (storeTouches junk data destination offset s)) := by
  obtain ⟨hFail, hOk⟩ := write_touched hDecodes h junk data (cint destination) (cint offset)
  rw [storeTouches]
  cases hCall : pgwrite junk data destination offset s with
  | undefined => trivial
  | fail t => exact hFail t hCall
  | ok value t => exact hOk value t hCall

/-- What a call does to the banks. -/
theorem memCall_touched (hDecodes : DecodesZero s) (h : s.mram.Shows frames banks) (u : Uninit)
    (call : MemCall) : (call.run u s).Ends (Caller.Touched frames banks (call.touches u s)) := by
  have hSame : s.Touched frames banks [] := .refl hDecodes h
  have hPaging := touched_pagingInvariant frames banks []
  cases call with
  | pgalloc size regIndex =>
      exact (hPaging.alloc hSame u.fuel u.junk 0 _ _ u.addr).bind fun _ _ hEnd => hEnd
  | pgfreeData regIndex => exact hPaging.free hSame _
  | pgwrite data destination offset =>
      exact pgwrite_touched hDecodes h u.junk data destination offset
  | pgread source offset destination =>
      obtain ⟨hFail, hOk⟩ := read_touched hDecodes h u.junk (cint source) (cint offset)
      simp only [MemCall.run, pgread, MemCall.touches]
      cases hRead : read u.junk 0 (cint source) (cint offset) s with
      | undefined => trivial
      | ok data middle =>
          apply (hOk data middle hRead).ends
          intro banks' hMiddle hShows
          exact (pgwrite_touched hMiddle hShows u.junk data destination 0).ignoreCode
      | fail middle =>
          have hStore : ((pgwrite u.junk u.data destination 0 middle).ignoreCode ()).Ends
              (Caller.Touched frames banks
                ([] ++ storeTouches u.junk u.data destination 0 middle)) := by
            apply (hFail middle hRead).ends
            intro banks' hMiddle hShows
            exact (pgwrite_touched hMiddle hShows u.junk u.data destination 0).ignoreCode
          exact hStore.bind fun _ _ hEnd => hEnd

end Shows

/-! Whole runs of several processes -/

theorem BankStep.taken {frames : Nat} {banks banks' : Banks} {step : Option Touch}
    (h : BankStep frames banks step banks') : banks'.taken = min (banks.taken + 1) frames := by
  cases h <;> rfl

theorem Banks.taken_mono {frames : Nat} {banks banks' : Banks} {trace : List (Option Touch)}
    (run : Runs (BankStep frames) banks trace banks') :
    min banks.taken frames ≤ banks'.taken := by
  induction run with
  | nil => exact Nat.min_le_left _ _
  | snoc prior last ih =>
      rw [last.taken]
      omega

namespace Processes

variable {Proc : Type*} [DecidableEq Proc] {frames : Nat} {memramsz memswpsz : Int}
  {s t : Processes Proc} {banks : Banks}

/-- A step of a process, with the accesses that it makes. -/
def TouchStep : Processes Proc → Proc × ProcCall × List Touch → Processes Proc → Prop :=
  ShownStep MemCall.touches

/-- RAM looks like these banks to all processes. -/
structure Backed (frames : Nat) (s : Processes Proc) (banks : Banks) : Prop where
  shows : s.mram.Shows frames banks
  decodes : ∀ proc, DecodesZero (s.caller proc)

omit [DecidableEq Proc] in
theorem backed_initial :
    (initial memramsz memswpsz : Processes Proc).Backed (System.frameCount memramsz) .empty where
  shows := by
    refine ⟨initMemphy_storage .zero memramsz 1, ?_, Nat.zero_le _⟩
    change (initMemphy .zero memramsz 1).freeFpList = _
    rw [initMemphy_freeFpList]
    rfl
  decodes proc pgn hPresent := by
    have hAbsent :
      pagingPagePresent (((initial memramsz memswpsz : Processes Proc).mm proc).pgd pgn) =
        false := pagingPagePresent_zero
    have hPresent' : pagingPagePresent
        (((initial memramsz memswpsz : Processes Proc).mm proc).pgd pgn) = true := hPresent
    rw [hAbsent] at hPresent'
    cases hPresent'

theorem Backed.step (h : s.Backed frames banks) {label : Proc × ProcCall × List Touch}
    (step : TouchStep s label t) : ∃ trace banks', Runs (BankStep frames) banks trace banks' ∧
      trace.reduceOption = label.2.2 ∧ t.Backed frames banks' := by
  obtain ⟨proc, call, touches⟩ := label
  obtain ⟨-, hCall⟩ := step
  cases call with
  | finish =>
      obtain ⟨rfl, rfl⟩ := hCall
      exact ⟨[], banks, Runs.nil, rfl, h.shows, h.decodes⟩
  | mem call =>
      obtain ⟨u, s', hState, hMade, rfl⟩ := hCall
      have hMade' : touches = call.touches u (s.caller proc) := hMade
      have hShows : (s.caller proc).mram.Shows frames banks := h.shows
      have hTouched := memCall_touched (h.decodes proc) hShows u call
      obtain ⟨hDecodes, trace, banks', hTrace, hTouches, hShows'⟩ :=
        Outcome.ends_iff.mp hTouched s' hState
      refine ⟨trace, banks', hTrace, hTouches.trans hMade'.symm, hShows', fun other => ?_⟩
      by_cases hSame : other = proc
      · have hOwn : ({ s with toSystem := s.put proc s' } : Processes Proc).caller other = s' := by
          rw [hSame]
          exact s.toSystem.caller_put proc s'
        rw [hOwn]
        exact hDecodes
      · have hOther : (s.put proc s').mm other = s.mm other := by
          rw [System.put_mm, if_neg hSame]
        intro pgn hPresent
        change pagingPagePresent (((s.put proc s').mm other).pgd pgn) = true at hPresent
        change s'.mram.freeFpList = [] ∧ pagingFpn (((s.put proc s').mm other).pgd pgn) = 0
        rw [hOther] at hPresent ⊢
        obtain ⟨hNone, hZero⟩ := h.decodes other pgn hPresent
        have hAll : frames ≤ banks.taken := by
          have hLength : formatNodes banks.taken (frames - banks.taken) = [] :=
            h.shows.free.symm.trans hNone
          have hZeroLength := congrArg List.length hLength
          rw [formatNodes_length, List.length_nil] at hZeroLength
          omega
        have hLater := Banks.taken_mono hTrace
        have hStill : frames - banks'.taken = 0 := by omega
        refine ⟨?_, hZero⟩
        rw [hShows'.free, hStill]
        rfl

theorem backed_run {labels : List (Proc × ProcCall × List Touch)}
    (run : Runs TouchStep (initial memramsz memswpsz) labels s) :
    ∃ trace banks, Runs (BankStep (System.frameCount memramsz)) .empty trace banks ∧
      trace.reduceOption = labels.flatMap (fun label => label.2.2) ∧
      s.Backed (System.frameCount memramsz) banks := by
  induction run with
  | nil => exact ⟨[], .empty, Runs.nil, rfl, backed_initial⟩
  | snoc prior last ih =>
      obtain ⟨trace, banks, hTrace, hTouches, hMiddle⟩ := ih
      obtain ⟨more, banks', hMore, hLast, hFinish⟩ := hMiddle.step last
      refine ⟨trace ++ more, banks', hTrace.trans hMore, ?_, hFinish⟩
      rw [List.reduceOption_append, hTouches, hLast, List.flatMap_append, List.flatMap_singleton]

end Processes

/-! One page for all -/

/-- The byte that was stored last at an address with the same offset in its page, and 0
before. -/
def lastStored (addr : Int) (touches : List Touch) : Byte :=
  touches.foldl (fun byte touch =>
    match touch with
    | .fetch _ _ => byte
    | .store other data => if other % 256 = addr % 256 then data else byte) 0

/-- A byte that is read is the last one that was stored. -/
def FetchesLast (before : List Touch) (touch : Touch) : Prop :=
  ∀ addr data, touch = .fetch addr data → data = lastStored addr before

theorem lastStored_fetch (addr : Int) (touches : List Touch) (other : Int) (data : Byte) :
    lastStored addr (touches ++ [.fetch other data]) = lastStored addr touches := by
  rw [lastStored, List.foldl_append]
  rfl

theorem lastStored_store (addr : Int) (touches : List Touch) (other : Int) (data : Byte) :
    lastStored addr (touches ++ [.store other data]) =
      if other % 256 = addr % 256 then data else lastStored addr touches := by
  rw [lastStored, List.foldl_append]
  rfl

theorem lastStored_emod (addr : Int) (touches : List Touch) :
    lastStored (addr % 256) touches = lastStored addr touches := by
  simp only [lastStored, Int.emod_emod]

section Few

variable {frames : Nat} {banks banks' : Banks}

/-- What the banks hold after these accesses, as long as only the first one is in use. -/
structure Banks.OnePage (touches : List Touch) (banks : Banks) : Prop where
  page : ∀ addr, 0 ≤ addr → addr < 256 → banks.cell addr = lastStored addr touches
  rest : ∀ addr, addr < 0 ∨ 256 ≤ addr → banks.cell addr = 0

theorem BankStep.index_eq {step : Option Touch} (h : BankStep frames banks step banks')
    (hFew : banks'.taken ≤ 256) (addr : Int) :
    banks.index frames addr = addr % 256 := by
  have hTaken := h.taken
  have hBank : banks.bank frames = 0 := by
    rw [Banks.bank]
    split_ifs
    · omega
    · rfl
  rw [Banks.index, hBank]
  omega

theorem Banks.OnePage.step {touches : List Touch} {step : Option Touch}
    (h : banks.OnePage touches) (last : BankStep frames banks step banks')
    (hFew : banks'.taken ≤ 256) :
    banks'.OnePage (touches ++ step.toList) ∧
      ∀ touch, step = some touch → FetchesLast touches touch := by
  have hIndex := last.index_eq hFew
  cases last with
  | load =>
      refine ⟨⟨?_, h.rest⟩, fun touch hSome => (by cases hSome)⟩
      rw [Option.toList_none, List.append_nil]
      exact h.page
  | fetch addr =>
      refine ⟨⟨fun other hLow hHigh => ?_, h.rest⟩, ?_⟩
      · rw [Option.toList_some, lastStored_fetch]
        exact h.page other hLow hHigh
      · rintro touch hSome addr' data rfl
        obtain ⟨rfl, rfl⟩ := Touch.fetch.inj (Option.some.inj hSome)
        rw [hIndex, h.page _ (by omega) (by omega), lastStored_emod]
  | store addr data =>
      refine ⟨⟨fun other hLow hHigh => ?_, fun other hOut => ?_⟩, ?_⟩
      · change Function.update banks.cell (banks.index frames addr) data other = _
        rw [hIndex, Option.toList_some, lastStored_store, Function.update_apply,
          Int.emod_eq_of_lt hLow hHigh, h.page other hLow hHigh]
        simp only [eq_comm]
      · change Function.update banks.cell (banks.index frames addr) data other = 0
        rw [hIndex, Function.update_of_ne (by omega)]
        exact h.rest other hOut
      · rintro touch hSome addr' data' rfl
        cases hSome

/-- As long as no more than 256 frames have been taken, the banks are one page. -/
theorem onePage_of_few {trace : List (Option Touch)}
    (run : Runs (BankStep frames) .empty trace banks) (hFew : banks.taken ≤ 256) :
    banks.OnePage trace.reduceOption ∧ EachStep FetchesLast trace.reduceOption := by
  induction run with
  | nil => exact ⟨⟨fun _ _ _ => rfl, fun _ _ => rfl⟩, eachStep_nil⟩
  | @snoc trace step middle _ prior last ih =>
      have hTaken := last.taken
      have hLe : middle.taken ≤ frames := by
        refine prior.invariant (fun banks => banks.taken ≤ frames) (Nat.zero_le _) ?_
        intro before step after _ last
        rw [last.taken]
        exact Nat.min_le_right _ _
      obtain ⟨hPage, hEach⟩ := ih (by omega)
      obtain ⟨hPage', hLast⟩ := hPage.step last hFew
      rw [List.reduceOption_append]
      cases step with
      | none =>
          simp only [Option.toList_none, List.append_nil] at hPage'
          simpa using ⟨hPage', hEach⟩
      | some touch =>
          rw [List.reduceOption_singleton, Option.toList_some] at *
          exact ⟨hPage', (eachStep_concat _ _).mpr ⟨hEach, hLast touch rfl⟩⟩

end Few

namespace Processes

variable {Proc : Type*} [DecidableEq Proc] {memramsz memswpsz : Int} {s : Processes Proc}

/-- In every run, whichever processes make the calls and in whatever order, RAM and the
bytes that are read and written are those of four banks. As long as no more than 256
frames have been taken, which on a RAM of 64 KiB is always, they are those of one page
that all processes share, and the rest of RAM stays unused. -/
theorem banks_run {labels : List (Proc × ProcCall × List Touch)}
    (run : Runs TouchStep (initial memramsz memswpsz) labels s) :
    ∃ trace banks, Runs (BankStep (System.frameCount memramsz)) .empty trace banks ∧
      trace.reduceOption = labels.flatMap (fun label => label.2.2) ∧
      s.mram.storage = banks.cell ∧
      banks.taken + s.mram.freeFpList.length = System.frameCount memramsz ∧
      (banks.taken ≤ 256 → banks.OnePage trace.reduceOption ∧
        EachStep FetchesLast trace.reduceOption) := by
  obtain ⟨trace, banks, hTrace, hTouches, hShows, -⟩ := backed_run run
  refine ⟨trace, banks, hTrace, hTouches, hShows.storage, ?_, onePage_of_few hTrace⟩
  rw [hShows.free, formatNodes_length]
  exact Nat.add_sub_of_le hShows.taken_le

/-- One process reads what another one has written, each at offset 5 of its own symbol. -/
theorem banks_run_shared :
    ∃ (labels : List (Fin 2 × ProcCall × List Touch)) (s : Processes (Fin 2)),
    labels.map (fun label => label.2.2) =
      [[], [], [.store 5 42#8], [.fetch 5 42#8, .store 0 42#8]] ∧
    ∃ trace banks, Runs (BankStep (System.frameCount 2048)) .empty trace banks ∧
      trace.reduceOption = labels.flatMap (fun label => label.2.2) ∧
      s.mram.storage = banks.cell ∧
      banks.taken + s.mram.freeFpList.length = System.frameCount 2048 ∧
      (banks.taken ≤ 256 → banks.OnePage trace.reduceOption ∧
        EachStep FetchesLast trace.reduceOption) := by
  let labels : List (Fin 2 × ProcCall × List Touch) :=
    [(0, .mem (.pgalloc 100 0), []), (1, .mem (.pgalloc 100 0), []),
      (0, .mem (.pgwrite 42#8 0 5), [.store 5 42#8]),
      (1, .mem (.pgread 0 5 0), [.fetch 5 42#8, .store 0 42#8])]
  have hEval :
    (exec (shownStep MemCall.touches ⟨2, 0, 0, 0⟩) (initial 2048 4096) labels).isSome = true := by
    decide +kernel
  obtain ⟨s, hExec⟩ := Option.isSome_iff_exists.mp hEval
  exact ⟨labels, s, rfl, banks_run (Runs.of_exec hExec fun _ _ _ => shownStep_step)⟩

end Processes

end Btlos
