import Btlos.Paging.SwapAccounting
import Btlos.Paging.EntryFormats

/-! What happens to the bytes of a page that goes to swap and comes back. Both
copies of a replacement run from RAM to swap, and the second one goes to the swap
frame that `PAGING_FPN` makes of the victim's entry, which is always frame 0. -/
namespace Btlos

open Transition

/-- The bytes of a frame. -/
def Memphy.bytes (mp : Memphy) (fpn : Int) : Fin pagingPagesz → Byte :=
  fun i => mp.storage (fpn * 256 + i)

/-! The page copy between random-access devices -/

section Copy

variable (junk : Byte) {dstfpn cellidx : Int} (srcfpn : Int) {mpsrc mpdst : Memphy}

/-- A whole frame lies on its device. -/
private theorem frame_range {mp : Memphy} {fpn : Int} (hFrame : fpn ∈ mp.frames) :
    0 ≤ fpn ∧ fpn * 256 + 256 ≤ mp.maxsz := by
  obtain ⟨hLow, hHigh⟩ : 0 ≤ fpn ∧ fpn < mp.maxsz.tdiv 256 := hFrame
  refine ⟨hLow, ?_⟩
  rw [Int.tdiv_eq_ediv] at hHigh
  split_ifs at hHigh
  · omega
  · simp only [Int.sign] at hHigh
    omega

private theorem memphyRead_random {mp : Memphy} (hRandom : mp.rdmflg = true) (addr : Int) :
    ∃ data, (memphyRead mp addr).ignoreCode junk = .ok data mp ∧
      (0 ≤ addr → addr < mp.maxsz → data = mp.storage addr) := by
  by_cases h : mp.Has addr
  · refine ⟨mp.storage addr, ?_, fun _ _ => rfl⟩
    rw [memphyRead_inside h, Memphy.accessed, if_pos hRandom, Outcome.ignoreCode_ok]
  · refine ⟨junk, ?_, fun hLow hHigh => absurd ⟨hLow, hHigh⟩ h⟩
    rw [memphyRead_outside h, if_pos hRandom, Outcome.ignoreCode_fail]

private theorem memphyWrite_random {mp : Memphy} (hRandom : mp.rdmflg = true) (addr : Int)
    (data : Byte) (hLow : 0 ≤ addr) (hHigh : addr < mp.maxsz) :
    memphyWrite mp addr data =
      .ok () { mp with storage := Function.update mp.storage addr data } := by
  rw [memphyWrite_inside ⟨hLow, hHigh⟩, Memphy.accessed, if_pos hRandom]

/-- One round writes one byte, which is the source's if the source has it. -/
private theorem swapCpCell_random (hSrc : mpsrc.rdmflg = true) (hDst : mpdst.rdmflg = true)
    (hFrame : dstfpn ∈ mpdst.frames) (hInt : mpdst.maxsz < 2147483648)
    (hCell : 0 ≤ cellidx ∧ cellidx < 256) :
    ∃ data, swapCpCell junk srcfpn dstfpn cellidx (mpsrc, mpdst) = .ok () (mpsrc,
        { mpdst with storage := Function.update mpdst.storage (dstfpn * 256 + cellidx) data }) ∧
      (srcfpn ∈ mpsrc.frames → mpsrc.maxsz < 2147483648 →
        data = mpsrc.storage (srcfpn * 256 + cellidx)) := by
  have hSize : ((pagingPagesz : Nat) : Int) = 256 := rfl
  obtain ⟨hDstLow, hDstHigh⟩ := frame_range hFrame
  have hAddrdst : cint (dstfpn * pagingPagesz + cellidx) = dstfpn * 256 + cellidx := by
    rw [hSize]
    exact cint_of_range (by omega) (by omega)
  obtain ⟨data, hRead, hData⟩ := memphyRead_random junk hSrc
    (cint (srcfpn * pagingPagesz + cellidx))
  have hWrite := memphyWrite_random hDst (dstfpn * 256 + cellidx) data (by omega) (by omega)
  refine ⟨data, ?_, fun hSource hSourceInt => ?_⟩
  · simp only [swapCpCell, hAddrdst, hRead, Outcome.lift_ok, Outcome.bind_ok, hWrite,
      Outcome.ignoreCode_ok]
  · obtain ⟨hSrcLow, hSrcHigh⟩ := frame_range hSource
    rw [hSize, cint_of_range (by omega) (by omega)] at hData
    exact hData (by omega) (by omega)

/-- The rounds from `cellidx` on write the rest of the frame and nothing else. -/
private theorem swapCpLoop_random (hSrc : mpsrc.rdmflg = true) (hDst : mpdst.rdmflg = true)
    (hFrame : dstfpn ∈ mpdst.frames) (hInt : mpdst.maxsz < 2147483648) (n : Nat) (cellidx : Int)
    (hCell : 0 ≤ cellidx ∧ cellidx + n ≤ 256) :
    ∃ storage, swapCpLoop junk srcfpn dstfpn n cellidx (mpsrc, mpdst) =
        .ok () (mpsrc, { mpdst with storage := storage }) ∧
      (∀ addr, addr < dstfpn * 256 + cellidx ∨ dstfpn * 256 + cellidx + n ≤ addr →
        storage addr = mpdst.storage addr) ∧
      (srcfpn ∈ mpsrc.frames → mpsrc.maxsz < 2147483648 → ∀ i, cellidx ≤ i → i < cellidx + n →
        storage (dstfpn * 256 + i) = mpsrc.storage (srcfpn * 256 + i)) := by
  induction n generalizing cellidx mpdst with
  | zero =>
      refine ⟨mpdst.storage, rfl, fun _ _ => rfl, fun _ _ i hLow hHigh => ?_⟩
      simp only [Nat.cast_zero, add_zero] at hHigh
      omega
  | succ n ih =>
      obtain ⟨data, hFirst, hData⟩ := swapCpCell_random junk srcfpn hSrc hDst
        hFrame hInt ⟨hCell.1, by omega⟩
      generalize hNext : ({ mpdst with
        storage := Function.update mpdst.storage (dstfpn * 256 + cellidx) data } : Memphy) = next
        at hFirst
      have hDst' : next.rdmflg = true := by rw [← hNext]; exact hDst
      have hFrame' : dstfpn ∈ next.frames := by rw [← hNext]; exact hFrame
      have hInt' : next.maxsz < 2147483648 := by rw [← hNext]; exact hInt
      obtain ⟨storage, hRest, hKept, hCopied⟩ := ih hDst' hFrame' hInt' (cellidx + 1)
        ⟨by omega, by omega⟩
      have hStored : next.storage =
        Function.update mpdst.storage (dstfpn * 256 + cellidx) data := by
        rw [← hNext]
      refine ⟨storage, ?_, fun addr hAddr => ?_, fun hSource hSourceInt i hLow hHigh => ?_⟩
      · rw [swapCpLoop, hFirst, Outcome.bind_ok, hRest, ← hNext]
      · rw [hKept addr (by omega), hStored, Function.update_of_ne (by omega)]
      · rcases Int.lt_or_eq_of_le hLow with hLater | rfl
        · exact hCopied hSource hSourceInt i (by omega) (by omega)
        · rw [hKept _ (by omega), hStored, Function.update_self]
          exact hData hSource hSourceInt

/-- A page copy fills its destination frame, with the bytes of the source frame
if the source has that frame, and touches nothing else. -/
theorem swapCpPage_bytes (hSrc : mpsrc.rdmflg = true) (hDst : mpdst.rdmflg = true)
    (hFrame : dstfpn ∈ mpdst.frames) (hInt : mpdst.maxsz < 2147483648) :
    ∃ mpdst', swapCpPage junk mpsrc srcfpn mpdst dstfpn = .ok () (mpsrc, mpdst') ∧
      mpdst.SameFrames mpdst' ∧
      (∀ other, other ≠ dstfpn → mpdst'.bytes other = mpdst.bytes other) ∧
      (srcfpn ∈ mpsrc.frames → mpsrc.maxsz < 2147483648 →
        mpdst'.bytes dstfpn = mpsrc.bytes srcfpn) := by
  obtain ⟨storage, hLoop, hKept, hCopied⟩ := swapCpLoop_random junk srcfpn hSrc hDst
    hFrame hInt pagingPagesz 0 ⟨Int.le_refl 0, by decide⟩
  have hSize : ((pagingPagesz : Nat) : Int) = 256 := rfl
  refine ⟨_, hLoop, ⟨rfl, rfl, rfl⟩, fun other hOther => ?_, fun hSource hSourceInt => ?_⟩
  · funext i
    have hCell : (i : Int) < 256 := by
      have := i.isLt
      omega
    exact hKept _ (by omega)
  · funext i
    have hCell : (i : Int) < 256 := by
      have := i.isLt
      omega
    exact hCopied hSource hSourceInt i (by omega) (by omega)

end Copy

/-- Devices as the program sets them up: random access, at most `INT_MAX` bytes,
and only frames of their own on the free lists. -/
structure Caller.Devices (s : Caller) : Prop where
  ramRandom : s.mram.rdmflg = true
  swapRandom : s.activeMswp.rdmflg = true
  ramSize : s.mram.maxsz < 2147483648
  swapSize : s.activeMswp.maxsz < 2147483648
  ramFree : ∀ fpn ∈ s.mram.freeFpList, fpn ∈ s.mram.frames
  swapFree : ∀ fpn ∈ s.activeMswp.freeFpList, fpn ∈ s.activeMswp.frames

theorem copyOut_bytes (junk : Byte) {s : Caller} (srcfpn : Int) {dstfpn : Int}
    (hRam : s.mram.rdmflg = true) (hSwap : s.activeMswp.rdmflg = true)
    (hFrame : dstfpn ∈ s.activeMswp.frames) (hInt : s.activeMswp.maxsz < 2147483648) :
    ∃ activeMswp, s.copyOut junk srcfpn dstfpn = .ok () { s with activeMswp := activeMswp } ∧
      s.activeMswp.SameFrames activeMswp ∧
      (∀ other, other ≠ dstfpn → activeMswp.bytes other = s.activeMswp.bytes other) ∧
      (srcfpn ∈ s.mram.frames → s.mram.maxsz < 2147483648 →
        activeMswp.bytes dstfpn = s.mram.bytes srcfpn) := by
  obtain ⟨mpdst, hCopy, hSame, hKept, hCopied⟩ := swapCpPage_bytes junk srcfpn hRam hSwap
    hFrame hInt
  refine ⟨mpdst, ?_, hSame, hKept, hCopied⟩
  rw [Caller.copyOut, hCopy]
  rfl

/-- What a replacement does to the bytes of the devices. Nothing goes to RAM; the
bytes of RAM frame 0 go to the swap frame that is issued, and then those of the
frame that `PAGING_SWP` names to swap frame 0. -/
structure Replaces (s : Caller) (pte : BitVec 32) (frame : Int) (t : Caller) : Prop where
  mram : t.mram = s.mram
  kept : ∀ other, other ≠ frame → other ≠ 0 → t.activeMswp.bytes other = s.activeMswp.bytes other
  evicted : frame ≠ 0 → t.activeMswp.bytes frame = s.mram.bytes 0
  second : pagingSwp pte ∈ s.mram.frames → t.activeMswp.bytes 0 = s.mram.bytes (pagingSwp pte)

private theorem pgReplace_bytes (junk : Byte) (pgn : Int) (pte : BitVec 32) {s : Caller}
    {pages : List Int} {victim frame : Int} {rest : List Int} (hDevices : s.Devices)
    (hZero : pagingFpn (s.mm.pgd victim) = 0) (hRam : 0 ∈ s.mram.frames)
    (hLru : s.mm.lruPgn = .nodes (pages ++ [victim]))
    (hSwap : s.activeMswp.freeFpList = frame :: rest) :
    ∃ pte' t, pgReplace junk pgn pte s = .ok pte' t ∧ Replaces s pte frame t ∧
      t.mm.lruPgn = if pages = [] then .freed else .nodes pages := by
  have hFrame : frame ∈ s.activeMswp.frames := hDevices.swapFree frame (by simp [hSwap])
  have hFirstFrame : 0 ∈ s.activeMswp.frames := by
    obtain ⟨hLow, hHigh⟩ := hFrame
    exact ⟨Int.le_refl 0, by omega⟩
  generalize hRest : (if pages = [] then PgnList.freed else .nodes pages) = lruPgn
  let start : Caller := { s.setLru lruPgn with
    activeMswp := { s.activeMswp with freeFpList := rest } }
  obtain ⟨mswp, hOut, hSame, hKept, hCopied⟩ := copyOut_bytes junk (s := start) 0
    hDevices.ramRandom hDevices.swapRandom hFrame hDevices.swapSize
  have hRandom : mswp.rdmflg = true := hSame.rdmflg.trans hDevices.swapRandom
  have hInt : mswp.maxsz < 2147483648 := hSame.maxsz.trans_lt hDevices.swapSize
  have hZeroFrame : 0 ∈ mswp.frames := by
    rw [hSame.frames]
    exact hFirstFrame
  obtain ⟨mswp', hIn, -, hKept', hCopied'⟩ := copyOut_bytes junk
    (s := { start with activeMswp := mswp }) (pagingSwp pte) hDevices.ramRandom hRandom hZeroFrame
    hInt
  have hReplace : ∃ pte' t, pgReplace junk pgn pte s = .ok pte' t ∧ t.mram = s.mram ∧
      t.activeMswp = mswp' ∧ t.mm.lruPgn = lruPgn := by
    simp only [pgReplace, hLru, findVictimPage_concat, hRest, Outcome.lift_ok, Outcome.bind_ok,
      memphyGetFreefp, Caller.setLru, hSwap, hZero]
    simp only [start, Caller.setLru] at hOut hIn
    rw [hOut, Outcome.bind_ok, hIn, Outcome.bind_ok]
    exact ⟨_, _, rfl, rfl, rfl, rfl⟩
  obtain ⟨pte', t, hCall, hMram, hMswp, hList⟩ := hReplace
  refine ⟨pte', t, hCall, ⟨hMram, fun other hOther hNonzero => ?_, fun hNonzero => ?_, ?_⟩, hList⟩
  · rw [hMswp, hKept' other hNonzero]
    exact hKept other hOther
  · rw [hMswp, hKept' frame hNonzero]
    exact hCopied hRam hDevices.ramSize
  · intro hSource
    rw [hMswp]
    exact hCopied' hSource hDevices.ramSize

theorem pgGetpage_bytes {s t : Caller} {pgn fpn : Int} {pages : List Int} {victim frame : Int}
    {rest : List Int} {junk : Byte} (hDevices : s.Devices)
    (hZero : pagingFpn (s.mm.pgd victim) = 0) (hRam : 0 ∈ s.mram.frames)
    (hPgn : 0 ≤ pgn ∧ pgn < pagingMaxPgn) (hPresent : pagingPagePresent (s.mm.pgd pgn) = false)
    (hFrame : s.mram.freeFpList = []) (hLru : s.mm.lruPgn = .nodes (pages ++ [victim]))
    (hSwap : s.activeMswp.freeFpList = frame :: rest) (hCall : pgGetpage junk pgn s = .ok fpn t) :
    Replaces s (s.mm.pgd pgn) frame t := by
  have hGood : ¬ (pgn < 0 ∨ pgn ≥ pagingMaxPgn) := by omega
  obtain ⟨pte, middle, hReplace, hBytes, hList⟩ := pgReplace_bytes junk pgn (s.mm.pgd pgn)
    hDevices hZero hRam hLru hSwap
  simp only [pgGetpage, if_neg hGood, hPresent, Bool.false_eq_true, if_false, pgMakePresent,
    memphyGetFreefp, hFrame, hReplace, Outcome.bind_ok, hList] at hCall
  by_cases hPages : pages = []
  · simp [hPages] at hCall
  · simp only [if_neg hPages, enlistPgnNode_nodes, Outcome.lift_ok, Outcome.bind_ok] at hCall
    obtain ⟨-, rfl⟩ := Outcome.ok.inj hCall
    exact ⟨hBytes.mram, hBytes.kept, hBytes.evicted, hBytes.second⟩

/-! Runs with what the pages have held -/

/-- A process together with the frame that was last returned for each page, the
pages on swap with the swap frames they were evicted to, and what the frame of a
page held when it was last evicted. -/
structure SwapHistory where
  caller : Caller
  frameOf : Int → Int
  homes : List (Int × Int)
  saved : Int → Fin pagingPagesz → Byte

namespace SwapHistory

/-- A process on zero-filled memory, with any bytes in RAM and on swap. -/
def initial (ram swap : Int → Byte) (memramsz memswpsz : Int) : SwapHistory where
  caller :=
    { mm := initMm .zero
      mram := initMemphy { FreshMemphy.zero with storage := ram } memramsz 1
      activeMswp := initMemphy { FreshMemphy.zero with storage := swap } memswpsz 1 }
  frameOf := fun _ => 0
  homes := []
  saved := fun _ _ => 0

/-- The page that a request evicts, and the swap frame it is given. -/
def evicts (s : SwapHistory) (pgn : Int) : Option (Int × Int) :=
  if pagingPagePresent (s.caller.mm.pgd pgn) = true ∨ s.caller.mram.freeFpList ≠ [] then none
  else
    match s.caller.mm.lruPgn.victim?, s.caller.activeMswp.freeFpList with
    | some victim, frame :: _ => some (victim, frame)
    | _, _ => none

/-- The history after a request that returned frame `fpn`. -/
def record (s : SwapHistory) (pgn fpn : Int) (caller : Caller) : SwapHistory where
  caller := caller
  frameOf := Function.update s.frameOf pgn fpn
  homes := ((s.evicts pgn).toList ++ s.homes).filter fun home => home.1 ≠ pgn
  saved :=
    match s.evicts pgn with
    | some (victim, _) =>
        Function.update s.saved victim (s.caller.mram.bytes (s.frameOf victim))
    | none => s.saved

/-- A request that succeeds. -/
def step (junk : Byte) (s : SwapHistory) (pgn : Int) : Option SwapHistory :=
  (pgGetpage junk pgn s.caller).ok?.map fun (fpn, caller) => s.record pgn fpn caller

/-- The byte that an uninitialised variable holds is open. -/
def Step (s : SwapHistory) (pgn : Int) (t : SwapHistory) : Prop :=
  ∃ junk, step junk s pgn = some t

/-- What a request does to the contents of pages, if it does what it is for: a
victim's bytes go to its swap frame, the requested page comes back from its own
with what it held, and the bytes of all other pages stay. -/
structure PreservesContents (s : SwapHistory) (pgn : Int) (t : SwapHistory) : Prop where
  evicted : ∀ victim frame, s.evicts pgn = some (victim, frame) →
    t.caller.activeMswp.bytes frame = s.caller.mram.bytes (s.frameOf victim)
  reloaded : ∀ frame, (pgn, frame) ∈ s.homes →
    t.caller.mram.bytes (t.frameOf pgn) = s.caller.activeMswp.bytes frame
  restored : ∀ frame, (pgn, frame) ∈ s.homes →
    t.caller.mram.bytes (t.frameOf pgn) = s.saved pgn
  swapped : ∀ other frame, other ≠ pgn → (other, frame) ∈ s.homes →
    t.caller.activeMswp.bytes frame = s.caller.activeMswp.bytes frame
  resident : ∀ other, other ≠ pgn → (∀ frame, s.evicts pgn ≠ some (other, frame)) →
    t.caller.mram.bytes (s.frameOf other) = s.caller.mram.bytes (s.frameOf other)

/-- RAM has the frame that `PAGING_SWP` names, and these bytes in it. -/
def SecondCopyOf (s : SwapHistory) (pgn : Int) (bytes : Fin pagingPagesz → Byte) : Prop :=
  pagingSwp (s.caller.mm.pgd pgn) ∈ s.caller.mram.frames ∧
    s.caller.mram.bytes (pagingSwp (s.caller.mm.pgd pgn)) = bytes

/-- The condition under which the copies of a request come out right. RAM frame 0
holds the bytes of the victim's frame. And if swap frame 0 is issued, or is the
one of another page on swap, the second copy puts the same bytes there. -/
def CopiesRight (s : SwapHistory) (pgn : Int) : Prop :=
  ∀ eviction ∈ s.evicts pgn,
    s.caller.mram.bytes 0 = s.caller.mram.bytes (s.frameOf eviction.1) ∧
    ((eviction.2 = 0 ∨ ∃ home ∈ s.homes, home.1 ≠ pgn ∧ home.2 = 0) →
      s.SecondCopyOf pgn (s.caller.mram.bytes 0))

instance (mp : Memphy) (fpn : Int) : Decidable (fpn ∈ mp.frames) :=
  inferInstanceAs (Decidable (_ ∧ _))

instance (s : SwapHistory) (pgn : Int) (bytes : Fin pagingPagesz → Byte) :
    Decidable (s.SecondCopyOf pgn bytes) :=
  inferInstanceAs (Decidable (_ ∧ _ = _))

instance (s : SwapHistory) (pgn : Int) : Decidable (s.CopiesRight pgn) :=
  inferInstanceAs (Decidable (∀ eviction ∈ _, _ ∧ ((_ ∨ ∃ home ∈ _, _ ∧ _) → _)))

/-- What requests keep that meet the condition. All that goes to swap comes from
RAM frame 0, whose bytes no request changes. -/
structure Settled (s : SwapHistory) : Prop where
  devices : s.caller.Devices
  nodup : s.caller.activeMswp.freeFpList.Nodup
  decodes : ∀ pgn, pagingFpn (s.caller.mm.pgd pgn) = 0
  listed : ∃ pages, s.caller.mm.lruPgn = .nodes pages ∧ pages.Nodup ∧
    (pages ≠ [] → 0 ∈ s.caller.mram.frames) ∧ ∀ home ∈ s.homes, home.1 ∉ pages
  absent : ∀ home ∈ s.homes, pagingPagePresent (s.caller.mm.pgd home.1) = false
  rooted : ∀ pgn, pagingPagePresent (s.caller.mm.pgd pgn) = true → 0 ∈ s.caller.mram.frames
  drained : s.homes ≠ [] → s.caller.mram.freeFpList = []
  issued : ∀ home ∈ s.homes, home.2 ∉ s.caller.activeMswp.freeFpList
  root : ∀ home ∈ s.homes, s.caller.activeMswp.bytes home.2 = s.caller.mram.bytes 0
  saved : ∀ home ∈ s.homes, s.caller.activeMswp.bytes home.2 = s.saved home.1

theorem mem_record_homes {s : SwapHistory} {pgn fpn : Int} {caller : Caller} {home : Int × Int} :
    home ∈ (s.record pgn fpn caller).homes ↔
      (s.evicts pgn = some home ∨ home ∈ s.homes) ∧ home.1 ≠ pgn := by
  simp only [record, List.mem_filter, List.mem_append, Option.mem_toList,
    decide_eq_true_eq]

private theorem evicts_of_present {s : SwapHistory} {pgn : Int}
    (h : pagingPagePresent (s.caller.mm.pgd pgn) = true) : s.evicts pgn = none :=
  if_pos (Or.inl h)

private theorem evicts_of_free {s : SwapHistory} {pgn : Int}
    (h : s.caller.mram.freeFpList ≠ []) : s.evicts pgn = none :=
  if_pos (Or.inr h)

/-- A request that evicts nothing: all bytes stay where they are. -/
private theorem Settled.quiet {s : SwapHistory} {pgn : Int} {pages rest : List Int} (h : s.Settled)
    (fpn : Int) (hEvicts : s.evicts pgn = none) (hLru : s.caller.mm.lruPgn = .nodes pages)
    (hAway : ∀ home ∈ s.homes, home.1 ≠ pgn) (hRam : 0 ∈ s.caller.mram.frames)
    (hRest : rest.Sublist s.caller.mram.freeFpList) :
    let t := s.record pgn fpn
      { s.caller.setLru (.nodes (pgn :: pages.erase pgn)) with
        mram := { s.caller.mram with freeFpList := rest } }
    PreservesContents s pgn t ∧ t.Settled := by
  intro t
  have hHomes : ∀ home ∈ t.homes, home ∈ s.homes ∧ home.1 ≠ pgn := by
    intro home hHome
    obtain ⟨hFrom, hNe⟩ := mem_record_homes.mp hHome
    exact ⟨hFrom.resolve_left (by simp [hEvicts]), hNe⟩
  have hSaved : t.saved = s.saved := by
    simp only [t, record, hEvicts]
  have hDevices := h.devices
  constructor
  · refine ⟨?_, ?_, ?_, fun _ _ _ _ => rfl, fun _ _ _ => rfl⟩
    · simp [hEvicts]
    · exact fun frame hHome => absurd rfl (hAway _ hHome)
    · exact fun frame hHome => absurd rfl (hAway _ hHome)
  · refine ⟨⟨hDevices.ramRandom, hDevices.swapRandom, hDevices.ramSize, hDevices.swapSize, ?_,
      hDevices.swapFree⟩, h.nodup, h.decodes, ?_, ?_, fun _ _ => hRam, ?_, ?_, ?_, ?_⟩
    · exact fun frame hFrame => hDevices.ramFree frame (hRest.subset hFrame)
    · obtain ⟨pages', hPages', hNodup, -, hUnlisted⟩ := h.listed
      obtain rfl : pages' = pages := PgnList.nodes.inj (hPages'.symm.trans hLru)
      refine ⟨_, rfl, nodup_enlist hNodup pgn, fun _ => hRam, ?_⟩
      intro home hHome hMem
      obtain ⟨hOld, hNe⟩ := hHomes home hHome
      rcases List.mem_cons.mp hMem with hSame | hLater
      · exact hNe hSame
      · exact hUnlisted home hOld (List.mem_of_mem_erase hLater)
    · exact fun home hHome => h.absent home (hHomes home hHome).1
    · intro hSome
      obtain ⟨home, hHome⟩ := List.exists_mem_of_ne_nil _ hSome
      have hNone := h.drained (List.ne_nil_of_mem (hHomes home hHome).1)
      rw [hNone] at hRest
      exact List.sublist_nil.mp hRest
    · exact fun home hHome => h.issued home (hHomes home hHome).1
    · exact fun home hHome => h.root home (hHomes home hHome).1
    · intro home hHome
      rw [hSaved]
      exact h.saved home (hHomes home hHome).1

/-! A request that evicts a page, from what its two copies do -/

section Replace

variable {s : SwapHistory} {pgn victim frame : Int} {caller : Caller}

/-- The victim's swap frame has got the bytes of RAM frame 0. -/
private theorem CopiesRight.copied (h : s.CopiesRight pgn)
    (hEvicts : s.evicts pgn = some (victim, frame))
    (hReplaces : Replaces s.caller (s.caller.mm.pgd pgn) frame caller) :
    caller.activeMswp.bytes frame = s.caller.mram.bytes 0 := by
  obtain ⟨-, hSecond⟩ := h (victim, frame) hEvicts
  by_cases hZero : frame = 0
  · obtain ⟨hThere, hBytes⟩ := hSecond (Or.inl hZero)
    rw [hZero, hReplaces.second hThere, hBytes]
  · exact hReplaces.evicted hZero

/-- These are the bytes of the victim. -/
private theorem CopiesRight.evicted (h : s.CopiesRight pgn)
    (hEvicts : s.evicts pgn = some (victim, frame))
    (hReplaces : Replaces s.caller (s.caller.mm.pgd pgn) frame caller) :
    caller.activeMswp.bytes frame = s.caller.mram.bytes (s.frameOf victim) :=
  (h.copied hEvicts hReplaces).trans (h (victim, frame) hEvicts).1

/-- The other swap frames that are in use have kept theirs. -/
private theorem Settled.kept (hSettled : s.Settled) (h : s.CopiesRight pgn)
    (hEvicts : s.evicts pgn = some (victim, frame))
    (hReplaces : Replaces s.caller (s.caller.mm.pgd pgn) frame caller) {home : Int × Int}
    (hHome : home ∈ s.homes) (hOther : home.1 ≠ pgn) (hNew : home.2 ≠ frame) :
    caller.activeMswp.bytes home.2 = s.caller.activeMswp.bytes home.2 := by
  by_cases hZero : home.2 = 0
  · obtain ⟨hThere, hBytes⟩ :=
      (h (victim, frame) hEvicts).2 (Or.inr ⟨home, hHome, hOther, hZero⟩)
    rw [hSettled.root home hHome, hZero, hReplaces.second hThere, hBytes]
  · exact hReplaces.kept home.2 hNew hZero

/-- The frame that is returned holds what the page has on swap. -/
private theorem Settled.back (hSettled : s.Settled)
    (hReplaces : Replaces s.caller (s.caller.mm.pgd pgn) frame caller) {swapFrame : Int}
    (hHome : (pgn, swapFrame) ∈ s.homes) :
    caller.mram.bytes ((s.record pgn 0 caller).frameOf pgn) =
      s.caller.activeMswp.bytes swapFrame := by
  simp only [record, Function.update_self, hReplaces.mram]
  exact (hSettled.root _ hHome).symm

private theorem Settled.preserves (hSettled : s.Settled) (h : s.CopiesRight pgn)
    (hEvicts : s.evicts pgn = some (victim, frame))
    (hReplaces : Replaces s.caller (s.caller.mm.pgd pgn) frame caller)
    (hNew : ∀ home ∈ s.homes, home.2 ≠ frame) :
    PreservesContents s pgn (s.record pgn 0 caller) := by
  constructor
  · intro other otherFrame hOther
    obtain ⟨rfl, rfl⟩ := Prod.mk.inj (Option.some.inj (hOther.symm.trans hEvicts))
    exact h.evicted hEvicts hReplaces
  · intro swapFrame hHome
    exact hSettled.back hReplaces hHome
  · intro swapFrame hHome
    rw [← hSettled.saved _ hHome]
    exact hSettled.back hReplaces hHome
  · intro other swapFrame hOther hHome
    exact hSettled.kept h hEvicts hReplaces hHome hOther (hNew _ hHome)
  · intro other _ _
    exact congrArg (fun mp => Memphy.bytes mp (s.frameOf other)) hReplaces.mram

/-- Where a page on swap has come from. -/
private theorem home_of_record (hEvicts : s.evicts pgn = some (victim, frame))
    (hVictim : ∀ home ∈ s.homes, home.1 ≠ victim) {home : Int × Int}
    (hHome : home ∈ (s.record pgn 0 caller).homes) :
    (home = (victim, frame) ∨ home ∈ s.homes ∧ home.1 ≠ victim) ∧ home.1 ≠ pgn := by
  obtain ⟨hFrom, hNe⟩ := mem_record_homes.mp hHome
  refine ⟨?_, hNe⟩
  rcases hFrom with hNew | hOld
  · exact Or.inl (Option.some.inj (hNew.symm.trans hEvicts))
  · exact Or.inr ⟨hOld, hVictim home hOld⟩

private theorem saved_of_record (h : s.Settled) (hCopies : s.CopiesRight pgn)
    (hEvicts : s.evicts pgn = some (victim, frame))
    (hReplaces : Replaces s.caller (s.caller.mm.pgd pgn) frame caller)
    (hNew : ∀ home ∈ s.homes, home.2 ≠ frame) (hVictim : ∀ home ∈ s.homes, home.1 ≠ victim)
    {home : Int × Int} (hHome : home ∈ (s.record pgn 0 caller).homes) :
    caller.activeMswp.bytes home.2 = (s.record pgn 0 caller).saved home.1 := by
  have hSaved : (s.record pgn 0 caller).saved =
      Function.update s.saved victim (s.caller.mram.bytes (s.frameOf victim)) := by
    simp only [record, hEvicts]
  obtain ⟨hFrom, hNe⟩ := home_of_record hEvicts hVictim hHome
  rw [hSaved]
  rcases hFrom with rfl | ⟨hOld, hOther⟩
  · rw [Function.update_self]
    exact hCopies.evicted hEvicts hReplaces
  · rw [Function.update_of_ne hOther, ← h.saved home hOld]
    exact h.kept hCopies hEvicts hReplaces hOld hNe (hNew home hOld)

/-- Every swap frame in use holds the bytes of RAM frame 0. -/
private theorem root_of_record (h : s.Settled) (hCopies : s.CopiesRight pgn)
    (hEvicts : s.evicts pgn = some (victim, frame))
    (hReplaces : Replaces s.caller (s.caller.mm.pgd pgn) frame caller)
    (hNew : ∀ home ∈ s.homes, home.2 ≠ frame) (hVictim : ∀ home ∈ s.homes, home.1 ≠ victim)
    {home : Int × Int} (hHome : home ∈ (s.record pgn 0 caller).homes) :
    caller.activeMswp.bytes home.2 = caller.mram.bytes 0 := by
  obtain ⟨hFrom, hNe⟩ := home_of_record hEvicts hVictim hHome
  rw [hReplaces.mram]
  rcases hFrom with rfl | ⟨hOld, -⟩
  · exact hCopies.copied hEvicts hReplaces
  · rw [h.kept hCopies hEvicts hReplaces hOld hNe (hNew home hOld)]
    exact h.root home hOld

variable {pages rest : List Int}

/-- A frame has been taken from the swap device. -/
private theorem Devices.replace (h : s.caller.Devices)
    (hSwap : s.caller.activeMswp.freeFpList = frame :: rest)
    (hMram : caller.mram = s.caller.mram)
    (hMswp : { s.caller.activeMswp with freeFpList := rest }.SameFrames caller.activeMswp) :
    caller.Devices := by
  constructor
  · exact hMram ▸ h.ramRandom
  · exact hMswp.rdmflg.trans h.swapRandom
  · exact hMram ▸ h.ramSize
  · exact hMswp.maxsz.trans_lt h.swapSize
  · exact hMram ▸ h.ramFree
  · intro fpn hFpn
    rw [hMswp.freeFpList] at hFpn
    rw [hMswp.frames]
    apply h.swapFree fpn
    rw [hSwap]
    exact List.mem_cons_of_mem _ hFpn

private theorem Settled.replace (h : s.Settled) (hCopies : s.CopiesRight pgn)
    (hFrame : s.caller.mram.freeFpList = [])
    (hLru : s.caller.mm.lruPgn = .nodes (pages ++ [victim]))
    (hSwap : s.caller.activeMswp.freeFpList = frame :: rest)
    (hEvicts : s.evicts pgn = some (victim, frame))
    (hMswp : { s.caller.activeMswp with freeFpList := rest }.SameFrames caller.activeMswp)
    (hPgd : caller.mm.pgd = Function.update
      (Function.update s.caller.mm.pgd victim (pteSwappedTo (s.caller.mm.pgd victim) frame)) pgn
      (pteSetFpn (s.caller.mm.pgd pgn) (pagingFpn (s.caller.mm.pgd victim))))
    (hList : caller.mm.lruPgn = .nodes (pgn :: pages.erase pgn))
    (hReplaces : Replaces s.caller (s.caller.mm.pgd pgn) frame caller) :
    PreservesContents s pgn (s.record pgn 0 caller) ∧ (s.record pgn 0 caller).Settled := by
  obtain ⟨pages', hPages', hNodup, hRam, hUnlisted⟩ := h.listed
  obtain rfl : pages' = pages ++ [victim] := PgnList.nodes.inj (hPages'.symm.trans hLru)
  have hMram : caller.mram = s.caller.mram := hReplaces.mram
  have hFree : caller.activeMswp.freeFpList = rest := hMswp.freeFpList
  have hNodupFree := h.nodup
  rw [hSwap, List.nodup_cons] at hNodupFree
  have hNew : ∀ home ∈ s.homes, home.2 ≠ frame := by
    intro home hHome hSame
    exact h.issued home hHome (by simp [hSwap, hSame])
  have hVictim : ∀ home ∈ s.homes, home.1 ≠ victim := by
    intro home hHome hSame
    exact hUnlisted home hHome (by simp [hSame])
  refine ⟨h.preserves hCopies hEvicts hReplaces hNew,
    Devices.replace h.devices hSwap hMram hMswp, hFree ▸ hNodupFree.2, fun other => ?_,
    ⟨pgn :: pages.erase pgn, hList, ?_, fun _ => hMram ▸ hRam (by simp), ?_⟩, fun home hHome => ?_,
    fun _ _ => hMram ▸ hRam (by simp), fun _ => hMram ▸ hFrame, fun home hHome => ?_,
    fun home hHome => root_of_record h hCopies hEvicts hReplaces hNew hVictim hHome,
    fun home hHome => saved_of_record h hCopies hEvicts hReplaces hNew hVictim hHome⟩
  · simp only [record, hPgd, Function.update_apply]
    split_ifs
    · rw [pagingFpn_pteSetFpn, h.decodes victim]
      rfl
    · rw [pteSwappedTo, pagingFpn_pteEvicted, cint]
      omega
    · exact h.decodes other
  · exact nodup_enlist (hNodup.sublist (List.sublist_append_left pages [victim])) pgn
  · intro home hHome hMem
    obtain ⟨hFrom, hNe⟩ := home_of_record hEvicts hVictim hHome
    have hPages : home.1 ∈ pages := by
      rcases List.mem_cons.mp hMem with hSame | hLater
      · exact absurd hSame hNe
      · exact List.mem_of_mem_erase hLater
    rcases hFrom with rfl | ⟨hOld, -⟩
    · exact (List.nodup_append.mp hNodup).2.2 _ hPages _ (by simp) rfl
    · exact hUnlisted home hOld (by simp [hPages])
  · obtain ⟨hFrom, hNe⟩ := home_of_record hEvicts hVictim hHome
    simp only [record, hPgd, Function.update_of_ne hNe]
    rcases hFrom with rfl | ⟨hOld, hOther⟩
    · rw [Function.update_self, pteSwappedTo, pagingPagePresent_pteEvicted]
    · rw [Function.update_of_ne hOther]
      exact h.absent home hOld
  · simp only [record, hFree]
    rcases (home_of_record hEvicts hVictim hHome).1 with rfl | ⟨hOld, -⟩
    · exact hNodupFree.1
    · intro hMem
      exact h.issued home hOld (by rw [hSwap]; exact List.mem_cons_of_mem _ hMem)

end Replace

/-- One request that meets the condition preserves contents, and what later
requests need. -/
theorem Settled.step {s t : SwapHistory} {pgn : Int} (h : s.Settled) (hCopies : s.CopiesRight pgn)
    (step : Step s pgn t) : PreservesContents s pgn t ∧ t.Settled := by
  obtain ⟨junk, hStep⟩ := step
  obtain ⟨⟨fpn, caller⟩, hOk, rfl⟩ := Option.map_eq_some_iff.mp hStep
  have hCall := Outcome.ok?_eq_some.mp hOk
  have hEnd := pgGetpage_cases junk pgn s.caller
  rw [hCall] at hEnd
  generalize hResult : (Outcome.ok fpn caller : Outcome Caller Int) = result at hEnd
  cases hEnd with
  | undefined | badPage | noVictim | noSwapFrame => simp at hResult
  | resident pages hPgn hPresent hLru =>
      obtain ⟨rfl, rfl⟩ := Outcome.ok.inj hResult
      have hAway : ∀ home ∈ s.homes, home.1 ≠ pgn := by
        rintro home hHome rfl
        exact absurd ((h.absent home hHome).symm.trans hPresent) (by decide)
      exact h.quiet _ (evicts_of_present hPresent) hLru hAway (h.rooted pgn hPresent)
        (List.Sublist.refl _)
  | freeFrame frame rest pages hPgn hPresent hFrame hLru =>
      obtain ⟨rfl, rfl⟩ := Outcome.ok.inj hResult
      have hSome : s.caller.mram.freeFpList ≠ [] := by simp [hFrame]
      have hAway : ∀ home ∈ s.homes, home.1 ≠ pgn := fun home hHome =>
        absurd (h.drained (List.ne_nil_of_mem hHome)) hSome
      have hRam : 0 ∈ s.caller.mram.frames := by
        obtain ⟨hLow, hHigh⟩ := h.devices.ramFree frame (by simp [hFrame])
        exact ⟨Int.le_refl 0, by omega⟩
      exact h.quiet _ (evicts_of_free hSome) hLru hAway hRam (by simp [hFrame])
  | replaced pages victim frame rest mram mswp hPgn hPresent hFrame hLru hPages hSwap _ _ hMswp =>
      obtain ⟨rfl, hCaller⟩ := Outcome.ok.inj hResult
      obtain ⟨pages', hPages', -, hRam, -⟩ := h.listed
      obtain rfl : pages' = pages ++ [victim] := PgnList.nodes.inj (hPages'.symm.trans hLru)
      have hEvicts : s.evicts pgn = some (victim, frame) := by
        simp [evicts, hPresent, hFrame, hLru, hSwap]
      subst hCaller
      exact h.replace hCopies hFrame hLru hSwap hEvicts hMswp rfl rfl
        (pgGetpage_bytes h.devices (h.decodes victim) (hRam (by simp))
          hPgn hPresent hFrame hLru hSwap
          hCall)

private theorem initMemphy_filled (bytes : Int → Byte) (maxSize randomflg : Int) :
    initMemphy { FreshMemphy.zero with storage := bytes } maxSize randomflg =
      { initMemphy .zero maxSize randomflg with storage := bytes } := by
  simp only [initMemphy, memphyFormat, FreshMemphy.zero]
  split_ifs <;> first | rfl | split <;> rfl

theorem settled_initial (ram swap : Int → Byte) {memramsz memswpsz : Int}
    (hRam : memramsz < 2147483648) (hSwap : memswpsz < 2147483648) :
    (initial ram swap memramsz memswpsz).Settled := by
  have hZero : ∀ pgn, (initial ram swap memramsz memswpsz).caller.mm.pgd pgn = 0#32 := fun _ => rfl
  have hFree : ∀ (bytes : Int → Byte) (size fpn : Int),
      fpn ∈ (initMemphy { FreshMemphy.zero with storage := bytes } size 1).freeFpList →
        fpn ∈ (initMemphy { FreshMemphy.zero with storage := bytes } size 1).frames := by
    intro bytes size fpn hFpn
    rw [initMemphy_filled] at hFpn ⊢
    exact mem_initMemphy_freeFpList.mp hFpn
  refine ⟨⟨by simp [initial], by simp [initial], by simp [initial, hRam], by simp [initial, hSwap],
    hFree ram memramsz, hFree swap memswpsz⟩, ?_, fun pgn => ?_, ?_, ?_, fun pgn hPresent => ?_, ?_,
    ?_, ?_, ?_⟩
  · show (initMemphy { FreshMemphy.zero with storage := swap } memswpsz 1).freeFpList.Nodup
    rw [initMemphy_filled]
    exact initMemphy_freeFpList_nodup memswpsz 1
  · rw [hZero]
    decide
  · exact ⟨[], rfl, List.nodup_nil, fun hSome => absurd rfl hSome, by simp [initial]⟩
  · simp [initial]
  · rw [hZero, pagingPagePresent_zero] at hPresent
    cases hPresent
  · simp [initial]
  · simp [initial]
  · simp [initial]
  · simp [initial]

/-- In every run whose requests meet the condition, each of them preserves the
contents of all pages, and a page that comes back holds what it held when it was
evicted. -/
theorem preservesContents_run {ram swap : Int → Byte} {memramsz memswpsz : Int}
    (hRam : memramsz < 2147483648) (hSwap : memswpsz < 2147483648) {pages : List Int}
    {s : SwapHistory}
    (run : Runs (Guarded Step CopiesRight) (initial ram swap memramsz memswpsz) pages s) :
    Runs (fun s pgn t => Step s pgn t ∧ PreservesContents s pgn t)
      (initial ram swap memramsz memswpsz) pages s := by
  refine (run.strengthen Settled (settled_initial ram swap hRam hSwap) ?_).1
  rintro s pgn t hSettled ⟨step, hCopies⟩
  obtain ⟨hPreserves, hNext⟩ := hSettled.step hCopies step
  exact ⟨⟨step, hPreserves⟩, hNext⟩

/-- Two frames of RAM with the same bytes, and four of swap: page 0 is evicted and
comes back, and page 1 is evicted for it. -/
theorem preservesContents_run_reload : ∃ s,
    Runs (fun s pgn t => Step s pgn t ∧ PreservesContents s pgn t)
      (initial (BitVec.ofInt 8) (fun _ => 0) 512 1024) [0, 1, 2, 0] s := by
  have hEval : (exec (fun s pgn => if CopiesRight s pgn then step 0 s pgn else none)
      (initial (BitVec.ofInt 8) (fun _ => 0) 512 1024) [0, 1, 2, 0]).isSome = true := by
    decide +kernel
  obtain ⟨s, hRun⟩ := Option.isSome_iff_exists.mp hEval
  refine ⟨s, preservesContents_run (by decide) (by decide) (Runs.of_exec hRun fun s pgn t h => ?_)⟩
  obtain ⟨hCopies, hStep⟩ := Option.ite_none_right_eq_some.mp h
  exact ⟨⟨0, hStep⟩, hCopies⟩

private theorem step_byte {s t : SwapHistory} {pgn : Int} (h : step 0 s pgn = some t) :
    Step s pgn t :=
  ⟨0, h⟩

/-- On two frames of RAM, bringing page 1 back overwrites what page 0 has on swap. -/
theorem reload_overwrites_swap : ∃ s t,
    Runs Step (initial (BitVec.ofInt 8) (fun _ => 0) 512 1024) [0, 1, 2, 3] s ∧
      Step s 1 t ∧ ¬ PreservesContents s 1 t := by
  have hEval : (exec (step 0) (initial (BitVec.ofInt 8) (fun _ => 0) 512 1024) [0, 1, 2, 3]).any
      (fun s => (step 0 s 1).any fun t => (0, 0) ∈ s.homes ∧
        t.caller.activeMswp.storage 1 ≠ s.caller.activeMswp.storage 1) = true := by decide +kernel
  obtain ⟨s, hRun, hInner⟩ := (Option.any_eq_true _ _).mp hEval
  obtain ⟨t, hStep, hState⟩ := (Option.any_eq_true _ _).mp hInner
  obtain ⟨hHome, hByte⟩ := of_decide_eq_true hState
  refine ⟨s, t, Runs.of_exec hRun fun _ _ _ h => step_byte h, step_byte hStep, fun h => hByte ?_⟩
  exact congrFun (h.swapped 0 0 (by decide) hHome) ⟨1, by decide⟩

/-- On 257 frames of RAM, page 0 is given frame 1, goes to swap with the bytes of
frame 0, and is brought back to frame 0. -/
theorem reload_loses_contents : ∃ s t,
    Runs Step (initial (fun addr => BitVec.ofInt 8 (addr / 256)) (fun _ => 0) 65792 1024)
        (1 :: (List.replicate 256 0 ++ [2, 3])) s ∧
      Step s 0 t ∧ (0, 1) ∈ s.homes ∧ t.caller.mram.bytes (t.frameOf 0) ≠ s.saved 0 := by
  have hEval : (exec (step 0)
      (initial (fun addr => BitVec.ofInt 8 (addr / 256)) (fun _ => 0) 65792 1024)
      (1 :: (List.replicate 256 0 ++ [2, 3]))).any
      (fun s => (step 0 s 0).any fun t => (0, 1) ∈ s.homes ∧
        t.caller.mram.storage (t.frameOf 0 * 256) ≠ s.saved 0 ⟨0, by decide⟩) = true := by
    decide +kernel
  obtain ⟨s, hRun, hInner⟩ := (Option.any_eq_true _ _).mp hEval
  obtain ⟨t, hStep, hState⟩ := (Option.any_eq_true _ _).mp hInner
  obtain ⟨hHome, hByte⟩ := of_decide_eq_true hState
  refine ⟨s, t, Runs.of_exec hRun fun _ _ _ h => step_byte h, step_byte hStep, hHome, fun h => ?_⟩
  apply hByte
  rw [← h]
  simp [Memphy.bytes]

end SwapHistory

end Btlos
