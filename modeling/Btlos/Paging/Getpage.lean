import Btlos.Paging.Memphy
import Btlos.Paging.Lru

/-! The memory of a process and `pg_getpage` of `mm-vm.c`, which makes a page
resident. The one area that `init_mm` links is a field of its own, since no
function links a second one. -/
namespace Btlos

structure VmRg where
  rgStart : Int
  rgEnd : Int
deriving DecidableEq

structure VmArea where
  vmId : Int
  vmStart : Int
  vmEnd : Int
  sbrk : Int
  vmFreergList : List VmRg

structure Mm where
  pgd : Int → BitVec 32
  mmap : VmArea
  symrgtbl : Int → VmRg
  lruPgn : PgnList

/-- The memory fields of a process control block. -/
structure Caller where
  mm : Mm
  mram : Memphy
  activeMswp : Memphy

def Caller.setLru (s : Caller) (lruPgn : PgnList) : Caller :=
  { s with mm := { s.mm with lruPgn := lruPgn } }

theorem Caller.setLru_self (s : Caller) {lruPgn : PgnList} (h : s.mm.lruPgn = lruPgn) :
    s.setLru lruPgn = s := by
  subst h
  rfl

def Caller.setPgd (s : Caller) (pgd : Int → BitVec 32) : Caller :=
  { s with mm := { s.mm with pgd := pgd } }

/-- `__swap_cp_page` from RAM to swap, the direction of both of its calls. -/
def Caller.copyOut (junk : Byte) (s : Caller) (srcfpn dstfpn : Int) : Outcome Caller Unit :=
  (swapCpPage junk s.mram srcfpn s.activeMswp dstfpn).lift fun devices =>
    { s with mram := devices.1, activeMswp := devices.2 }

/-- The replacement path of `pg_getpage`: the new entry of the requested page. -/
def pgReplace (junk : Byte) (pgn : Int) (pte : BitVec 32) (s : Caller) :
    Outcome Caller (BitVec 32) :=
  ((findVictimPage s.mm.lruPgn).lift s.setLru).bind fun vicpgn s =>
  let vicpte := s.mm.pgd vicpgn
  ((memphyGetFreefp s.activeMswp).lift fun mp => { s with activeMswp := mp }).bind
    fun mswpFreeFrame s =>
  let srcfpnOut := pagingFpn vicpte
  let dstfpnOut := mswpFreeFrame
  (s.copyOut junk srcfpnOut dstfpnOut).bind fun _ s =>
  let srcfpnIn := pagingSwp pte
  let dstfpnIn := pagingFpn vicpte
  -- the second copy is meant to bring the page in, but runs from RAM to swap again
  (s.copyOut junk srcfpnIn dstfpnIn).bind fun _ s =>
  let phyaddrSwp := cint (mswpFreeFrame * 2 ^ pagingAddrFpnLobit)
  let swptyp := 0
  let swpoff := phyaddrSwp
  let pte := setbit (pteSetFpn pte dstfpnIn) pagingPtePresentMask
  let vicpte := clrbit (pteSetSwap vicpte swptyp swpoff) pagingPtePresentMask
  .ok pte (s.setPgd (Function.update (Function.update s.mm.pgd vicpgn vicpte) pgn pte))

/-- The new entry of a page that is not present. The free-frame path keeps it in
a local variable and does not store it in the page table. -/
def pgMakePresent (junk : Byte) (pgn : Int) (pte : BitVec 32) (s : Caller) :
    Outcome Caller (BitVec 32) :=
  match memphyGetFreefp s.mram with
  | .ok freefpn mram => .ok (pteSetFpn pte freefpn) { s with mram := mram }
  | .fail _ => pgReplace junk pgn pte s
  | .undefined => .undefined

/-- `pg_getpage`. The value of a success is `*fpn`. -/
def pgGetpage (junk : Byte) (pgn : Int) (s : Caller) : Outcome Caller Int :=
  if pgn < 0 ∨ pgn ≥ pagingMaxPgn then .fail s
  else
    let pte := s.mm.pgd pgn
    (if pagingPagePresent pte then .ok pte s else pgMakePresent junk pgn pte s).bind fun pte s =>
    ((enlistPgnNode s.mm.lruPgn pgn).lift s.setLru).bind fun _ s =>
    .ok (pagingFpn pte) s

/-! Everything `pg_getpage` can do -/

/-- The entry a victim is left with when its page goes to swap frame `frame`. -/
def pteSwappedTo (vicpte : BitVec 32) (frame : Int) : BitVec 32 :=
  pteEvicted vicpte 0 (cint (frame * 256))

/-- The endings of `pg_getpage` from a state, each with the branch that leads to
it and the state it leaves. -/
inductive PgEnd (s : Caller) (pgn : Int) : Outcome Caller Int → Prop where
  | badPage (hPgn : pgn < 0 ∨ pgn ≥ pagingMaxPgn) : PgEnd s pgn (.fail s)
  | resident (pages : List Int) (hPgn : 0 ≤ pgn ∧ pgn < pagingMaxPgn)
      (hPresent : pagingPagePresent (s.mm.pgd pgn) = true) (hLru : s.mm.lruPgn = .nodes pages) :
      PgEnd s pgn (.ok (pagingFpn (s.mm.pgd pgn)) (s.setLru (.nodes (pgn :: pages.erase pgn))))
  | freeFrame (frame : Int) (rest pages : List Int) (hPgn : 0 ≤ pgn ∧ pgn < pagingMaxPgn)
      (hPresent : pagingPagePresent (s.mm.pgd pgn) = false)
      (hFrame : s.mram.freeFpList = frame :: rest) (hLru : s.mm.lruPgn = .nodes pages) :
      PgEnd s pgn (.ok (frame / 256 % 4)
        { s.setLru (.nodes (pgn :: pages.erase pgn)) with
          mram := { s.mram with freeFpList := rest } })
  | noVictim (hPgn : 0 ≤ pgn ∧ pgn < pagingMaxPgn)
      (hPresent : pagingPagePresent (s.mm.pgd pgn) = false)
      (hFrame : s.mram.freeFpList = []) (hLru : s.mm.lruPgn = .nodes []) : PgEnd s pgn (.fail s)
  | noSwapFrame (pages : List Int) (victim : Int)
      (hPgn : 0 ≤ pgn ∧ pgn < pagingMaxPgn)
      (hPresent : pagingPagePresent (s.mm.pgd pgn) = false)
      (hFrame : s.mram.freeFpList = []) (hLru : s.mm.lruPgn = .nodes (pages ++ [victim]))
      (hSwap : s.activeMswp.freeFpList = []) :
      PgEnd s pgn (.fail (s.setLru (if pages = [] then .freed else .nodes pages)))
  | replaced (pages : List Int) (victim frame : Int) (rest : List Int) (mram activeMswp : Memphy)
      (hPgn : 0 ≤ pgn ∧ pgn < pagingMaxPgn)
      (hPresent : pagingPagePresent (s.mm.pgd pgn) = false)
      (hFrame : s.mram.freeFpList = []) (hLru : s.mm.lruPgn = .nodes (pages ++ [victim]))
      (hPages : pages ≠ []) (hSwap : s.activeMswp.freeFpList = frame :: rest)
      (hRam : s.mram.SameFrames mram) (hStorage : mram.storage = s.mram.storage)
      (hMswp : { s.activeMswp with freeFpList := rest }.SameFrames activeMswp) :
      PgEnd s pgn (.ok 0
        { mm := { s.mm with
            pgd := Function.update
              (Function.update s.mm.pgd victim (pteSwappedTo (s.mm.pgd victim) frame)) pgn
              (pteSetFpn (s.mm.pgd pgn) (pagingFpn (s.mm.pgd victim)))
            lruPgn := .nodes (pgn :: pages.erase pgn) }
          mram := mram
          activeMswp := activeMswp })
  | undefined : PgEnd s pgn .undefined

/-- Setting the present bit again changes nothing. -/
theorem setbit_pteSetFpn (pte : BitVec 32) (fpn : Int) :
    setbit (pteSetFpn pte fpn) pagingPtePresentMask = pteSetFpn pte fpn := by
  have hBit := pagingPagePresent_pteSetFpn pte fpn
  rw [pagingPagePresent_eq] at hBit
  apply BitVec.eq_of_getLsbD_eq
  intro i _
  rw [pagingPtePresentMask, getLsbD_setbit (by decide)]
  by_cases hi : i = 31
  · subst hi
    simp [hBit]
  · simp [hi]

theorem copyOut_cases (junk : Byte) (s : Caller) (srcfpn dstfpn : Int) :
    s.copyOut junk srcfpn dstfpn = .undefined ∨
      ∃ value mram activeMswp, s.copyOut junk srcfpn dstfpn =
          .ok value { s with mram := mram, activeMswp := activeMswp } ∧
        CopyFrame (s.mram, s.activeMswp) (mram, activeMswp) := by
  unfold Caller.copyOut
  rcases swapCpPage_cases junk s.mram srcfpn s.activeMswp dstfpn with h |
    ⟨value, devices, h, hFrame⟩
  · exact Or.inl (by simp [h])
  · exact Or.inr ⟨value, devices.1, devices.2, by simp [h], hFrame⟩

/-- The endings of the replacement path, for a request that finds no free RAM
frame. -/
theorem pgReplace_cases (junk : Byte) (pgn : Int) (pte : BitVec 32) (s : Caller) :
    pgReplace junk pgn pte s = .undefined ∨
    (s.mm.lruPgn = .nodes [] ∧ pgReplace junk pgn pte s = .fail s) ∨
    ∃ pages victim, s.mm.lruPgn = .nodes (pages ++ [victim]) ∧
      let lruPgn := if pages = [] then .freed else .nodes pages
      (s.activeMswp.freeFpList = [] ∧ pgReplace junk pgn pte s = .fail (s.setLru lruPgn)) ∨
      ∃ frame rest mram activeMswp, s.activeMswp.freeFpList = frame :: rest ∧
        s.mram.SameFrames mram ∧ mram.storage = s.mram.storage ∧
        { s.activeMswp with freeFpList := rest }.SameFrames activeMswp ∧
        pgReplace junk pgn pte s =
          .ok (pteSetFpn pte (pagingFpn (s.mm.pgd victim)))
            { mm := { s.mm with
                pgd := Function.update
                  (Function.update s.mm.pgd victim (pteSwappedTo (s.mm.pgd victim) frame)) pgn
                  (pteSetFpn pte (pagingFpn (s.mm.pgd victim)))
                lruPgn := lruPgn }
              mram := mram
              activeMswp := activeMswp } := by
  cases hLru : s.mm.lruPgn with
  | freed => exact Or.inl (by simp [pgReplace, hLru])
  | nodes pages =>
      rcases List.eq_nil_or_concat pages with rfl | ⟨pages, victim, rfl⟩
      · refine Or.inr (Or.inl ⟨rfl, ?_⟩)
        simp only [pgReplace, hLru, findVictimPage_nil, Outcome.lift_fail, Outcome.bind_fail,
          s.setLru_self hLru]
      · rw [List.concat_eq_append] at hLru ⊢
        generalize hRest : (if pages = [] then PgnList.freed else .nodes pages) = lruPgn
        cases hSwap : s.activeMswp.freeFpList with
        | nil =>
            refine Or.inr (Or.inr ⟨pages, victim, rfl, Or.inl ⟨rfl, ?_⟩⟩)
            simp only [pgReplace, hLru, findVictimPage_concat, hRest, Outcome.lift_ok,
              Outcome.bind_ok, memphyGetFreefp, Caller.setLru, hSwap, Outcome.lift_fail,
              Outcome.bind_fail]
        | cons frame rest =>
            simp only [pgReplace, hLru, findVictimPage_concat, hRest, Outcome.lift_ok,
              Outcome.bind_ok, memphyGetFreefp, Caller.setLru, hSwap]
            rcases copyOut_cases junk _ _ _ with hOut | ⟨_, mram, mswp, hOut, hFirst⟩
            · exact Or.inl (by rw [hOut, Outcome.bind_undefined])
            rw [hOut, Outcome.bind_ok]
            rcases copyOut_cases junk _ _ _ with hIn | ⟨_, mram', mswp', hIn, hSecond⟩
            · exact Or.inl (by rw [hIn, Outcome.bind_undefined])
            have hLobit : (2 : Int) ^ pagingAddrFpnLobit = 256 := by decide
            rw [hIn, Outcome.bind_ok, setbit_pteSetFpn, hLobit]
            have hFrame := hFirst.trans hSecond
            refine Or.inr (Or.inr ⟨pages, victim, rfl, Or.inr
              ⟨frame, rest, mram', mswp', rfl, hFrame.1, hFrame.2.1, hFrame.2.2, ?_⟩⟩)
            rw [hRest]
            rfl

/-- Every call of `pg_getpage` ends in one of the ways of `PgEnd`. -/
theorem pgGetpage_cases (junk : Byte) (pgn : Int) (s : Caller) :
    PgEnd s pgn (pgGetpage junk pgn s) := by
  unfold pgGetpage
  split_ifs with hBad
  · exact .badPage hBad
  have hPgn : 0 ≤ pgn ∧ pgn < pagingMaxPgn := by omega
  cases hPresent : pagingPagePresent (s.mm.pgd pgn) with
  | true =>
    simp only [hPresent, if_true, Outcome.bind_ok]
    cases hLru : s.mm.lruPgn with
    | freed =>
        simp only [enlistPgnNode_freed, Outcome.lift_undefined, Outcome.bind_undefined]
        exact .undefined
    | nodes pages =>
        simp only [enlistPgnNode_nodes, Outcome.lift_ok, Outcome.bind_ok]
        exact .resident pages hPgn hPresent hLru
  | false =>
    simp only [hPresent, Bool.false_eq_true, if_false]
    cases hFrame : s.mram.freeFpList with
    | cons frame rest =>
        simp only [pgMakePresent, memphyGetFreefp, hFrame, Outcome.bind_ok]
        cases hLru : s.mm.lruPgn with
        | freed =>
            simp only [enlistPgnNode_freed, Outcome.lift_undefined, Outcome.bind_undefined]
            exact .undefined
        | nodes pages =>
            simp only [enlistPgnNode_nodes, Outcome.lift_ok, Outcome.bind_ok, pagingFpn_pteSetFpn]
            exact .freeFrame frame rest pages hPgn hPresent hFrame hLru
    | nil =>
        simp only [pgMakePresent, memphyGetFreefp, hFrame]
        rcases pgReplace_cases junk pgn (s.mm.pgd pgn) s with h | ⟨hLru, h⟩ |
          ⟨pages, victim, hLru, ⟨hSwap, h⟩ |
            ⟨frame, rest, mram, mswp, hSwap, hRam, hStorage, hMswp, h⟩⟩
        · rw [h]
          exact .undefined
        · rw [h]
          exact .noVictim hPgn hPresent hFrame hLru
        · rw [h]
          exact .noSwapFrame pages victim hPgn hPresent hFrame hLru hSwap
        · rw [h, Outcome.bind_ok]
          by_cases hPages : pages = []
          · simp only [hPages, if_pos, enlistPgnNode_freed, Outcome.lift_undefined,
              Outcome.bind_undefined]
            exact .undefined
          · have hZero :
              pagingFpn (pteSetFpn (s.mm.pgd pgn) (pagingFpn (s.mm.pgd victim))) = 0 := by
              have hBounds := pagingFpn_bounds (s.mm.pgd victim)
              rw [pagingFpn_pteSetFpn]
              omega
            simp only [hPages, if_false, enlistPgnNode_nodes, Outcome.lift_ok, Outcome.bind_ok,
              hZero]
            exact .replaced pages victim frame rest mram mswp hPgn hPresent hFrame hLru hPages hSwap
              hRam hStorage hMswp

/-- A page that is not present takes the first free frame. -/
theorem pgGetpage_freeFrame (junk : Byte) {pgn frame : Int} {rest pages : List Int} {s : Caller}
    (hPgn : 0 ≤ pgn ∧ pgn < pagingMaxPgn) (hPresent : pagingPagePresent (s.mm.pgd pgn) = false)
    (hFrame : s.mram.freeFpList = frame :: rest) (hLru : s.mm.lruPgn = .nodes pages) :
    pgGetpage junk pgn s = .ok (frame / 256 % 4)
      { s.setLru (.nodes (pgn :: pages.erase pgn)) with
        mram := { s.mram with freeFpList := rest } } := by
  have hGood : ¬ (pgn < 0 ∨ pgn ≥ pagingMaxPgn) := by omega
  simp only [pgGetpage, if_neg hGood, hPresent, Bool.false_eq_true, if_false, pgMakePresent,
    memphyGetFreefp, hFrame, Outcome.bind_ok, hLru, enlistPgnNode_nodes, Outcome.lift_ok,
    pagingFpn_pteSetFpn, Caller.setLru]

/-! Requests on random-access devices -/

/-- A copy always returns. -/
theorem copyOut_random (junk : Byte) (srcfpn dstfpn : Int) (s : Caller)
    (hRam : s.mram.rdmflg = true) (hSwap : s.activeMswp.rdmflg = true) :
    ∃ mram activeMswp, s.copyOut junk srcfpn dstfpn =
        .ok () { s with mram := mram, activeMswp := activeMswp } ∧
      s.mram.SameFrames mram ∧ s.activeMswp.SameFrames activeMswp := by
  rcases copyOut_cases junk s srcfpn dstfpn with hUndefined | ⟨_, mram, activeMswp, hOk, hFrame⟩
  · exfalso
    have hLoop := swapCpLoop_returns junk srcfpn dstfpn (s.mram, s.activeMswp)
      hRam hSwap pagingPagesz 0
    rw [Caller.copyOut, swapCpPage] at hUndefined
    cases hCall : swapCpLoop junk srcfpn dstfpn pagingPagesz 0 (s.mram, s.activeMswp) with
    | undefined => exact hLoop hCall
    | ok | fail => simp [hCall] at hUndefined
  · exact ⟨mram, activeMswp, hOk, hFrame.1, hFrame.2.2⟩

/-- A replacement hangs only on a head pointer to a freed node. -/
theorem pgReplace_returns (junk : Byte) (pgn : Int) (pte : BitVec 32) {s : Caller}
    {pages : List Int} (hRam : s.mram.rdmflg = true) (hSwap : s.activeMswp.rdmflg = true)
    (hLru : s.mm.lruPgn = .nodes pages) : pgReplace junk pgn pte s ≠ .undefined := by
  rcases List.eq_nil_or_concat pages with rfl | ⟨pages, victim, rfl⟩
  · simp [pgReplace, hLru]
  · rw [List.concat_eq_append] at hLru
    cases hFree : s.activeMswp.freeFpList with
    | nil =>
        simp [pgReplace, hLru, findVictimPage_concat, memphyGetFreefp, Caller.setLru, hFree]
    | cons frame rest =>
        simp only [pgReplace, hLru, findVictimPage_concat, Outcome.lift_ok, Outcome.bind_ok,
          memphyGetFreefp, Caller.setLru, hFree]
        obtain ⟨mram, mswp, hOut, hFrames, hFrames'⟩ := copyOut_random junk
          (pagingFpn (s.mm.pgd victim)) frame
          { s.setLru (if pages = [] then .freed else .nodes pages) with
            activeMswp := { s.activeMswp with freeFpList := rest } } hRam hSwap
        simp only [Caller.setLru] at hOut
        rw [hOut, Outcome.bind_ok]
        obtain ⟨mram', mswp', hIn, -⟩ := copyOut_random junk (pagingSwp pte)
          (pagingFpn (s.mm.pgd victim))
          { s.setLru (if pages = [] then .freed else .nodes pages) with
            mram := mram, activeMswp := mswp }
          (hFrames.rdmflg.trans hRam) (hFrames'.rdmflg.trans hSwap)
        simp only [Caller.setLru] at hIn
        rw [hIn, Outcome.bind_ok]
        simp

/-- A request hangs only on a head pointer to a freed node, or when it frees the
last node of the list itself. -/
theorem pgGetpage_returns (junk : Byte) (pgn : Int) {s : Caller} {pages : List Int}
    (hRam : s.mram.rdmflg = true) (hSwap : s.activeMswp.rdmflg = true)
    (hLru : s.mm.lruPgn = .nodes pages)
    (hKept : pagingPagePresent (s.mm.pgd pgn) = true ∨ s.mram.freeFpList ≠ [] ∨
      s.activeMswp.freeFpList = [] ∨ pages.length ≠ 1) : pgGetpage junk pgn s ≠ .undefined := by
  unfold pgGetpage
  split_ifs with hBad
  · simp
  cases hPresent : pagingPagePresent (s.mm.pgd pgn) with
  | true => simp [hPresent, hLru, enlistPgnNode_nodes]
  | false =>
      simp only [hPresent, Bool.false_eq_true, if_false]
      cases hFrame : s.mram.freeFpList with
      | cons frame rest => simp [pgMakePresent, memphyGetFreefp, hFrame, hLru, enlistPgnNode_nodes]
      | nil =>
          simp only [pgMakePresent, memphyGetFreefp, hFrame]
          rcases (pgReplace_cases junk pgn (s.mm.pgd pgn) s).resolve_left
            (pgReplace_returns junk pgn _ hRam hSwap hLru) with ⟨-, hCall⟩ |
              ⟨pages', victim, hLru', ⟨-, hCall⟩ | ⟨frame, rest, mram, mswp, hFree, -, -, -, hCall⟩⟩
          · simp [hCall]
          · simp [hCall]
          · obtain rfl : pages = pages' ++ [victim] := PgnList.nodes.inj (hLru.symm.trans hLru')
            have hPages : pages' ≠ [] := by
              rintro rfl
              simp [hPresent, hFrame, hFree] at hKept
            simp [hCall, hPages, enlistPgnNode_nodes]

end Btlos
