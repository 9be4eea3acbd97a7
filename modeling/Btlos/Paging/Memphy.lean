import Btlos.Paging.Pte
import Btlos.Library.Outcome

/-! Physical memory devices: `mm-memphy.c`, and the page copy of `mm.c`. A free
frame list is kept as the list of its frame numbers. Pointers to devices are
never NULL in the program, so those tests are left out, and so is
`used_fp_list`, which nothing reads. -/
namespace Btlos

/-- `BYTE`. -/
abbrev Byte := BitVec 8

structure Memphy where
  storage : Int → Byte
  maxsz : Int
  rdmflg : Bool
  cursor : Int
  freeFpList : List Int

/-- What a device finds in memory nobody has written: the storage, its own
fields, and the link of a frame node. -/
structure FreshMemphy where
  storage : Int → Byte
  cursor : Int
  freeFpList : List Int
  fpNext : List Int

/-- Zero-filled memory. All pointers in it are NULL. -/
def FreshMemphy.zero : FreshMemphy := ⟨fun _ => 0#8, 0, [], []⟩

/-- The traversal of `MEMPHY_mv_csr` from step `numstep` on. -/
def mvCsrLoop (maxsz offset numstep cursor : Int) : Int :=
  if numstep < offset ∧ numstep < maxsz then
    mvCsrLoop maxsz offset (numstep + 1) ((cursor + 1) % maxsz)
  else cursor
termination_by (offset - numstep).toNat

def memphyMvCsr (mp : Memphy) (offset : Int) : Memphy :=
  { mp with cursor := mvCsrLoop mp.maxsz offset 0 0 }

/-- Sequential read. Nothing checks the address, so one outside the storage
leaves the behaviour undefined. -/
def memphySeqRead (mp : Memphy) (addr : Int) : Outcome Memphy Byte :=
  if mp.rdmflg then .fail mp
  else if 0 ≤ addr ∧ addr < mp.maxsz then .ok (mp.storage addr) (memphyMvCsr mp addr)
  else .undefined

def memphyRead (mp : Memphy) (addr : Int) : Outcome Memphy Byte :=
  if mp.rdmflg then
    if addr < 0 ∨ addr ≥ mp.maxsz then .fail mp else .ok (mp.storage addr) mp
  else memphySeqRead mp addr

def memphySeqWrite (mp : Memphy) (addr : Int) (value : Byte) : Outcome Memphy Unit :=
  if mp.rdmflg then .fail mp
  else if 0 ≤ addr ∧ addr < mp.maxsz then
    .ok () { memphyMvCsr mp addr with storage := Function.update mp.storage addr value }
  else .undefined

def memphyWrite (mp : Memphy) (addr : Int) (data : Byte) : Outcome Memphy Unit :=
  if addr < 0 ∨ addr ≥ mp.maxsz then .fail mp
  else if mp.rdmflg then
    if addr < 0 ∨ addr ≥ mp.maxsz then .fail mp
    else .ok () { mp with storage := Function.update mp.storage addr data }
  else memphySeqWrite mp addr data

/-- The nodes that the loop of `MEMPHY_format` links behind the first one. -/
def formatNodes (iter : Int) : Nat → List Int
  | 0 => []
  | n + 1 => iter :: formatNodes (iter + 1) n

/-- The first node keeps the link it was allocated with until a second one is
linked behind it. -/
def memphyFormat (fresh : FreshMemphy) (mp : Memphy) (pagesz : Int) : Int × Memphy :=
  let numfp := mp.maxsz.tdiv pagesz
  if numfp ≤ 0 then (-1, mp)
  else
    match (numfp - 1).toNat with
    | 0 => (0, { mp with freeFpList := 0 :: fresh.fpNext })
    | n + 1 => (0, { mp with freeFpList := 0 :: formatNodes 1 (n + 1) })

def initMemphy (fresh : FreshMemphy) (maxSize : Int) (randomflg : Int) : Memphy :=
  let mp : Memphy :=
    { storage := fresh.storage, maxsz := maxSize, rdmflg := false, cursor := fresh.cursor,
      freeFpList := fresh.freeFpList }
  let mp := (memphyFormat fresh mp pagingPagesz).2
  let mp := { mp with rdmflg := randomflg != 0 }
  if mp.rdmflg then mp else { mp with cursor := 0 }

def memphyGetFreefp (mp : Memphy) : Outcome Memphy Int :=
  match mp.freeFpList with
  | [] => .fail mp
  | fpn :: rest => .ok fpn { mp with freeFpList := rest }

def memphyPutFreefp (mp : Memphy) (fpn : Int) : Memphy :=
  { mp with freeFpList := fpn :: mp.freeFpList }

/-- One round of the loop of `__swap_cp_page`. Both return codes are ignored,
and a byte that could not be read is whatever `data` happens to hold. -/
def swapCpCell (junk : Byte) (srcfpn dstfpn cellidx : Int) (devices : Memphy × Memphy) :
    Outcome (Memphy × Memphy) Unit :=
  let addrsrc := cint (srcfpn * pagingPagesz + cellidx)
  let addrdst := cint (dstfpn * pagingPagesz + cellidx)
  (((memphyRead devices.1 addrsrc).ignoreCode junk).lift fun mpsrc => (mpsrc, devices.2)).bind
    fun data devices =>
      ((memphyWrite devices.2 addrdst data).ignoreCode ()).lift fun mpdst => (devices.1, mpdst)

def swapCpLoop (junk : Byte) (srcfpn dstfpn : Int) :
    Nat → Int → Memphy × Memphy → Outcome (Memphy × Memphy) Unit
  | 0, _, devices => .ok () devices
  | n + 1, cellidx, devices =>
      (swapCpCell junk srcfpn dstfpn cellidx devices).bind fun _ devices =>
        swapCpLoop junk srcfpn dstfpn n (cellidx + 1) devices

/-- `__swap_cp_page` on two different devices. -/
def swapCpPage (junk : Byte) (mpsrc : Memphy) (srcfpn : Int) (mpdst : Memphy) (dstfpn : Int) :
    Outcome (Memphy × Memphy) Unit :=
  swapCpLoop junk srcfpn dstfpn pagingPagesz 0 (mpsrc, mpdst)

/-! The frames of a device -/

/-- The number of whole frames a device has. -/
def Memphy.numfp (mp : Memphy) : Int := mp.maxsz.tdiv pagingPagesz

/-- The frame numbers of a device. -/
def Memphy.frames (mp : Memphy) : Set Int := {fpn | 0 ≤ fpn ∧ fpn < mp.numfp}

theorem mem_formatNodes {fpn iter : Int} {n : Nat} :
    fpn ∈ formatNodes iter n ↔ iter ≤ fpn ∧ fpn < iter + n := by
  induction n generalizing iter with
  | zero => simp [formatNodes]
  | succ n ih =>
      rw [formatNodes, List.mem_cons, ih]
      omega

theorem formatNodes_nodup (iter : Int) (n : Nat) : (formatNodes iter n).Nodup := by
  induction n generalizing iter with
  | zero => simp [formatNodes]
  | succ n ih =>
      rw [formatNodes, List.nodup_cons, mem_formatNodes]
      exact ⟨by omega, ih _⟩

theorem formatNodes_length (iter : Int) (n : Nat) : (formatNodes iter n).length = n := by
  induction n generalizing iter with
  | zero => rfl
  | succ n ih => rw [formatNodes, List.length_cons, ih]

/-- The free list of a new device. On memory that is not zero-filled, one without a
second node goes on with what was there. -/
theorem initMemphy_freeFpList_fresh (fresh : FreshMemphy) (maxSize randomflg : Int) :
    (initMemphy fresh maxSize randomflg).freeFpList =
      match (maxSize.tdiv pagingPagesz).toNat with
      | 0 => fresh.freeFpList
      | 1 => 0 :: fresh.fpNext
      | n + 2 => formatNodes 0 (n + 2) := by
  have hFormat : ∀ mp : Memphy, (memphyFormat fresh mp pagingPagesz).2.freeFpList =
      match (mp.maxsz.tdiv pagingPagesz).toNat with
      | 0 => mp.freeFpList
      | 1 => 0 :: fresh.fpNext
      | n + 2 => formatNodes 0 (n + 2) := by
    intro mp
    simp only [memphyFormat]
    split_ifs with hNone
    · rw [Int.toNat_of_nonpos hNone]
    · have hSucc : (mp.maxsz.tdiv pagingPagesz).toNat =
          (mp.maxsz.tdiv pagingPagesz - 1).toNat + 1 := by omega
      rw [hSucc]
      cases (mp.maxsz.tdiv pagingPagesz - 1).toNat with
      | zero => rfl
      | succ n => rfl
  have hMp := hFormat
    { storage := fresh.storage, maxsz := maxSize, rdmflg := false, cursor := fresh.cursor,
      freeFpList := fresh.freeFpList }
  simp only [initMemphy]
  split_ifs <;> exact hMp

/-- On zero-filled memory the free list of a new device numbers its frames. -/
theorem initMemphy_freeFpList (maxSize randomflg : Int) :
    (initMemphy .zero maxSize randomflg).freeFpList =
      formatNodes 0 (maxSize.tdiv pagingPagesz).toNat := by
  rw [initMemphy_freeFpList_fresh]
  split
  · rename_i hNone
    rw [hNone]
    rfl
  · rename_i hOne
    rw [hOne]
    rfl
  · rename_i hMore
    rw [hMore]

@[simp] theorem memphyFormat_maxsz (fresh : FreshMemphy) (mp : Memphy) (pagesz : Int) :
    (memphyFormat fresh mp pagesz).2.maxsz = mp.maxsz := by
  simp only [memphyFormat]
  split_ifs
  · rfl
  · split <;> rfl

@[simp] theorem initMemphy_maxsz (fresh : FreshMemphy) (maxSize randomflg : Int) :
    (initMemphy fresh maxSize randomflg).maxsz = maxSize := by
  simp only [initMemphy]
  split_ifs <;> simp

@[simp] theorem initMemphy_rdmflg (fresh : FreshMemphy) (maxSize randomflg : Int) :
    (initMemphy fresh maxSize randomflg).rdmflg = (randomflg != 0) := by
  simp only [initMemphy]
  split_ifs <;> rfl

@[simp] theorem memphyFormat_storage (fresh : FreshMemphy) (mp : Memphy) (pagesz : Int) :
    (memphyFormat fresh mp pagesz).2.storage = mp.storage := by
  simp only [memphyFormat]
  split_ifs
  · rfl
  · split <;> rfl

@[simp] theorem initMemphy_storage (fresh : FreshMemphy) (maxSize randomflg : Int) :
    (initMemphy fresh maxSize randomflg).storage = fresh.storage := by
  simp only [initMemphy]
  split_ifs <;> simp

theorem mem_initMemphy_freeFpList {maxSize randomflg fpn : Int} :
    fpn ∈ (initMemphy .zero maxSize randomflg).freeFpList ↔
      fpn ∈ (initMemphy .zero maxSize randomflg).frames := by
  rw [initMemphy_freeFpList, mem_formatNodes]
  simp only [Memphy.frames, Memphy.numfp, initMemphy_maxsz, Set.mem_ofPred_eq]
  omega

theorem initMemphy_freeFpList_nodup (maxSize randomflg : Int) :
    (initMemphy .zero maxSize randomflg).freeFpList.Nodup := by
  rw [initMemphy_freeFpList]
  exact formatNodes_nodup _ _

/-- A new device gives frame 0 first, and counts every frame once. -/
theorem initMemphy_freeFpList_cons {maxSize randomflg frame : Int} {rest : List Int}
    (h : (initMemphy .zero maxSize randomflg).freeFpList = frame :: rest) :
    frame = 0 ∧ 0 ∉ rest ∧
      (rest.length : Int) + 1 = (initMemphy .zero maxSize randomflg).numfp := by
  have hNodup := initMemphy_freeFpList_nodup maxSize randomflg
  rw [h, List.nodup_cons] at hNodup
  rw [initMemphy_freeFpList] at h
  have hLength := congrArg List.length h
  rw [formatNodes_length, List.length_cons] at hLength
  rw [hLength, formatNodes] at h
  obtain ⟨rfl, -⟩ := List.cons.inj h
  refine ⟨rfl, hNodup.1, ?_⟩
  rw [Memphy.numfp, initMemphy_maxsz]
  omega

/-! Accesses inside and outside a device -/

/-- The device has a byte at this address. -/
def Memphy.Has (mp : Memphy) (addr : Int) : Prop := 0 ≤ addr ∧ addr < mp.maxsz

instance (mp : Memphy) (addr : Int) : Decidable (mp.Has addr) :=
  inferInstanceAs (Decidable (_ ∧ _))

/-- The device after an access: a sequential one has moved its cursor. -/
def Memphy.accessed (mp : Memphy) (addr : Int) : Memphy :=
  if mp.rdmflg then mp else memphyMvCsr mp addr

@[simp] theorem Memphy.accessed_storage (mp : Memphy) (addr : Int) :
    (mp.accessed addr).storage = mp.storage := by
  rw [Memphy.accessed]
  split_ifs <;> rfl

@[simp] theorem Memphy.accessed_maxsz (mp : Memphy) (addr : Int) :
    (mp.accessed addr).maxsz = mp.maxsz := by
  rw [Memphy.accessed]
  split_ifs <;> rfl

@[simp] theorem Memphy.accessed_rdmflg (mp : Memphy) (addr : Int) :
    (mp.accessed addr).rdmflg = mp.rdmflg := by
  rw [Memphy.accessed]
  split_ifs <;> rfl

@[simp] theorem Memphy.accessed_freeFpList (mp : Memphy) (addr : Int) :
    (mp.accessed addr).freeFpList = mp.freeFpList := by
  rw [Memphy.accessed]
  split_ifs <;> rfl

section Access

variable {mp : Memphy} {addr : Int}

/-- Both kinds of device give the stored byte. -/
theorem memphyRead_inside (h : mp.Has addr) :
    memphyRead mp addr = .ok (mp.storage addr) (mp.accessed addr) := by
  rw [Memphy.Has] at h
  have hIn : ¬ (addr < 0 ∨ addr ≥ mp.maxsz) := by omega
  rw [memphyRead, memphySeqRead, Memphy.accessed, if_neg hIn, if_pos h]
  split_ifs <;> rfl

/-- Only the random-access device refuses the others. -/
theorem memphyRead_outside (h : ¬ mp.Has addr) :
    memphyRead mp addr = if mp.rdmflg then .fail mp else .undefined := by
  rw [Memphy.Has] at h
  have hOut : addr < 0 ∨ addr ≥ mp.maxsz := by omega
  rw [memphyRead, memphySeqRead, if_pos hOut, if_neg h]
  split_ifs <;> rfl

theorem memphyWrite_inside (h : mp.Has addr) (data : Byte) :
    memphyWrite mp addr data =
      .ok () { mp.accessed addr with storage := Function.update mp.storage addr data } := by
  rw [Memphy.Has] at h
  have hIn : ¬ (addr < 0 ∨ addr ≥ mp.maxsz) := by omega
  rw [memphyWrite, memphySeqWrite, Memphy.accessed, if_neg hIn, if_neg hIn, if_pos h]
  split_ifs <;> rfl

theorem memphyWrite_outside (h : ¬ mp.Has addr) (data : Byte) :
    memphyWrite mp addr data = .fail mp := by
  rw [Memphy.Has] at h
  rw [memphyWrite, if_pos (by omega)]

/-- A write always returns. -/
theorem memphyWrite_returns (mp : Memphy) (addr : Int) (data : Byte) :
    memphyWrite mp addr data ≠ .undefined := by
  by_cases h : mp.Has addr
  · simp [memphyWrite_inside h]
  · simp [memphyWrite_outside h]

/-- A read hangs only on a sequential device. -/
theorem memphyRead_returns (hRandom : mp.rdmflg = true) (addr : Int) :
    memphyRead mp addr ≠ .undefined := by
  by_cases h : mp.Has addr
  · simp [memphyRead_inside h]
  · simp [memphyRead_outside h, hRandom]

end Access

/-! What page copies leave alone -/

/-- The same device with the same free frames; storage and cursor may differ. -/
structure Memphy.SameFrames (mp mp' : Memphy) : Prop where
  freeFpList : mp'.freeFpList = mp.freeFpList
  maxsz : mp'.maxsz = mp.maxsz
  rdmflg : mp'.rdmflg = mp.rdmflg

theorem Memphy.SameFrames.rfl {mp : Memphy} : mp.SameFrames mp := ⟨by rfl, by rfl, by rfl⟩

theorem Memphy.SameFrames.trans {first second third : Memphy} (h : first.SameFrames second)
    (h' : second.SameFrames third) : first.SameFrames third :=
  ⟨h'.freeFpList.trans h.freeFpList, h'.maxsz.trans h.maxsz, h'.rdmflg.trans h.rdmflg⟩

theorem Memphy.SameFrames.numfp {mp mp' : Memphy} (h : mp.SameFrames mp') :
    mp'.numfp = mp.numfp := by
  rw [Memphy.numfp, h.maxsz, Memphy.numfp]

theorem Memphy.SameFrames.frames {mp mp' : Memphy} (h : mp.SameFrames mp') :
    mp'.frames = mp.frames := by
  rw [Memphy.frames, h.numfp, Memphy.frames]

theorem Memphy.SameFrames.has {mp mp' : Memphy} (h : mp.SameFrames mp') {addr : Int}
    (hHas : mp.Has addr) : mp'.Has addr := by
  rwa [Memphy.Has, h.maxsz]

theorem Memphy.SameFrames.store {mp mp' : Memphy} (h : mp.SameFrames mp')
    (storage : Int → Byte) : mp.SameFrames { mp' with storage := storage } :=
  ⟨h.freeFpList, h.maxsz, h.rdmflg⟩

theorem Memphy.sameFrames_accessed (mp : Memphy) (addr : Int) :
    mp.SameFrames (mp.accessed addr) :=
  ⟨mp.accessed_freeFpList addr, mp.accessed_maxsz addr, mp.accessed_rdmflg addr⟩

theorem memphyRead_ends (mp : Memphy) (addr : Int) :
    (memphyRead mp addr).Ends fun mp' => mp.SameFrames mp' ∧ mp'.storage = mp.storage := by
  by_cases h : mp.Has addr
  · rw [memphyRead_inside h]
    exact ⟨mp.sameFrames_accessed addr, mp.accessed_storage addr⟩
  · rw [memphyRead_outside h]
    split_ifs
    · exact ⟨.rfl, rfl⟩
    · trivial

theorem memphyWrite_ends (mp : Memphy) (addr : Int) (data : Byte) :
    (memphyWrite mp addr data).Ends mp.SameFrames := by
  by_cases h : mp.Has addr
  · rw [memphyWrite_inside h]
    exact (mp.sameFrames_accessed addr).store _
  · rw [memphyWrite_outside h]
    exact .rfl

/-- A successful read gives the stored byte, on either kind of device. -/
theorem memphyRead_ok {mp mp' : Memphy} {addr : Int} {value : Byte}
    (h : memphyRead mp addr = .ok value mp') :
    value = mp.storage addr ∧ mp.SameFrames mp' ∧ mp'.storage = mp.storage := by
  have hEnds := memphyRead_ends mp addr
  rw [h] at hEnds
  refine ⟨?_, hEnds⟩
  by_cases hHas : mp.Has addr
  · rw [memphyRead_inside hHas] at h
    exact (Outcome.ok.inj h).1.symm
  · rw [memphyRead_outside hHas] at h
    split_ifs at h

/-- A successful write changes the byte at its address and no other. -/
theorem memphyWrite_ok {mp mp' : Memphy} {addr : Int} {data : Byte} {value : Unit}
    (h : memphyWrite mp addr data = .ok value mp') :
    mp'.storage = Function.update mp.storage addr data ∧ mp.SameFrames mp' := by
  have hEnds := memphyWrite_ends mp addr data
  rw [h] at hEnds
  refine ⟨?_, hEnds⟩
  by_cases hHas : mp.Has addr
  · rw [memphyWrite_inside hHas] at h
    obtain ⟨-, rfl⟩ := Outcome.ok.inj h
    rfl
  · simp [memphyWrite_outside hHas] at h

/-- A copy step changes no free list and nothing that is stored on its source. -/
def CopyFrame (before after : Memphy × Memphy) : Prop :=
  before.1.SameFrames after.1 ∧ after.1.storage = before.1.storage ∧
    before.2.SameFrames after.2

theorem CopyFrame.refl (devices : Memphy × Memphy) : CopyFrame devices devices :=
  ⟨.rfl, rfl, .rfl⟩

theorem CopyFrame.trans {first second third : Memphy × Memphy} (h : CopyFrame first second)
    (h' : CopyFrame second third) : CopyFrame first third :=
  ⟨h.1.trans h'.1, h'.2.1.trans h.2.1, h.2.2.trans h'.2.2⟩

theorem swapCpCell_ends (junk : Byte) (srcfpn dstfpn cellidx : Int) (devices : Memphy × Memphy) :
    (swapCpCell junk srcfpn dstfpn cellidx devices).Ends (CopyFrame devices) := by
  have hRead := memphyRead_ends devices.1 (cint (srcfpn * pagingPagesz + cellidx))
  refine Outcome.Ends.bind (Outcome.Ends.lift (hRead.ignoreCode.mono fun mpsrc h => ?_)) ?_
  · exact ⟨h.1, h.2, .rfl⟩
  · intro data middle hMiddle
    have hWrite := memphyWrite_ends middle.2 (cint (dstfpn * pagingPagesz + cellidx)) data
    exact Outcome.Ends.lift (hWrite.ignoreCode.mono fun mpdst h =>
      hMiddle.trans ⟨.rfl, rfl, h⟩)

theorem swapCpCell_neverFails (junk : Byte) (srcfpn dstfpn cellidx : Int)
    (devices : Memphy × Memphy) :
    (swapCpCell junk srcfpn dstfpn cellidx devices).NeverFails :=
  (Outcome.neverFails_ignoreCode _ _).lift.bind fun _ _ =>
    (Outcome.neverFails_ignoreCode _ _).lift

theorem swapCpLoop_ends (junk : Byte) (srcfpn dstfpn : Int) (n : Nat) (cellidx : Int)
    (devices : Memphy × Memphy) :
    (swapCpLoop junk srcfpn dstfpn n cellidx devices).Ends (CopyFrame devices) := by
  induction n generalizing cellidx devices with
  | zero => exact CopyFrame.refl devices
  | succ n ih =>
      rw [swapCpLoop]
      apply (swapCpCell_ends junk srcfpn dstfpn cellidx devices).bind
      intro _ middle hMiddle
      exact (ih (cellidx + 1) middle).mono fun after hAfter => hMiddle.trans hAfter

theorem swapCpLoop_neverFails (junk : Byte) (srcfpn dstfpn : Int) (n : Nat) (cellidx : Int)
    (devices : Memphy × Memphy) :
    (swapCpLoop junk srcfpn dstfpn n cellidx devices).NeverFails := by
  induction n generalizing cellidx devices with
  | zero => simp [swapCpLoop, Outcome.NeverFails]
  | succ n ih =>
      rw [swapCpLoop]
      exact (swapCpCell_neverFails junk srcfpn dstfpn cellidx devices).bind fun _ middle =>
        ih (cellidx + 1) middle

/-- A page copy returns 0, unless it runs off a sequential device. -/
theorem swapCpPage_cases (junk : Byte) (mpsrc : Memphy) (srcfpn : Int) (mpdst : Memphy)
    (dstfpn : Int) :
    swapCpPage junk mpsrc srcfpn mpdst dstfpn = .undefined ∨
      ∃ value devices, swapCpPage junk mpsrc srcfpn mpdst dstfpn = .ok value devices ∧
        CopyFrame (mpsrc, mpdst) devices :=
  (swapCpLoop_neverFails junk srcfpn dstfpn pagingPagesz 0 (mpsrc, mpdst)).cases
    (swapCpLoop_ends junk srcfpn dstfpn pagingPagesz 0 (mpsrc, mpdst))

/-! Copies between random-access devices always return -/

section Copy

variable (junk : Byte) (srcfpn dstfpn : Int)

theorem swapCpLoop_returns (devices : Memphy × Memphy) (hSrc : devices.1.rdmflg = true)
    (hDst : devices.2.rdmflg = true) (n : Nat) (cellidx : Int) :
    swapCpLoop junk srcfpn dstfpn n cellidx devices ≠ .undefined := by
  induction n generalizing cellidx devices with
  | zero => simp [swapCpLoop]
  | succ n ih =>
      have hEnds := swapCpCell_ends junk srcfpn dstfpn cellidx devices
      have hCell : swapCpCell junk srcfpn dstfpn cellidx devices ≠ .undefined := by
        rw [swapCpCell]
        cases hRead : memphyRead devices.1 (cint (srcfpn * pagingPagesz + cellidx)) with
        | undefined => exact absurd hRead (memphyRead_returns hSrc _)
        | ok data mpsrc | fail mpsrc =>
            simp only [Outcome.ignoreCode_ok, Outcome.ignoreCode_fail, Outcome.lift_ok,
              Outcome.bind_ok]
            cases hWrite : memphyWrite devices.2 (cint (dstfpn * pagingPagesz + cellidx)) _ with
            | undefined => exact absurd hWrite (memphyWrite_returns _ _ _)
            | ok | fail => simp
      rw [swapCpLoop]
      cases hCall : swapCpCell junk srcfpn dstfpn cellidx devices with
      | undefined => exact absurd hCall hCell
      | fail middle => simp
      | ok value middle =>
          rw [hCall] at hEnds
          exact ih _ (hEnds.1.rdmflg.trans hSrc) (hEnds.2.2.rdmflg.trans hDst) _

end Copy

end Btlos
