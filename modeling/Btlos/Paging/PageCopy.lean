import Btlos.Paging.Memphy

/-! `__swap_cp_page` of `mm.c` between any two frames: of two devices of either kind, or
of one. A device is known by its name, for the pointer that is passed. -/
namespace Btlos

variable {Device : Type*} [DecidableEq Device]

/-- One round of the loop. Both return codes are ignored. What `data` holds if the read
fails is open, and may differ from round to round. -/
def copyCell (junk : Int → Byte) (mpsrc : Device) (srcfpn : Int) (mpdst : Device)
    (dstfpn cellidx : Int) (devices : Device → Memphy) : Outcome (Device → Memphy) Unit :=
  let addrsrc := cint (srcfpn * pagingPagesz + cellidx)
  let addrdst := cint (dstfpn * pagingPagesz + cellidx)
  (((memphyRead (devices mpsrc) addrsrc).ignoreCode (junk cellidx)).lift
    (Function.update devices mpsrc)).bind fun data devices =>
      ((memphyWrite (devices mpdst) addrdst data).ignoreCode ()).lift
      (Function.update devices mpdst)

def copyLoop (junk : Int → Byte) (mpsrc : Device) (srcfpn : Int) (mpdst : Device) (dstfpn : Int) :
    Nat → Int → (Device → Memphy) → Outcome (Device → Memphy) Unit
  | 0, _, devices => .ok () devices
  | n + 1, cellidx, devices =>
      (copyCell junk mpsrc srcfpn mpdst dstfpn cellidx devices).bind fun _ devices =>
        copyLoop junk mpsrc srcfpn mpdst dstfpn n (cellidx + 1) devices

/-- `__swap_cp_page`. -/
def copyPage (junk : Int → Byte) (mpsrc : Device) (srcfpn : Int) (mpdst : Device) (dstfpn : Int)
    (devices : Device → Memphy) : Outcome (Device → Memphy) Unit :=
  copyLoop junk mpsrc srcfpn mpdst dstfpn pagingPagesz 0 devices

/-- Every byte of the frame is on the device. -/
def Memphy.HasFrame (mp : Memphy) (fpn : Int) : Prop :=
  ∀ i : Int, 0 ≤ i → i < 256 → mp.Has (fpn * 256 + i)

/-- The destination frame holds what the source frame held, and no other byte and no
free list has changed. -/
structure CopiedPage (mpsrc : Device) (srcfpn : Int) (mpdst : Device) (dstfpn : Int)
    (s t : Device → Memphy) : Prop where
  copied : ∀ i : Int, 0 ≤ i → i < 256 →
    (t mpdst).storage (dstfpn * 256 + i) = (s mpsrc).storage (srcfpn * 256 + i)
  others : ∀ device addr,
    ¬ (device = mpdst ∧ dstfpn * 256 ≤ addr ∧ addr < dstfpn * 256 + 256) →
      (t device).storage addr = (s device).storage addr
  freeFpList : ∀ device, (t device).freeFpList = (s device).freeFpList

/-- A byte that has changed is one that was read from the source frame. -/
def WritesOnlyRead (mpsrc : Device) (srcfpn : Int) (s t : Device → Memphy) : Prop :=
  ∀ device addr, (t device).storage addr = (s device).storage addr ∨
    ∃ i : Int, 0 ≤ i ∧ i < 256 ∧ (s mpsrc).Has (srcfpn * 256 + i) ∧
      (t device).storage addr = (s mpsrc).storage (srcfpn * 256 + i)

/-- The call copies the whole page, or returns something other than 0. -/
structure CopiesOrReports (junk : Int → Byte) (mpsrc : Device) (srcfpn : Int) (mpdst : Device)
    (dstfpn : Int) (s : Device → Memphy) : Prop where
  returns : copyPage junk mpsrc srcfpn mpdst dstfpn s ≠ .undefined
  copied : ∀ t, copyPage junk mpsrc srcfpn mpdst dstfpn s = .ok () t →
    CopiedPage mpsrc srcfpn mpdst dstfpn s t
  reports : ¬ ((s mpsrc).HasFrame srcfpn ∧ (s mpdst).HasFrame dstfpn) →
    ∃ t, copyPage junk mpsrc srcfpn mpdst dstfpn s = .fail t ∧ WritesOnlyRead mpsrc srcfpn s t

/-! With the copy between two different devices -/

section Different

variable {mpsrc mpdst : Device}

/-- The devices, with two of them in a new state. -/
def putPair (mpsrc mpdst : Device) (devices : Device → Memphy) (pair : Memphy × Memphy) :
    Device → Memphy :=
  Function.update (Function.update devices mpsrc pair.1) mpdst pair.2

theorem putPair_self (mpsrc mpdst : Device) (devices : Device → Memphy) :
    putPair mpsrc mpdst devices (devices mpsrc, devices mpdst) = devices := by
  simp only [putPair, Function.update_eq_self]

theorem copyCell_of_ne (hNe : mpsrc ≠ mpdst) (junk : Byte) (srcfpn dstfpn cellidx : Int)
    (devices : Device → Memphy) (pair : Memphy × Memphy) :
    copyCell (fun _ => junk) mpsrc srcfpn mpdst dstfpn cellidx (putPair mpsrc mpdst devices pair) =
      (swapCpCell junk srcfpn dstfpn cellidx pair).lift (putPair mpsrc mpdst devices) := by
  have hSrc : putPair mpsrc mpdst devices pair mpsrc = pair.1 := by
    rw [putPair, Function.update_of_ne hNe, Function.update_self]
  have hDst : ∀ mp, Function.update (putPair mpsrc mpdst devices pair) mpsrc mp =
      putPair mpsrc mpdst devices (mp, pair.2) := by
    intro mp
    rw [putPair, Function.update_comm hNe.symm, Function.update_idem, putPair]
  have hWritten : ∀ (pair : Memphy × Memphy) mp,
      Function.update (putPair mpsrc mpdst devices pair) mpdst mp =
        putPair mpsrc mpdst devices (pair.1, mp) := by
    intro pair mp
    rw [putPair, Function.update_idem, putPair]
  have hOther : ∀ pair : Memphy × Memphy, putPair mpsrc mpdst devices pair mpdst = pair.2 :=
    fun _ => Function.update_self ..
  simp only [copyCell, swapCpCell, hSrc]
  generalize (memphyRead pair.1 _).ignoreCode junk = read
  cases read with
  | undefined => rfl
  | fail mp => simp only [Outcome.lift_fail, Outcome.bind_fail, hDst]
  | ok data mp =>
      simp only [Outcome.lift_ok, Outcome.bind_ok, hDst, hOther]
      generalize (memphyWrite pair.2 _ data).ignoreCode () = write
      cases write with
      | undefined => rfl
      | fail mp => simp only [Outcome.lift_fail, hWritten]
      | ok value mp => simp only [Outcome.lift_ok, hWritten]

theorem copyLoop_of_ne (hNe : mpsrc ≠ mpdst) (junk : Byte) (srcfpn dstfpn : Int) (n : Nat)
    (cellidx : Int) (devices : Device → Memphy) (pair : Memphy × Memphy) :
    copyLoop (fun _ => junk) mpsrc srcfpn mpdst dstfpn n cellidx
      (putPair mpsrc mpdst devices pair) =
      (swapCpLoop junk srcfpn dstfpn n cellidx pair).lift (putPair mpsrc mpdst devices) := by
  induction n generalizing cellidx pair with
  | zero => rfl
  | succ n ih =>
      rw [copyLoop, swapCpLoop, copyCell_of_ne hNe]
      cases swapCpCell junk srcfpn dstfpn cellidx pair with
      | undefined => rfl
      | fail middle => rfl
      | ok value middle =>
          simp only [Outcome.lift_ok, Outcome.bind_ok]
          exact ih (cellidx + 1) middle

/-- On two different devices it is the copy that the pager makes. -/
theorem copyPage_of_ne (hNe : mpsrc ≠ mpdst) (junk : Byte) (srcfpn dstfpn : Int)
    (devices : Device → Memphy) :
    copyPage (fun _ => junk) mpsrc srcfpn mpdst dstfpn devices =
      (swapCpPage junk (devices mpsrc) srcfpn (devices mpdst) dstfpn).lift
        (putPair mpsrc mpdst devices) := by
  have hLoop := copyLoop_of_ne hNe junk srcfpn dstfpn pagingPagesz 0 devices
    (devices mpsrc, devices mpdst)
  rwa [putPair_self] at hLoop

end Different

/-! What a copy does -/

section Copy

variable {junk : Int → Byte} {mpsrc mpdst : Device} {srcfpn dstfpn cellidx : Int}
  {s d : Device → Memphy}

/-- It never returns anything but 0. -/
theorem copyLoop_neverFails (n : Nat) (cellidx : Int) (d : Device → Memphy) :
    (copyLoop junk mpsrc srcfpn mpdst dstfpn n cellidx d).NeverFails := by
  induction n generalizing cellidx d with
  | zero => simp [copyLoop, Outcome.NeverFails]
  | succ n ih =>
      have hCell : (copyCell junk mpsrc srcfpn mpdst dstfpn cellidx d).NeverFails :=
        (Outcome.neverFails_ignoreCode _ _).lift.bind fun _ _ =>
          (Outcome.neverFails_ignoreCode _ _).lift
      exact hCell.bind fun _ middle => ih (cellidx + 1) middle

/-- The devices when the first `count` bytes have been copied. -/
structure CopiedTo (mpsrc : Device) (srcfpn : Int) (mpdst : Device) (dstfpn count : Int)
    (s d : Device → Memphy) : Prop where
  storage : ∀ device addr, (d device).storage addr =
    if device = mpdst ∧ dstfpn * 256 ≤ addr ∧ addr < dstfpn * 256 + count then
      (s mpsrc).storage (srcfpn * 256 + (addr - dstfpn * 256))
    else (s device).storage addr
  same : ∀ device, (s device).SameFrames (d device)

theorem copiedTo_zero (s : Device → Memphy) : CopiedTo mpsrc srcfpn mpdst dstfpn 0 s s where
  storage := by
    intro device addr
    rw [if_neg (by omega)]
  same := fun _ => .rfl

/-- The byte that is read next has not been written, also when both frames are on the
same device. -/
theorem CopiedTo.source (h : CopiedTo mpsrc srcfpn mpdst dstfpn cellidx s d)
    (hHigh : cellidx < 256) :
    (d mpsrc).storage (srcfpn * 256 + cellidx) = (s mpsrc).storage (srcfpn * 256 + cellidx) := by
  rw [h.storage, if_neg (by omega)]

/-- The devices after a round. -/
theorem CopiedTo.cell (junk : Int → Byte) (h : CopiedTo mpsrc srcfpn mpdst dstfpn cellidx s d)
    (hCell : 0 ≤ cellidx ∧ cellidx < 256) (hSize : ∀ device, (s device).maxsz < 2147483648)
    (hSrc : (s mpsrc).HasFrame srcfpn) (hDst : (s mpdst).HasFrame dstfpn) :
    ∃ t, copyCell junk mpsrc srcfpn mpdst dstfpn cellidx d = .ok () t ∧
      CopiedTo mpsrc srcfpn mpdst dstfpn (cellidx + 1) s t := by
  have hPage : ((pagingPagesz : Nat) : Int) = 256 := rfl
  have hSrcHas := hSrc cellidx hCell.1 hCell.2
  have hDstHas := hDst cellidx hCell.1 hCell.2
  have hAddrsrc : cint (srcfpn * pagingPagesz + cellidx) = srcfpn * 256 + cellidx := by
    have hMax := hSize mpsrc
    rw [Memphy.Has] at hSrcHas
    rw [hPage]
    exact cint_of_range (by omega) (by omega)
  have hAddrdst : cint (dstfpn * pagingPagesz + cellidx) = dstfpn * 256 + cellidx := by
    have hMax := hSize mpdst
    rw [Memphy.Has] at hDstHas
    rw [hPage]
    exact cint_of_range (by omega) (by omega)
  -- the read moves the cursor of the source only
  let middle := Function.update d mpsrc ((d mpsrc).accessed (srcfpn * 256 + cellidx))
  have hMiddle : ∀ device, (middle device).storage = (d device).storage ∧
      (d device).SameFrames (middle device) := by
    intro device
    by_cases hDevice : device = mpsrc
    · subst hDevice
      simp only [middle, Function.update_self, Memphy.accessed_storage, true_and]
      exact Memphy.sameFrames_accessed _ _
    · simp only [middle, Function.update_of_ne hDevice, true_and]
      exact .rfl
  have hRead := memphyRead_inside ((h.same mpsrc).has hSrcHas)
  have hWrite := memphyWrite_inside (((h.same mpdst).trans (hMiddle mpdst).2).has hDstHas)
    ((d mpsrc).storage (srcfpn * 256 + cellidx))
  refine ⟨Function.update middle mpdst { (middle mpdst).accessed (dstfpn * 256 + cellidx) with
    storage := Function.update (middle mpdst).storage (dstfpn * 256 + cellidx)
      ((d mpsrc).storage (srcfpn * 256 + cellidx)) }, ?_, ?_, ?_⟩
  · simp only [copyCell, hAddrsrc, hAddrdst, hRead, Outcome.ignoreCode_ok, Outcome.lift_ok,
      Outcome.bind_ok]
    change ((memphyWrite (middle mpdst) _ _).ignoreCode ()).lift _ = _
    rw [hWrite]
    rfl
  · intro device addr
    rw [h.source hCell.2, (hMiddle mpdst).1]
    by_cases hDevice : device = mpdst
    · subst hDevice
      rw [Function.update_self]
      dsimp only
      by_cases hAddr : addr = dstfpn * 256 + cellidx
      · subst hAddr
        rw [Function.update_self, if_pos ⟨rfl, by omega, by omega⟩]
        congr 1
        omega
      · rw [Function.update_of_ne hAddr, h.storage]
        congr 1
        simp only [true_and, eq_iff_iff]
        omega
    · rw [Function.update_of_ne hDevice, (hMiddle device).1, h.storage,
        if_neg (fun hEq => hDevice hEq.1), if_neg (fun hEq => hDevice hEq.1)]
  · intro device
    have hBefore := (h.same device).trans (hMiddle device).2
    by_cases hDevice : device = mpdst
    · subst hDevice
      rw [Function.update_self]
      exact hBefore.trans ((Memphy.sameFrames_accessed _ _).store _)
    · rwa [Function.update_of_ne hDevice]

theorem CopiedTo.loop (junk : Int → Byte) (hSize : ∀ device, (s device).maxsz < 2147483648)
    (hSrc : (s mpsrc).HasFrame srcfpn) (hDst : (s mpdst).HasFrame dstfpn) (n : Nat)
    (h : CopiedTo mpsrc srcfpn mpdst dstfpn cellidx s d) (hLow : 0 ≤ cellidx)
    (hHigh : cellidx + n = 256) :
    ∃ t, copyLoop junk mpsrc srcfpn mpdst dstfpn n cellidx d = .ok () t ∧
      CopiedTo mpsrc srcfpn mpdst dstfpn 256 s t := by
  induction n generalizing cellidx d with
  | zero =>
      obtain rfl : cellidx = 256 := by omega
      exact ⟨d, rfl, h⟩
  | succ n ih =>
      obtain ⟨middle, hCell, hMiddle⟩ := h.cell junk ⟨hLow, by omega⟩ hSize hSrc hDst
      rw [copyLoop, hCell, Outcome.bind_ok]
      exact ih hMiddle (by omega) (by omega)

/-- All bytes have been copied. -/
theorem CopiedTo.copiedPage (h : CopiedTo mpsrc srcfpn mpdst dstfpn 256 s d) :
    CopiedPage mpsrc srcfpn mpdst dstfpn s d where
  copied := by
    intro i hLow hHigh
    rw [h.storage, if_pos ⟨rfl, by omega, by omega⟩]
    congr 1
    omega
  others := fun device addr hOther => by rw [h.storage, if_neg hOther]
  freeFpList := fun device => (h.same device).freeFpList

/-- For all devices whose size is an `int`, and all frame numbers. -/
theorem copiesOrReports_iff (hSize : ∀ device, (s device).maxsz < 2147483648) :
    CopiesOrReports junk mpsrc srcfpn mpdst dstfpn s ↔
      (s mpsrc).HasFrame srcfpn ∧ (s mpdst).HasFrame dstfpn := by
  constructor
  · intro h
    by_contra hOut
    obtain ⟨t, hFail, -⟩ := h.reports hOut
    exact copyLoop_neverFails _ _ _ t hFail
  · rintro ⟨hSrc, hDst⟩
    obtain ⟨t, hCall, hCopied⟩ := CopiedTo.loop junk hSize hSrc hDst pagingPagesz
      (copiedTo_zero s) (Int.le_refl 0) rfl
    have hPage : copyPage junk mpsrc srcfpn mpdst dstfpn s = .ok () t := hCall
    refine ⟨by simp [hPage], fun t' hOk => ?_, fun hOut => absurd ⟨hSrc, hDst⟩ hOut⟩
    obtain rfl : t = t' := (Outcome.ok.inj (hPage.symm.trans hOk)).2
    exact hCopied.copiedPage

end Copy

/-- Between two frames of one sequential device. -/
theorem copiesOrReports_one_device :
    CopiesOrReports (fun _ => 7#8) () 1 () 0 fun _ => initMemphy .zero 512 0 := by
  refine (copiesOrReports_iff fun _ => by simp).mpr
    ⟨fun i hLow hHigh => ?_, fun i hLow hHigh => ?_⟩
  · rw [Memphy.Has, initMemphy_maxsz]
    omega
  · rw [Memphy.Has, initMemphy_maxsz]
    omega

/-- Frame 2 of a device of two frames cannot be read. The call returns 0 all the same, with
what `data` held on the stack in the frame that it was to write. -/
theorem copyPage_missing_frame :
    ((copyPage (fun _ => 7#8) true 2 false 0 fun _ => initMemphy .zero 512 1).code?.map
      fun result => (result.1, (result.2 false).storage 0)) = some (true, 7#8) ∧
    ¬ CopiesOrReports (fun _ => 7#8) true 2 false 0 fun _ => initMemphy .zero 512 1 := by
  constructor
  · decide +kernel
  · intro h
    obtain ⟨t, hFail, -⟩ := h.reports fun hFrames =>
      absurd (hFrames.1 0 (Int.le_refl 0) (by decide)) (by decide)
    exact copyLoop_neverFails _ _ _ t hFail

end Btlos
