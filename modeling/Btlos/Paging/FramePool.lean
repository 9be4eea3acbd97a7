import Btlos.Library.Transition
import Btlos.Paging.Memphy

/-! The free frames of a device from `init_memphy` on, over all sequences of
`MEMPHY_get_freefp` and `MEMPHY_put_freefp`. -/
namespace Btlos

open Transition

/-- A device, and the frames that were handed out and not put back. -/
structure FramePool where
  mp : Memphy
  held : List Int

inductive PoolCall where
  | get (result : Option Int)
  | put (fpn : Int)

/-- A call of `MEMPHY_get_freefp`, or one of `MEMPHY_put_freefp` with a frame that is
held. Nothing in the source checks that; FrameNodes has the calls with any frame. -/
inductive PoolStep : FramePool → PoolCall → FramePool → Prop where
  | get {s : FramePool} {fpn : Int} {mp : Memphy} (hGet : memphyGetFreefp s.mp = .ok fpn mp) :
      PoolStep s (.get (some fpn)) ⟨mp, fpn :: s.held⟩
  | getNone {s : FramePool} {mp : Memphy} (hGet : memphyGetFreefp s.mp = .fail mp) :
      PoolStep s (.get none) ⟨mp, s.held⟩
  | put {s : FramePool} {fpn : Int} (hHeld : fpn ∈ s.held) :
      PoolStep s (.put fpn) ⟨memphyPutFreefp s.mp fpn, s.held.erase fpn⟩

/-- What the next call does, on a device of this size. -/
structure PoolLaw (maxSize : Int) (s : FramePool) : Prop where
  not_held : ∀ fpn t, PoolStep s (.get (some fpn)) t → fpn ∉ s.held
  below : ∀ fpn t, PoolStep s (.get (some fpn)) t → 0 ≤ fpn ∧ fpn < maxSize / 256
  none_iff : (∃ t, PoolStep s (.get none) t) ↔
    ∀ fpn, 0 ≤ fpn → fpn < maxSize / 256 → fpn ∈ s.held

/-- The free list of a new device numbers its frames and ends, and every sequence of
calls obeys the law. -/
structure ExactPool (fresh : FreshMemphy) (maxSize randomflg : Int) : Prop where
  list : (initMemphy fresh maxSize randomflg).freeFpList =
    (List.range (maxSize / 256).toNat).map Int.ofNat
  law : ∀ calls s, Runs PoolStep ⟨initMemphy fresh maxSize randomflg, []⟩ calls s →
    PoolLaw maxSize s

/-- The memory that `init_memphy` leaves as it found it holds NULL: the head pointer of
a device without a frame, and the link of the only frame of a device. -/
def EndsInNull (fresh : FreshMemphy) (maxSize : Int) : Prop :=
  (maxSize / 256 = 0 → fresh.freeFpList = []) ∧ (maxSize / 256 = 1 → fresh.fpNext = [])

variable {fresh : FreshMemphy} {maxSize randomflg : Int} {s t : FramePool} {calls : List PoolCall}
  {call : PoolCall}

theorem formatNodes_eq_range (iter n : Nat) :
    formatNodes iter n = (List.range' iter n).map Int.ofNat := by
  induction n generalizing iter with
  | zero => rfl
  | succ n ih =>
      rw [formatNodes, List.range'_succ, List.map_cons, ← ih]
      rfl

/-- The frames of the device are in the list or held, each once. -/
def FramePool.Partition (maxSize : Int) (s : FramePool) : Prop :=
  (s.held ++ s.mp.freeFpList).Perm (formatNodes 0 (maxSize / 256).toNat)

theorem FramePool.Partition.step (h : s.Partition maxSize) (step : PoolStep s call t) :
    t.Partition maxSize := by
  cases step with
  | @get fpn mp hGet =>
      cases hList : s.mp.freeFpList with
      | nil => simp [memphyGetFreefp, hList] at hGet
      | cons first rest =>
          obtain ⟨rfl, rfl⟩ : first = fpn ∧ { s.mp with freeFpList := rest } = mp := by
            simpa [memphyGetFreefp, hList] using hGet
          rw [FramePool.Partition, hList] at h
          exact List.perm_middle.symm.trans h
  | getNone hGet =>
      cases hList : s.mp.freeFpList with
      | nil =>
          obtain rfl : s.mp = _ := by simpa [memphyGetFreefp, hList] using hGet
          exact h
      | cons first rest => simp [memphyGetFreefp, hList] at hGet
  | @put fpn hHeld =>
      have hSplit := (List.perm_cons_erase hHeld).append_right s.mp.freeFpList
      exact List.perm_middle.trans (hSplit.symm.trans h)

theorem FramePool.Partition.run (h : s.Partition maxSize) (run : Runs PoolStep s calls t) :
    t.Partition maxSize :=
  run.invariant (FramePool.Partition maxSize) h fun _ _ _ hStart step => hStart.step step

theorem FramePool.Partition.law (h : s.Partition maxSize) : PoolLaw maxSize s := by
  have hNodup := h.nodup_iff.mpr (formatNodes_nodup 0 _)
  have hMem : ∀ fpn, fpn ∈ s.held ++ s.mp.freeFpList ↔ 0 ≤ fpn ∧ fpn < maxSize / 256 := by
    intro fpn
    rw [h.mem_iff, mem_formatNodes]
    omega
  have hFree : ∀ fpn t, PoolStep s (.get (some fpn)) t → fpn ∈ s.mp.freeFpList := by
    intro fpn t step
    cases step with
    | get hGet =>
        cases hList : s.mp.freeFpList with
        | nil => simp [memphyGetFreefp, hList] at hGet
        | cons first rest =>
            obtain ⟨rfl, -⟩ : first = fpn ∧ _ := by simpa [memphyGetFreefp, hList] using hGet
            exact List.mem_cons_self
  refine ⟨fun fpn t step hHeld => ?_, fun fpn t step => ?_, ?_⟩
  · exact (List.nodup_append.mp hNodup).2.2 fpn hHeld fpn (hFree fpn t step) rfl
  · exact (hMem fpn).mp (List.mem_append_right _ (hFree fpn t step))
  · constructor
    · rintro ⟨t, step⟩ fpn hLow hHigh
      have hList : s.mp.freeFpList = [] := by
        cases step with
        | getNone hGet =>
            cases hList : s.mp.freeFpList with
            | nil => rfl
            | cons first rest => simp [memphyGetFreefp, hList] at hGet
      simpa [hList] using (hMem fpn).mpr ⟨hLow, hHigh⟩
    · intro hAll
      have hList : s.mp.freeFpList = [] := by
        rw [List.eq_nil_iff_forall_not_mem]
        intro fpn hIn
        obtain ⟨hLow, hHigh⟩ := (hMem fpn).mp (List.mem_append_right _ hIn)
        exact (List.nodup_append.mp hNodup).2.2 fpn (hAll fpn hLow hHigh) fpn hIn rfl
      exact ⟨_, PoolStep.getNone (by rw [memphyGetFreefp, hList])⟩

/-- The list of a new device is right exactly on memory that ends it. -/
theorem freeFpList_iff (hSize : 0 ≤ maxSize) (randomflg : Int) :
    (initMemphy fresh maxSize randomflg).freeFpList = formatNodes 0 (maxSize / 256).toNat ↔
      EndsInNull fresh maxSize := by
  have hNumfp : (maxSize.tdiv pagingPagesz).toNat = (maxSize / 256).toNat := by
    rw [Int.tdiv_eq_ediv_of_nonneg hSize]
    rfl
  rw [initMemphy_freeFpList_fresh, hNumfp]
  have hFrames : 0 ≤ maxSize / 256 := by omega
  obtain ⟨n, hn⟩ := Int.eq_ofNat_of_zero_le hFrames
  rw [EndsInNull, hn, Int.toNat_natCast]
  match n with
  | 0 => simp [formatNodes]
  | 1 => simp [formatNodes]
  | n + 2 =>
      have hNone : ((n + 2 : Nat) : Int) ≠ 0 := by omega
      have hOne : ((n + 2 : Nat) : Int) ≠ 1 := by omega
      exact ⟨fun _ => ⟨fun h => absurd h hNone, fun h => absurd h hOne⟩, fun _ => rfl⟩

/-- For every size and every content of fresh memory. -/
theorem exactPool_iff (hSize : 0 ≤ maxSize) :
    ExactPool fresh maxSize randomflg ↔ EndsInNull fresh maxSize := by
  have hRange : (List.range (maxSize / 256).toNat).map Int.ofNat =
      formatNodes 0 (maxSize / 256).toNat := by
    rw [List.range_eq_range']
    exact (formatNodes_eq_range 0 _).symm
  constructor
  · intro h
    exact (freeFpList_iff hSize randomflg).mp (h.list.trans hRange)
  · intro h
    have hList := (freeFpList_iff hSize randomflg).mpr h
    refine ⟨hList.trans hRange.symm, fun calls s run => ?_⟩
    have hStart : FramePool.Partition maxSize ⟨initMemphy fresh maxSize randomflg, []⟩ := by
      rw [FramePool.Partition, List.nil_append, hList]
    exact (hStart.run run).law

/-- A device of two frames does not depend on what the memory held before. -/
theorem exactPool_two_frames :
    ExactPool ⟨fun _ => 0#8, 0, [9], [7]⟩ 512 1 := by
  refine (exactPool_iff (by decide)).mpr ⟨fun hNone => ?_, fun hOne => ?_⟩
  · exact absurd hNone (by decide)
  · exact absurd hOne (by decide)

/-- A device of one frame whose node is allocated where a link to frame 7 was left: the
frame is handed out, and then frame 7, which the device does not have. -/
theorem one_frame_garbage_link :
    (initMemphy ⟨fun _ => 0#8, 0, [], [7]⟩ 256 1).freeFpList = [0, 7] ∧
      ¬ ExactPool ⟨fun _ => 0#8, 0, [], [7]⟩ 256 1 := by
  have hList : (initMemphy ⟨fun _ => 0#8, 0, [], [7]⟩ 256 1).freeFpList = [0, 7] := by decide
  refine ⟨hList, fun h => ?_⟩
  have hExact := h.list
  rw [hList] at hExact
  exact absurd hExact (by decide)

end Btlos
